import TaskSuite.TimerSpec
import Mathlib.Algebra.Order.Group.Nat
import Mathlib.Data.Int.Order.Basic
import Mathlib.Data.List.Nodup

/-! Implementation 0 of `timer_test.cxx`: `TimerImpl<0>` objects on a
`std::multimap`. A handle is an iterator, here the number of the node it refers
to; cancelling clears the timer pointer in that node. -/
namespace Timers.Multimap
open Machine

/-- A node of the map, with its value: the timer, or nullptr once cancelled. -/
structure Entry (τ : Type) where
  key : TimePoint
  node : Nat
  timer : Option τ

/-- `TimerImpl<0>`; the handle is `none` where the source has `end`. -/
structure Timer (τ : Type) where
  handle : Option Nat
  expirationPoint : TimePoint
  callBack : List τ

/-- The map in its order, the timer objects, the counters and the log. -/
structure State (τ : Type) where
  map : List (Entry τ)
  nextNode : Nat
  timer : τ → Timer τ
  runningTimers : Int
  expiredTimers : Int
  canceledRemoved : Int
  canceledTimers : Int
  lastTimePoint : TimePoint
  events : List (Event τ)

/-- A call ends in a new state, or in the state in which an assert failed. -/
abbrev Result (τ : Type) := Except (State τ) (State τ)

variable {τ : Type}

def initial : State τ where
  map := []
  nextNode := 0
  timer _ := ⟨none, 0, []⟩
  runningTimers := 0
  expiredTimers := 0
  canceledRemoved := 0
  canceledTimers := 0
  lastTimePoint := 0
  events := []

/-- `std::multimap::emplace`: behind the entries with an equal key. -/
def emplace (e : Entry τ) : List (Entry τ) → List (Entry τ)
  | [] => [e]
  | d :: ds => if e.key < d.key then e :: d :: ds else d :: emplace e ds

section Operations
variable [DecidableEq τ]

def start (s : State τ) (t : τ) (interval : Int) (callBack : List τ) (now : TimePoint) :
    Result τ :=
  if (s.timer t).handle.isSome then .error s
  else .ok { s with
    map := emplace ⟨now + interval, s.nextNode, some t⟩ s.map
    nextNode := s.nextNode + 1
    timer := Function.update s.timer t ⟨some s.nextNode, now + interval, callBack⟩
    runningTimers := s.runningTimers + 1
    events := s.events ++ [.started t (now + interval)] }

def Entry.clear (n : Nat) (e : Entry τ) : Entry τ :=
  if e.node = n then { e with timer := none } else e

/-- `TimerHandleImpl<0>::set_not_running` on the handle of a timer. Following an
iterator to a node that is gone counts as a failed assert. -/
def setNotRunning (s : State τ) (t : τ) : Result τ :=
  match (s.timer t).handle with
  | none => .error s
  | some n =>
      match s.map.find? (·.node = n) with
      | none => .error s
      | some e =>
          if e.timer = none then .error s
          else .ok { s with
            map := s.map.map (Entry.clear n)
            timer := Function.update s.timer t { s.timer t with handle := none }
            runningTimers := s.runningTimers - 1
            canceledTimers := s.canceledTimers + 1 }

def stop (s : State τ) (t : τ) : Result τ :=
  if (s.timer t).handle.isSome then
    (setNotRunning s t).map fun s' => { s' with events := s'.events ++ [.stopped t] }
  else .ok s

def stopAll (s : State τ) : List τ → Result τ
  | [] => .ok s
  | u :: us => (stop s u).bind fun s' => stopAll s' us

def expire (s : State τ) (t : τ) (key : TimePoint) : Result τ :=
  (setNotRunning s t).bind fun s1 =>
    (stopAll { s1 with
        lastTimePoint := (s1.timer t).expirationPoint
        events := s1.events ++ [.called t key] } (s1.timer t).callBack).map fun s2 =>
      { s2 with expiredTimers := s2.expiredTimers + 1 }

def erase (s : State τ) (n : Nat) : State τ :=
  { s with map := s.map.filter (·.node ≠ n) }

def remove (s : State τ) (n : Nat) : State τ :=
  erase { s with canceledRemoved := s.canceledRemoved + 1 } n

/-- The do-while loop of `expire_next`, and the value of `now` it leaves. The
fuel is the number of entries, so at zero the map is empty. -/
def expireFirst : Nat → State τ → Except (State τ) (State τ × TimePoint)
  | 0, s => .error s
  | k + 1, s =>
      match s.map with
      | [] => .error s
      | b :: _ =>
          match b.timer with
          | none => expireFirst k (remove s b.node)
          | some t => (expire s t b.key).map fun s' =>
              (erase s' b.node, (s.timer t).expirationPoint)

/-- The loop over the timers that expire at `now` too. -/
def expireRest (now : TimePoint) : Nat → State τ → Result τ
  | 0, s => .ok s
  | k + 1, s =>
      match s.map with
      | [] => .ok s
      | b :: _ =>
          match b.timer with
          | none => expireRest now k (remove s b.node)
          | some t =>
              if (s.timer t).expirationPoint < now then .error s
              else if (s.timer t).expirationPoint ≠ now then .ok s
              else (expire s t b.key).bind fun s' => expireRest now k (erase s' b.node)

def expireNext (s : State τ) : Result τ :=
  (expireFirst s.map.length s).bind fun p => expireRest p.2 p.1.map.length p.1

end Operations

/-! ### The entries that stand for running timers -/

/-- The map is sorted and its nodes are distinct; the handles of the running
timers refer to the entries that are not cancelled, one each. -/
structure Rep (map : List (Entry τ)) (nextNode : Nat) (timer : τ → Timer τ) (live : Live τ) :
    Prop where
  sorted : map.Pairwise fun d e => d.key ≤ e.key
  nodup : (map.map Entry.node).Nodup
  fresh : ∀ e ∈ map, e.node < nextNode
  entry : ∀ e ∈ map, ∀ t, e.timer = some t →
    (timer t).handle = some e.node ∧ live t = some e.key
  handle : ∀ t n, (timer t).handle = some n → ∃ e ∈ map, e.node = n ∧ e.timer = some t
  point : ∀ t x, live t = some x → (timer t).handle ≠ none ∧ (timer t).expirationPoint = x

abbrev State.Shows (s : State τ) (live : Live τ) : Prop := Rep s.map s.nextNode s.timer live

def State.callBacks (s : State τ) : τ → List τ := fun t => (s.timer t).callBack

/-- The expiration points as the timer objects have them. -/
def State.running (s : State τ) : Live τ :=
  fun t => if (s.timer t).handle.isSome then some (s.timer t).expirationPoint else none

/-- What the calls made by a callback leave alone: an entry of the map stays
where it is, and stays the same unless it is cancelled. -/
structure Frame (s s' : State τ) : Prop where
  nodes : s'.map.map Entry.node = s.map.map Entry.node
  kept : ∀ e ∈ s'.map, e.timer ≠ none → e ∈ s.map
  callBacks : s'.callBacks = s.callBacks
  lastTimePoint : s'.lastTimePoint = s.lastTimePoint

theorem Frame.refl (s : State τ) : Frame s s := ⟨rfl, fun _ he _ => he, rfl, rfl⟩

theorem Frame.trans {s t u : State τ} (h : Frame s t) (k : Frame t u) : Frame s u where
  nodes := k.nodes.trans h.nodes
  kept e he hn := h.kept e (k.kept e he hn) hn
  callBacks := k.callBacks.trans h.callBacks
  lastTimePoint := k.lastTimePoint.trans h.lastTimePoint

theorem rep_initial : (initial : State τ).Shows Live.none where
  sorted := List.Pairwise.nil
  nodup := List.nodup_nil
  fresh e he := by cases he
  entry e he := by cases he
  handle t n h := by cases h
  point t x h := by cases h

section Rep
variable {s s' : State τ} {live : Live τ} {t : τ}

theorem Rep.handle_eq_none (h : s.Shows live) : (s.timer t).handle = none ↔ live t = none := by
  constructor
  · intro hn
    by_contra hl
    obtain ⟨x, hx⟩ := Option.ne_none_iff_exists'.mp hl
    exact (h.point t x hx).1 hn
  · intro hl
    by_contra hn
    obtain ⟨n, hn⟩ := Option.ne_none_iff_exists'.mp hn
    obtain ⟨e, he, -, het⟩ := h.handle t n hn
    have hsome := (h.entry e he t het).2
    rw [hl] at hsome
    cases hsome

theorem Rep.eq_running (h : s.Shows live) : live = s.running := by
  funext t
  simp only [State.running]
  cases hl : live t with
  | none => rw [h.handle_eq_none.mpr hl]; rfl
  | some x =>
      obtain ⟨hrun, hp⟩ := h.point t x hl
      rw [Option.isSome_iff_ne_none.mpr hrun, hp]
      rfl

theorem Rep.eq_of_node (h : s.Shows live) {d e : Entry τ} (hd : d ∈ s.map) (he : e ∈ s.map)
    (hn : d.node = e.node) : d = e :=
  List.inj_on_of_nodup_map h.nodup hd he hn

@[simp] theorem clear_node (n : Nat) (e : Entry τ) : (e.clear n).node = e.node := by
  unfold Entry.clear
  split_ifs <;> rfl

@[simp] theorem clear_key (n : Nat) (e : Entry τ) : (e.clear n).key = e.key := by
  unfold Entry.clear
  split_ifs <;> rfl

theorem clear_eq_of_timer {n : Nat} {e : Entry τ} (h : (e.clear n).timer ≠ none) :
    e.clear n = e ∧ e.node ≠ n := by
  by_cases hn : e.node = n
  · simp [Entry.clear, hn] at h
  · exact ⟨if_neg hn, hn⟩

variable [DecidableEq τ]

theorem Rep.clear {n : Nat} (h : s.Shows live) (hn : (s.timer t).handle = some n) :
    Rep (s.map.map (Entry.clear n)) s.nextNode
      (Function.update s.timer t { s.timer t with handle := none })
      (Function.update live t none) where
  sorted := by
    rw [List.pairwise_map]
    simpa using h.sorted
  nodup := by
    rw [List.map_map, show Entry.node ∘ Entry.clear n = (Entry.node : Entry τ → Nat) from
      funext (clear_node n)]
    exact h.nodup
  fresh e he := by
    obtain ⟨d, hd, rfl⟩ := List.mem_map.mp he
    rw [clear_node]
    exact h.fresh d hd
  entry e he u heu := by
    obtain ⟨d, hd, rfl⟩ := List.mem_map.mp he
    obtain ⟨hclear, hdn⟩ := clear_eq_of_timer (e := d) (n := n) (by rw [heu]; exact nofun)
    rw [hclear] at heu ⊢
    obtain ⟨hh, hl⟩ := h.entry d hd u heu
    have hut : u ≠ t := by
      rintro rfl
      rw [hn] at hh
      exact hdn (Option.some.inj hh).symm
    rw [Function.update_of_ne hut, Function.update_of_ne hut]
    exact ⟨hh, hl⟩
  handle u m hm := by
    by_cases hut : u = t
    · subst hut
      simp at hm
    · rw [Function.update_of_ne hut] at hm
      obtain ⟨e, he, hem, het⟩ := h.handle u m hm
      have hen : e.node ≠ n := by
        rintro hen
        obtain ⟨d, hd, hdn, hdt⟩ := h.handle t n hn
        have hde := h.eq_of_node hd he (hdn.trans hen.symm)
        rw [hde, het] at hdt
        exact hut (Option.some.inj hdt)
      refine ⟨e, List.mem_map.mpr ⟨e, he, if_neg hen⟩, hem, het⟩
  point u x hx := by
    by_cases hut : u = t
    · subst hut
      simp at hx
    · rw [Function.update_of_ne hut] at hx ⊢
      exact h.point u x hx

omit [DecidableEq τ] in
theorem emplace_perm (e : Entry τ) (l : List (Entry τ)) : (emplace e l).Perm (e :: l) := by
  induction l with
  | nil => exact .refl _
  | cons d ds ih =>
      simp only [emplace]
      split_ifs
      · exact .refl _
      · exact (ih.cons d).trans (.swap e d ds)

omit [DecidableEq τ] in
theorem emplace_sorted (e : Entry τ) {l : List (Entry τ)}
    (h : l.Pairwise fun d e => d.key ≤ e.key) : (emplace e l).Pairwise fun d e => d.key ≤ e.key := by
  induction l with
  | nil => exact List.pairwise_singleton _ e
  | cons d ds ih =>
      obtain ⟨hd, hds⟩ := List.pairwise_cons.mp h
      simp only [emplace]
      split_ifs with hlt
      · refine List.pairwise_cons.mpr ⟨fun c hc => ?_, h⟩
        rcases List.mem_cons.mp hc with rfl | hc
        · exact le_of_lt hlt
        · exact (le_of_lt hlt).trans (hd c hc)
      · refine List.pairwise_cons.mpr ⟨fun c hc => ?_, ih hds⟩
        rcases List.mem_cons.mp ((emplace_perm e ds).mem_iff.mp hc) with rfl | hc
        · exact not_lt.mp hlt
        · exact hd c hc

theorem Rep.start (h : s.Shows live) (hl : live t = none) (x : TimePoint) (callBack : List τ) :
    Rep (emplace ⟨x, s.nextNode, some t⟩ s.map) (s.nextNode + 1)
      (Function.update s.timer t ⟨some s.nextNode, x, callBack⟩)
      (Function.update live t (some x)) := by
  have hperm := emplace_perm ⟨x, s.nextNode, some t⟩ s.map
  have hother : ∀ e ∈ s.map, ∀ u, e.timer = some u → u ≠ t := by
    rintro e he u heu rfl
    have hsome := (h.entry e he u heu).2
    rw [hl] at hsome
    cases hsome
  refine ⟨emplace_sorted _ h.sorted, ?_, ?_, ?_, ?_, ?_⟩
  · rw [(hperm.map Entry.node).nodup_iff, List.map_cons]
    refine List.nodup_cons.mpr ⟨fun hmem => ?_, h.nodup⟩
    obtain ⟨e, he, hen⟩ := List.mem_map.mp hmem
    exact absurd hen (Nat.ne_of_lt (h.fresh e he))
  · intro e he
    rcases List.mem_cons.mp (hperm.mem_iff.mp he) with rfl | he
    · exact Nat.lt_succ_self _
    · exact Nat.lt_succ_of_lt (h.fresh e he)
  · intro e he u heu
    rcases List.mem_cons.mp (hperm.mem_iff.mp he) with rfl | he
    · cases heu
      simp
    · rw [Function.update_of_ne (hother e he u heu), Function.update_of_ne (hother e he u heu)]
      exact h.entry e he u heu
  · intro u n hn
    by_cases hut : u = t
    · subst hut
      rw [Function.update_self] at hn
      cases hn
      exact ⟨_, hperm.mem_iff.mpr (List.mem_cons_self ..), rfl, rfl⟩
    · rw [Function.update_of_ne hut] at hn
      obtain ⟨e, he, hen, het⟩ := h.handle u n hn
      exact ⟨e, hperm.mem_iff.mpr (List.mem_cons_of_mem _ he), hen, het⟩
  · intro u y hy
    by_cases hut : u = t
    · subst hut
      rw [Function.update_self] at hy
      cases hy
      simp
    · rw [Function.update_of_ne hut] at hy ⊢
      exact h.point u y hy

theorem Rep.setNotRunning (h : s.Shows live) (hl : live t ≠ none) :
    ∃ s', setNotRunning s t = .ok s' ∧ Frame s s' ∧ s'.events = s.events ∧
      (s'.timer t).expirationPoint = (s.timer t).expirationPoint ∧
      s'.Shows (Function.update live t none) := by
  have hrun : (s.timer t).handle ≠ none := fun hn => hl (h.handle_eq_none.mp hn)
  obtain ⟨n, hn⟩ := Option.ne_none_iff_exists'.mp hrun
  obtain ⟨e, he, hen, het⟩ := h.handle t n hn
  have hfind : s.map.find? (·.node = n) = some e := by
    cases hf : s.map.find? (·.node = n) with
    | none => exact absurd hen (by simpa using List.find?_eq_none.mp hf e he)
    | some d =>
        have hdn : d.node = n := by simpa using List.find?_some hf
        rw [h.eq_of_node (List.mem_of_find?_eq_some hf) he (hdn.trans hen.symm)]
  refine ⟨{ s with
      map := s.map.map (Entry.clear n)
      timer := Function.update s.timer t { s.timer t with handle := none }
      runningTimers := s.runningTimers - 1
      canceledTimers := s.canceledTimers + 1 }, ?_, ⟨?_, ?_, ?_, rfl⟩, rfl, by simp, h.clear hn⟩
  · simp [Multimap.setNotRunning, hn, hfind, het]
  · rw [List.map_map]
    exact List.map_congr_left fun d _ => clear_node n d
  · intro d hd hdt
    obtain ⟨c, hc, rfl⟩ := List.mem_map.mp hd
    rw [(clear_eq_of_timer hdt).1]
    exact hc
  · funext u
    by_cases hut : u = t
    · subst hut
      simp [State.callBacks]
    · simp [State.callBacks, hut]

/-- Under the invariant stop() does what it is for, and its asserts hold. -/
theorem Rep.stop (h : s.Shows live) (u : τ) :
    ∃ s', stop s u = .ok s' ∧ Frame s s' ∧ s'.events = s.events ++ stops live [u] ∧
      s'.Shows (live.stopAll [u]) := by
  by_cases hu : live u = none
  · refine ⟨s, by simp [Multimap.stop, h.handle_eq_none.mpr hu], .refl s, by simp [stops, hu], ?_⟩
    rw [stopAll_cons_of_none hu, stopAll_nil]
    exact h
  · obtain ⟨s', hs', hf, he, -, h'⟩ := h.setNotRunning hu
    have hsome : (s.timer u).handle.isSome = true := by
      rw [Option.isSome_iff_ne_none, ne_eq, h.handle_eq_none]
      exact hu
    refine ⟨{ s' with events := s'.events ++ [.stopped u] }, ?_, ?_, ?_, ?_⟩
    · simp [Multimap.stop, hsome, hs', Except.map]
    · exact ⟨hf.nodes, hf.kept, hf.callBacks, hf.lastTimePoint⟩
    · simp [he, stops, hu]
    · rw [stopAll_cons, stopAll_nil]
      exact h'

theorem Rep.stopAll (h : s.Shows live) (us : List τ) :
    ∃ s', stopAll s us = .ok s' ∧ Frame s s' ∧ s'.events = s.events ++ stops live us ∧
      s'.Shows (live.stopAll us) := by
  induction us generalizing s live with
  | nil => exact ⟨s, rfl, .refl s, by simp [stops], by rwa [stopAll_nil]⟩
  | cons u us ih =>
      obtain ⟨s1, hs1, hf1, he1, h1⟩ := h.stop u
      obtain ⟨s2, hs2, hf2, he2, h2⟩ := ih h1
      refine ⟨s2, by rw [Multimap.stopAll, hs1]; exact hs2, hf1.trans hf2, ?_, ?_⟩
      · rw [he2, he1, List.append_assoc, ← stops_cons]
      · rw [← stopAll_singleton_stopAll]
        exact h2

omit [DecidableEq τ] in
theorem Rep.erase (h : s.Shows live) {n : Nat} (hn : ∀ e ∈ s.map, e.node = n → e.timer = none) :
    (erase s n).Shows live where
  sorted := h.sorted.filter _
  nodup := h.nodup.sublist (List.filter_sublist.map _)
  fresh e he := h.fresh e (List.mem_filter.mp he).1
  entry e he := h.entry e (List.mem_filter.mp he).1
  handle u m hm := by
    obtain ⟨e, he, hem, het⟩ := h.handle u m hm
    refine ⟨e, List.mem_filter.mpr ⟨he, ?_⟩, hem, het⟩
    have hne : e.node ≠ n := by
      intro hen
      rw [hn e he hen] at het
      cases het
    simpa using hne
  point := h.point

omit [DecidableEq τ] in
theorem length_erase {b : Entry τ} (hb : b.node ∈ s.map.map Entry.node) :
    (erase s b.node).map.length < s.map.length := by
  obtain ⟨e, he, hen⟩ := List.mem_map.mp hb
  exact List.length_filter_lt_length_iff_exists.mpr ⟨e, he, by simp [hen]⟩

/-- expire() of the timer in an entry; afterwards that entry is a cancelled one. -/
theorem Rep.expire_shows (h : s.Shows live) {b : Entry τ} (hb : b ∈ s.map) (hbt : b.timer = some t) :
    ∃ s', expire s t b.key = .ok s' ∧ s'.callBacks = s.callBacks ∧ s'.lastTimePoint = b.key ∧
      s'.map.map Entry.node = s.map.map Entry.node ∧
      s'.events = s.events ++
        .called t b.key :: stops (Function.update live t none) (s.callBacks t) ∧
      s'.Shows (Live.stopAll (Function.update live t none) (s.callBacks t)) ∧
      ∀ e ∈ s'.map, e.node = b.node → e.timer = none := by
  have hl := (h.entry b hb t hbt).2
  obtain ⟨s1, hs1, hf1, he1, hp1, h1⟩ := h.setNotRunning (t := t) (by rw [hl]; exact nofun)
  have hcb1 : (s1.timer t).callBack = s.callBacks t := congrFun hf1.callBacks t
  obtain ⟨s2, hs2, hf2, he2, h2⟩ := Rep.stopAll
    (s := { s1 with
      lastTimePoint := (s1.timer t).expirationPoint
      events := s1.events ++ [.called t b.key] }) h1 (s.callBacks t)
  refine ⟨{ s2 with expiredTimers := s2.expiredTimers + 1 }, ?_, ?_, ?_, ?_, ?_, h2, ?_⟩
  · rw [Multimap.expire, hs1]
    simp only [Except.bind, hcb1, hs2]
    rfl
  · exact hf2.callBacks.trans hf1.callBacks
  · exact (hf2.lastTimePoint.trans hp1).trans (h.point t b.key hl).2
  · exact hf2.nodes.trans hf1.nodes
  · simp [he2, he1]
  · -- An entry only loses its timer, so the node of `b` holds `t` or nothing.
    intro e he hen
    by_contra hne
    have hes := hf1.kept e (hf2.kept e he hne) hne
    rw [h.eq_of_node hes hb hen] at he
    have hlive := (h2.entry b he t hbt).2
    rw [stopAll_eq_some, Function.update_self] at hlive
    cases hlive.2

theorem Rep.expire (h : s.Shows live) {b : Entry τ} (hb : b ∈ s.map) (hbt : b.timer = some t) :
    ∃ s', expire s t b.key = .ok s' ∧ s'.callBacks = s.callBacks ∧ s'.lastTimePoint = b.key ∧
      s'.map.map Entry.node = s.map.map Entry.node ∧
      s'.events = s.events ++
        .called t b.key :: stops (Function.update live t none) (s.callBacks t) ∧
      (Multimap.erase s' b.node).Shows
        (Live.stopAll (Function.update live t none) (s.callBacks t)) := by
  obtain ⟨s', hs', hcb, hlast, hnodes, hevents, hshows, hentry⟩ := h.expire_shows hb hbt
  exact ⟨s', hs', hcb, hlast, hnodes, hevents, hshows.erase hentry⟩

omit [DecidableEq τ] in
theorem Rep.head_le (h : s.Shows live) {b : Entry τ} {rest : List (Entry τ)}
    (hmap : s.map = b :: rest) : ∀ u x, live u = some x → b.key ≤ x := by
  intro u x hx
  obtain ⟨n, hn⟩ := Option.ne_none_iff_exists'.mp (h.point u x hx).1
  obtain ⟨e, he, -, het⟩ := h.handle u n hn
  have hkey := (h.entry e he u het).2
  rw [hx] at hkey
  rw [Option.some.inj hkey]
  have hsorted := h.sorted
  rw [hmap] at hsorted he
  rcases List.mem_cons.mp he with rfl | he
  · exact le_rfl
  · exact (List.pairwise_cons.mp hsorted).1 e he

omit [DecidableEq τ] in
theorem Rep.not_live_of_nil (h : s.Shows live) (hmap : s.map = []) (t : τ) : live t = none := by
  by_contra hne
  obtain ⟨x, hx⟩ := Option.ne_none_iff_exists'.mp hne
  obtain ⟨n, hn⟩ := Option.ne_none_iff_exists'.mp (h.point t x hx).1
  obtain ⟨e, he, -, -⟩ := h.handle t n hn
  rw [hmap] at he
  cases he

omit [DecidableEq τ] in
/-- If any timer runs, then the first entry that is not cancelled has the least
expiration point. -/
theorem Rep.exists_least (h : s.Shows live) (hl : live t ≠ none) : ∃ now, Least live now := by
  have hin : ∀ u x, live u = some x → ∃ e ∈ s.map.filter (·.timer.isSome), e.key = x := by
    intro u x hx
    obtain ⟨n, hn⟩ := Option.ne_none_iff_exists'.mp (h.point u x hx).1
    obtain ⟨e, he, -, het⟩ := h.handle u n hn
    have hkey := (h.entry e he u het).2
    rw [hx] at hkey
    exact ⟨e, List.mem_filter.mpr ⟨he, by simp [het]⟩, (Option.some.inj hkey).symm⟩
  cases hf : s.map.filter (·.timer.isSome) with
  | nil =>
      obtain ⟨x, hx⟩ := Option.ne_none_iff_exists'.mp hl
      obtain ⟨e, he, -⟩ := hin t x hx
      rw [hf] at he
      cases he
  | cons b bs =>
      have hb : b ∈ s.map.filter (·.timer.isSome) := by simp [hf]
      obtain ⟨hbm, hbs⟩ := List.mem_filter.mp hb
      obtain ⟨u, hu⟩ := Option.isSome_iff_exists.mp hbs
      have hsorted := h.sorted.filter (·.timer.isSome)
      rw [hf] at hsorted
      refine ⟨b.key, ⟨u, (h.entry b hbm u hu).2⟩, fun v x hx => ?_⟩
      obtain ⟨e, he, rfl⟩ := hin v x hx
      rw [hf] at he
      rcases List.mem_cons.mp he with rfl | he
      · exact le_rfl
      · exact (List.pairwise_cons.mp hsorted).1 e he

omit [DecidableEq τ] in
theorem Rep.remove (h : s.Shows live) {b : Entry τ} (hb : b ∈ s.map) (hbt : b.timer = none) :
    (remove s b.node).Shows live := by
  refine Rep.erase (s := { s with canceledRemoved := s.canceledRemoved + 1 }) h ?_
  intro e he hen
  rw [h.eq_of_node he hb hen]
  exact hbt

/-- A call that goes through, logs a round of calls at `now`, and leaves the
timers represented that this round leaves running. -/
def Fired (s : State τ) (live : Live τ) (now : TimePoint) (r : Result τ) : Prop :=
  ∃ s' new live', r = .ok s' ∧ Fires s.callBacks now live new live' ∧
    s'.events = s.events ++ new ∧ s'.Shows live' ∧ s'.lastTimePoint = now ∧
    s'.callBacks = s.callBacks

theorem Rep.fired_done {now : TimePoint} (h : s.Shows live) (hlast : s.lastTimePoint = now)
    (hnone : ∀ t, live t ≠ some now) : Fired s live now (.ok s) :=
  ⟨s, [], live, rfl, .done hnone, by simp, h, hlast, rfl⟩

theorem Rep.fired_expire {b : Entry τ} (h : s.Shows live) (hb : b ∈ s.map)
    (hbt : b.timer = some t) (rest : State τ → Result τ)
    (hrest : ∀ s1 live1, s1.Shows live1 → s1.map.length < s.map.length →
      s1.lastTimePoint = b.key → (∀ u x, live1 u = some x → live u = some x) →
      Fired s1 live1 b.key (rest s1)) :
    Fired s live b.key ((Multimap.expire s t b.key).bind fun s' =>
      rest (Multimap.erase s' b.node)) := by
  obtain ⟨s1, hs1, hcb1, hlast1, hnodes1, he1, h1⟩ := h.expire hb hbt
  have hlen : (Multimap.erase s1 b.node).map.length < s.map.length := by
    have hlt := length_erase (s := s1) (b := b)
      (by rw [hnodes1]; exact List.mem_map.mpr ⟨b, hb, rfl⟩)
    have hsame := congrArg List.length hnodes1
    simp only [List.length_map] at hsame
    omega
  obtain ⟨s', new, live', hs', hfire, he, h', hlast', hcb'⟩ :=
    hrest _ _ h1 hlen hlast1 fun u x hx => (live_of_callBack hx).2
  have hcb : (Multimap.erase s1 b.node).callBacks = s.callBacks := hcb1
  rw [hcb] at hfire
  refine ⟨s', _, live', by rw [hs1]; exact hs', .fire (h.entry b hb t hbt).2 hfire, ?_, h', hlast',
    hcb'.trans hcb⟩
  rw [he]
  show s1.events ++ new = _
  rw [he1]
  simp

/-- The second loop calls back what is left at `now`. -/
theorem expireRest_fired (k : Nat) {now : TimePoint} (h : s.Shows live) (hk : s.map.length ≤ k)
    (hlast : s.lastTimePoint = now) (hle : ∀ t x, live t = some x → now ≤ x) :
    Fired s live now (expireRest now k s) := by
  induction k generalizing s live with
  | zero =>
      have hnone := h.not_live_of_nil (List.length_eq_zero_iff.mp (Nat.le_zero.mp hk))
      exact h.fired_done hlast fun t => by simp [hnone t]
  | succ k ih =>
      simp only [expireRest]
      cases hmap : s.map with
      | nil =>
          have hnone := h.not_live_of_nil hmap
          exact h.fired_done hlast fun t => by simp [hnone t]
      | cons b bs =>
          have hb : b ∈ s.map := by simp [hmap]
          dsimp only
          cases hbt : b.timer with
          | none =>
              have hlt := length_erase (List.mem_map.mpr ⟨b, hb, rfl⟩)
              exact ih (s := remove s b.node) (h.remove hb hbt) (Nat.le_of_lt_succ (lt_of_lt_of_le hlt hk))
                hlast hle
          | some t =>
              have hl := (h.entry b hb t hbt).2
              have hp := (h.point t b.key hl).2
              dsimp only
              split_ifs with hlt hne
              · exact absurd (hp ▸ hlt) (not_lt.mpr (hle t b.key hl))
              · refine h.fired_done hlast fun u hu => hne ?_
                rw [hp]
                exact le_antisymm (h.head_le hmap u now hu) (hle t b.key hl)
              · have hnow : now = b.key := (not_not.mp hne).symm.trans hp
                subst hnow
                refine h.fired_expire hb hbt (expireRest _ k) fun s1 live1 h1 hlen hlast1 hless => ?_
                exact ih h1 (by omega) hlast1 fun u x hx => hle u x (hless u x hx)

/-- A call of `expire_next` is one round of calls at the least expiration point. -/
theorem expireNext_fired {now : TimePoint} (h : s.Shows live) (hleast : Least live now) :
    Fired s live now (expireNext s) := by
  obtain ⟨⟨t0, ht0⟩, hle⟩ := hleast
  suffices hloop : ∀ k, s.map.length ≤ k → Fired s live now ((expireFirst k s).bind
      fun p => expireRest p.2 p.1.map.length p.1) from hloop _ le_rfl
  intro k hk
  induction k generalizing s with
  | zero =>
      rw [h.not_live_of_nil (List.length_eq_zero_iff.mp (Nat.le_zero.mp hk)) t0] at ht0
      cases ht0
  | succ k ih =>
      simp only [expireFirst]
      cases hmap : s.map with
      | nil =>
          rw [h.not_live_of_nil hmap t0] at ht0
          cases ht0
      | cons b bs =>
          have hb : b ∈ s.map := by simp [hmap]
          dsimp only
          cases hbt : b.timer with
          | none =>
              have hlt := length_erase (List.mem_map.mpr ⟨b, hb, rfl⟩)
              exact ih (s := remove s b.node) (h.remove hb hbt) (Nat.le_of_lt_succ (lt_of_lt_of_le hlt hk))
          | some t =>
              have hl := (h.entry b hb t hbt).2
              have hnow : now = b.key := le_antisymm (hle t b.key hl) (h.head_le hmap t0 now ht0)
              subst hnow
              have hrest : (((Multimap.expire s t b.key).map fun s' =>
                  (Multimap.erase s' b.node, (s.timer t).expirationPoint)).bind
                    fun p => expireRest p.2 p.1.map.length p.1) =
                  (Multimap.expire s t b.key).bind fun s' => (fun s1 : State τ =>
                    expireRest b.key s1.map.length s1) (Multimap.erase s' b.node) := by
                rw [(h.point t b.key hl).2]
                cases Multimap.expire s t b.key <;> rfl
              dsimp only
              rw [hrest]
              refine h.fired_expire hb hbt (fun s1 => expireRest b.key s1.map.length s1)
                fun s1 live1 h1 _ hlast1 hless => ?_
              exact expireRest_fired _ h1 le_rfl hlast1 fun u x hx => hle u x (hless u x hx)

end Rep

end Timers.Multimap
