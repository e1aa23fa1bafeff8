import TaskSuite.PriorityQueue
import TaskSuite.TimerSpec

/-! Implementation 1 of `timer_test.cxx`: `TimerImpl<1>` objects on a
`std::priority_queue`, of which only the specification is used. Cancelling is
recorded in the timer object; the queue drops the entry when it comes up. -/
namespace Timers.Heap
open Machine

/-- `TimerImpl<1>`. A callback is given by the timers that it stops. -/
structure Timer (τ : Type) where
  handle : Option τ
  expirationPoint : TimePoint
  callBack : List τ
  canceled : Bool

variable {τ : Type} [DecidableEq τ] (Q : PriorityQueue TimePoint τ)

/-- The queue and the timer objects, with `last_time_point` and the log. -/
structure State where
  queue : Q.Rep
  timer : τ → Timer τ
  lastTimePoint : TimePoint
  events : List (Event τ)

/-- A call ends in a new state, or in the state in which an assert failed. -/
abbrev Result := Except (State Q) (State Q)

variable {Q}

def initial : State Q where
  queue := Q.empty
  timer _ := ⟨none, 0, [], false⟩
  lastTimePoint := 0
  events := []

/-- `TimerImpl<1>::start`. The push comes before `m_canceled_1` is cleared, so
an entry that an earlier start left behind counts as live again. -/
def start (s : State Q) (t : τ) (interval : Int) (callBack : List τ) (now : TimePoint) :
    Result Q :=
  if (s.timer t).handle.isSome then .error s
  else .ok { s with
    queue := Q.push s.queue (now + interval, t)
    timer := Function.update s.timer t ⟨some t, now + interval, callBack, false⟩
    events := s.events ++ [.started t (now + interval)] }

def cancel (s : State Q) (t : τ) : State Q :=
  { s with
    timer := Function.update s.timer t { s.timer t with canceled := true, handle := none }
    events := s.events ++ [.stopped t] }

/-- `TimerImpl<1>::stop`; `is_current` looks at the top of the queue first. -/
def stop (s : State Q) (t : τ) : Result Q :=
  if (s.timer t).handle.isSome then
    if (Q.top s.queue).isNone ∨ (s.timer t).canceled then .error s else .ok (cancel s t)
  else .ok s

def stopAll (s : State Q) : List τ → Result Q
  | [] => .ok s
  | u :: us => (stop s u).bind fun s' => stopAll s' us

def setNotRunning (s : State Q) (t : τ) : State Q :=
  { s with timer := Function.update s.timer t { s.timer t with handle := none } }

/-- `TimerImpl<1>::expire`, called while the entry with the given key is on top. -/
def expire (s : State Q) (t : τ) (key : TimePoint) : Result Q :=
  if (s.timer t).handle = none ∨ (s.timer t).canceled then .error s
  else if s.lastTimePoint ≠ (s.timer t).expirationPoint then .error (setNotRunning s t)
  else stopAll { setNotRunning s t with events := s.events ++ [.called t key] }
    (s.timer t).callBack

def pop (s : State Q) : State Q := { s with queue := Q.pop s.queue }

/-- The do-while loop of `expire_next`, and the value of `now` it leaves. The
fuel is the number of entries, so at zero the queue is empty. -/
def expireFirst : Nat → State Q → Except (State Q) (State Q × TimePoint)
  | 0, s => .error s
  | n + 1, s =>
      match Q.top s.queue with
      | none => .error s
      | some (key, t) =>
          if (s.timer t).canceled then expireFirst n (pop s)
          else (expire s t key).bind fun s' =>
            if (s'.timer t).canceled then expireFirst n (pop s')
            else .ok (pop s', (s.timer t).expirationPoint)

/-- The loop over the timers that expire at `now` too. -/
def expireRest (now : TimePoint) : Nat → State Q → Result Q
  | 0, s => .ok s
  | n + 1, s =>
      match Q.top s.queue with
      | none => .ok s
      | some (key, t) =>
          if (s.timer t).canceled then expireRest now n (pop s)
          else if (s.timer t).expirationPoint < now then .error s
          else if (s.timer t).expirationPoint ≠ now then .ok s
          else (expire s t key).bind fun s' => expireRest now n (pop s')

def expireNext (s : State Q) : Result Q :=
  (expireFirst (Q.size s.queue) s).bind fun p => expireRest p.2 (Q.size p.1.queue) p.1

/-! ### The entries that stand for running timers -/

/-- The entries `q` represent the running timers: one entry for each of them,
and all other entries belong to cancelled timers. -/
structure Rep (q : Multiset (TimePoint × τ)) (timer : τ → Timer τ) (live : Live τ) : Prop where
  handle : ∀ t, (timer t).handle = none ↔ live t = none
  point : ∀ t x, live t = some x →
    (timer t).expirationPoint = x ∧ (timer t).canceled = false ∧ (x, t) ∈ q
  entry : ∀ k t, (k, t) ∈ q → live t = some k ∨ live t = none ∧ (timer t).canceled = true
  nodup : (q.map Prod.snd).Nodup

def State.callBacks (s : State Q) : τ → List τ := fun t => (s.timer t).callBack

/-- What the calls made by a callback leave alone. -/
def Frame (s s' : State Q) : Prop :=
  s'.queue = s.queue ∧ s'.lastTimePoint = s.lastTimePoint ∧ s'.callBacks = s.callBacks

omit [DecidableEq τ] in
theorem Frame.refl (s : State Q) : Frame s s := ⟨rfl, rfl, rfl⟩

omit [DecidableEq τ] in
theorem Frame.trans {s t u : State Q} (h : Frame s t) (k : Frame t u) : Frame s u :=
  ⟨k.1.trans h.1, k.2.1.trans h.2.1, k.2.2.trans h.2.2⟩

omit [DecidableEq τ] in
theorem rep_initial : Rep (Q.contents (initial : State Q).queue) (initial : State Q).timer
    Live.none where
  handle t := by simp [initial, Live.none]
  point t x h := by cases h
  entry k t h := by
    rw [initial, Q.contents_empty] at h
    exact absurd h (Multiset.notMem_zero _)
  nodup := by
    rw [initial, Q.contents_empty]
    exact Multiset.nodup_zero

section Rep
variable {q : Multiset (TimePoint × τ)} {s : State Q} {live : Live τ}

omit [DecidableEq τ] in
theorem Rep.drop {k : TimePoint} {t : τ} {timer : τ → Timer τ} (h : Rep ((k, t) ::ₘ q) timer live)
    (hc : (timer t).canceled = true) : Rep q timer live where
  handle := h.handle
  point u x hu := by
    obtain ⟨hp, hn, hm⟩ := h.point u x hu
    refine ⟨hp, hn, ?_⟩
    rcases Multiset.mem_cons.mp hm with he | hm
    · obtain ⟨-, rfl⟩ := Prod.mk.inj he
      rw [hc] at hn
      cases hn
    · exact hm
  entry k' u hu := h.entry k' u (Multiset.mem_cons_of_mem hu)
  nodup := by
    have hnd := h.nodup
    rw [Multiset.map_cons] at hnd
    exact (Multiset.nodup_cons.mp hnd).2

omit [DecidableEq τ] in
theorem Rep.live_of_mem {k : TimePoint} {t : τ} {timer : τ → Timer τ} (h : Rep q timer live)
    (hm : (k, t) ∈ q) (hc : (timer t).canceled = false) : live t = some k := by
  rcases h.entry k t hm with hl | ⟨-, hcan⟩
  · exact hl
  · rw [hc] at hcan
    cases hcan

theorem Rep.cancel (h : Rep q s.timer live) (u : τ) :
    Rep q (cancel s u).timer (Function.update live u none) where
  handle t := by
    by_cases htu : t = u
    · subst htu; simp [Heap.cancel]
    · simpa [Heap.cancel, htu] using h.handle t
  point t x hx := by
    by_cases htu : t = u
    · subst htu; simp at hx
    · rw [Function.update_of_ne htu] at hx
      simpa [Heap.cancel, htu] using h.point t x hx
  entry k t hm := by
    by_cases htu : t = u
    · subst htu
      exact .inr (by simp [Heap.cancel])
    · simpa [Heap.cancel, htu] using h.entry k t hm
  nodup := h.nodup

theorem frame_cancel (s : State Q) (u : τ) : Frame s (cancel s u) := by
  refine ⟨rfl, rfl, ?_⟩
  funext t
  by_cases htu : t = u
  · subst htu; simp [State.callBacks, cancel]
  · simp [State.callBacks, cancel, htu]

/-- Under the invariant stop() does what it is for, and its asserts hold. -/
theorem Rep.stop (h : Rep q s.timer live) (hq : q ⊆ Q.contents s.queue) (u : τ) :
    ∃ s', stop s u = .ok s' ∧ Frame s s' ∧ s'.events = s.events ++ stops live [u] ∧
      Rep q s'.timer (live.stopAll [u]) ∧ ∀ t, live t = none → s'.timer t = s.timer t := by
  by_cases hu : live u = none
  · have hnone := (h.handle u).mpr hu
    refine ⟨s, by simp [Heap.stop, hnone], .refl s, by simp [stops, hu], ?_, fun _ _ => rfl⟩
    rw [stopAll_cons_of_none hu, stopAll_nil]
    exact h
  · obtain ⟨x, hx⟩ := Option.ne_none_iff_exists'.mp hu
    obtain ⟨-, hc, hm⟩ := h.point u x hx
    have hsome : (s.timer u).handle.isSome = true := by
      rw [Option.isSome_iff_ne_none, ne_eq, h.handle u]
      exact hu
    have htop : (Q.top s.queue).isNone = false := by
      rw [Option.isNone_eq_false_iff, Option.isSome_iff_ne_none, ne_eq, Q.top_eq_none]
      intro h0
      have hin := hq hm
      rw [h0] at hin
      exact Multiset.notMem_zero _ hin
    refine ⟨Heap.cancel s u, by simp [Heap.stop, hsome, htop, hc], frame_cancel s u, ?_, ?_, ?_⟩
    · simp [Heap.cancel, stops, hu]
    · rw [stopAll_cons, stopAll_nil]
      exact h.cancel u
    · intro t ht
      have htu : t ≠ u := by
        rintro rfl
        exact hu ht
      simp [Heap.cancel, htu]

theorem Rep.stopAll (h : Rep q s.timer live) (hq : q ⊆ Q.contents s.queue) (us : List τ) :
    ∃ s', stopAll s us = .ok s' ∧ Frame s s' ∧ s'.events = s.events ++ stops live us ∧
      Rep q s'.timer (live.stopAll us) ∧ ∀ t, live t = none → s'.timer t = s.timer t := by
  induction us generalizing s live with
  | nil => exact ⟨s, rfl, .refl s, by simp [stops], by rwa [stopAll_nil], fun _ _ => rfl⟩
  | cons u us ih =>
      obtain ⟨s1, hs1, hf1, he1, h1, ht1⟩ := h.stop hq u
      obtain ⟨s2, hs2, hf2, he2, h2, ht2⟩ := ih h1 (by rw [hf1.1]; exact hq)
      refine ⟨s2, by rw [Heap.stopAll, hs1]; exact hs2, hf1.trans hf2, ?_, ?_, ?_⟩
      · rw [he2, he1, List.append_assoc, ← stops_cons]
      · rw [← stopAll_singleton_stopAll]
        exact h2
      · intro t ht
        rw [ht2 t (by simp [Live.stopAll, ht]), ht1 t ht]

/-- A running timer whose entry is in flight: marked as not running, it is
represented by the other entries. -/
theorem Rep.setNotRunning {k : TimePoint} {t : τ} (h : Rep ((k, t) ::ₘ q) s.timer live) :
    Rep q (setNotRunning s t).timer (Function.update live t none) := by
  have hnd := h.nodup
  rw [Multiset.map_cons, Multiset.nodup_cons] at hnd
  have hother : ∀ k' u, (k', u) ∈ q → u ≠ t := by
    rintro k' u hm rfl
    exact hnd.1 (Multiset.mem_map.mpr ⟨(k', u), hm, rfl⟩)
  refine ⟨?_, ?_, ?_, hnd.2⟩
  · intro u
    by_cases hut : u = t
    · subst hut; simp [Heap.setNotRunning]
    · simpa [Heap.setNotRunning, hut] using h.handle u
  · intro u x hx
    by_cases hut : u = t
    · subst hut; simp at hx
    · rw [Function.update_of_ne hut] at hx
      obtain ⟨hp, hc, hm⟩ := h.point u x hx
      refine ⟨by simpa [Heap.setNotRunning, hut] using hp,
        by simpa [Heap.setNotRunning, hut] using hc, ?_⟩
      rcases Multiset.mem_cons.mp hm with he | hm
      · exact absurd (Prod.mk.inj he).2 hut
      · exact hm
  · intro k' u hm
    have hut := hother k' u hm
    simpa [Heap.setNotRunning, hut] using h.entry k' u (Multiset.mem_cons_of_mem hm)

theorem frame_setNotRunning (s : State Q) (u : τ) : Frame s (setNotRunning s u) := by
  refine ⟨rfl, rfl, ?_⟩
  funext t
  by_cases htu : t = u
  · subst htu; simp [State.callBacks, setNotRunning]
  · simp [State.callBacks, setNotRunning, htu]

theorem Rep.expire {k : TimePoint} {t : τ} (h : Rep (Q.contents s.queue) s.timer live)
    (htop : Q.top s.queue = some (k, t)) (hl : live t = some k) (hlast : s.lastTimePoint = k) :
    ∃ s', expire s t k = .ok s' ∧ Frame s s' ∧
      s'.events = s.events ++
        .called t k :: stops (Function.update live t none) (s.callBacks t) ∧
      Rep (Q.contents (Q.pop s.queue)) s'.timer
        (Live.stopAll (Function.update live t none) (s.callBacks t)) ∧
      (s'.timer t).canceled = false := by
  obtain ⟨hp, hc, -⟩ := h.point t k hl
  have hrun : (s.timer t).handle ≠ none := by
    rw [ne_eq, h.handle t, hl]
    exact Option.some_ne_none k
  have hrep : Rep (Q.contents (Q.pop s.queue)) (Heap.setNotRunning s t).timer
      (Function.update live t none) :=
    Rep.setNotRunning (by rw [← Q.contents_pop s.queue (k, t) htop]; exact h)
  have hsub : Q.contents (Q.pop s.queue) ⊆ Q.contents s.queue := by
    rw [Q.contents_pop s.queue (k, t) htop]
    exact Multiset.subset_cons _ _
  obtain ⟨s', hs', hf, he, hrep', hsame⟩ := Rep.stopAll
    (s := { Heap.setNotRunning s t with events := s.events ++ [.called t k] }) hrep hsub
    (s.callBacks t)
  refine ⟨s', ?_, ?_, ?_, hrep', ?_⟩
  · rw [Heap.expire, if_neg (by simp [hrun, hc]), if_neg (by rw [hlast, hp]; exact not_not.mpr rfl)]
    exact hs'
  · exact (frame_setNotRunning s t).trans ⟨hf.1, hf.2.1, hf.2.2⟩
  · rw [he]
    simp
  · rw [hsame t (Function.update_self ..)]
    simpa [Heap.setNotRunning] using hc

omit [DecidableEq τ] in
theorem Rep.top_le {k : TimePoint} {t : τ} (h : Rep (Q.contents s.queue) s.timer live)
    (htop : Q.top s.queue = some (k, t)) : ∀ u x, live u = some x → k ≤ x := by
  intro u x hx
  exact Q.top_le s.queue (k, t) htop (x, u) (h.point u x hx).2.2

omit [DecidableEq τ] in
theorem Rep.pop_canceled {k : TimePoint} {t : τ} (h : Rep (Q.contents s.queue) s.timer live)
    (htop : Q.top s.queue = some (k, t)) (hc : (s.timer t).canceled = true) :
    Rep (Q.contents (pop s).queue) (pop s).timer live := by
  rw [Q.contents_pop s.queue (k, t) htop] at h
  exact h.drop hc

omit [DecidableEq τ] in
theorem Rep.not_live_of_top_none (h : Rep (Q.contents s.queue) s.timer live)
    (htop : Q.top s.queue = none) (t : τ) : live t = none := by
  by_contra hne
  obtain ⟨x, hx⟩ := Option.ne_none_iff_exists'.mp hne
  have hm := (h.point t x hx).2.2
  rw [(Q.top_eq_none s.queue).mp htop] at hm
  exact Multiset.notMem_zero _ hm

/-- A call that goes through, logs a round of calls at `now`, and leaves the
timers represented that this round leaves running. -/
def Fired (s : State Q) (live : Live τ) (now : TimePoint) (r : Result Q) : Prop :=
  ∃ s' new live', r = .ok s' ∧ Fires s.callBacks now live new live' ∧
    s'.events = s.events ++ new ∧ Rep (Q.contents s'.queue) s'.timer live' ∧
    Q.contents s'.queue ≤ Q.contents s.queue ∧ s'.callBacks = s.callBacks

theorem Fired.of_pop {now : TimePoint} {d : TimePoint × τ} {r : Result Q}
    (htop : Q.top s.queue = some d) (h : Fired (pop s) live now r) : Fired s live now r := by
  obtain ⟨s', new, live', hr, hfire, he, hrep, hle, hcb⟩ := h
  refine ⟨s', new, live', hr, hfire, he, hrep, hle.trans ?_, hcb⟩
  rw [Q.contents_pop s.queue d htop]
  exact Multiset.le_cons_self _ _

theorem Rep.fired_done {now : TimePoint} (h : Rep (Q.contents s.queue) s.timer live)
    (hnone : ∀ t, live t ≠ some now) : Fired s live now (.ok s) :=
  ⟨s, [], live, rfl, .done hnone, by simp, h, le_rfl, rfl⟩

theorem Rep.fired_expire {now : TimePoint} {t : τ} (h : Rep (Q.contents s.queue) s.timer live)
    (htop : Q.top s.queue = some (now, t)) (hl : live t = some now)
    (hlast : s.lastTimePoint = now) (rest : State Q → Result Q)
    (hrest : ∀ s1 live1, Rep (Q.contents s1.queue) s1.timer live1 → s1.queue = Q.pop s.queue →
      s1.lastTimePoint = now → (∀ u x, live1 u = some x → live u = some x) →
      (s1.timer t).canceled = false → Fired s1 live1 now (rest s1)) :
    Fired s live now ((Heap.expire s t now).bind fun s' => rest (pop s')) := by
  obtain ⟨s1, hs1, hf1, he1, hrep1, hc1⟩ := h.expire htop hl hlast
  have hq : (pop s1).queue = Q.pop s.queue := by
    show Q.pop s1.queue = _
    rw [hf1.1]
  obtain ⟨s', new, live', hs', hfire, he, hrep, hle, hcb'⟩ :=
    hrest (pop s1) _ (by rw [hq]; exact hrep1) hq (hf1.2.1.trans hlast)
      (fun u x hx => (live_of_callBack hx).2) hc1
  have hcb : (pop s1).callBacks = s.callBacks := hf1.2.2
  rw [hcb] at hfire
  refine ⟨s', _, live', by rw [hs1]; exact hs', .fire hl hfire, ?_, hrep, ?_, hcb'.trans hcb⟩
  · rw [he]
    show s1.events ++ new = _
    rw [he1]
    simp
  · rw [Q.contents_pop s.queue (now, t) htop]
    rw [hq] at hle
    exact hle.trans (Multiset.le_cons_self _ _)

/-- The second loop calls back what is left at `now`. -/
theorem expireRest_fired (n : Nat) {now : TimePoint}
    (h : Rep (Q.contents s.queue) s.timer live) (hn : Q.size s.queue ≤ n)
    (hlast : s.lastTimePoint = now) (hle : ∀ t x, live t = some x → now ≤ x) :
    Fired s live now (expireRest now n s) := by
  induction n generalizing s live with
  | zero =>
      have hnone := h.not_live_of_top_none (PriorityQueue.top_eq_none_of_size (by omega))
      exact h.fired_done fun t => by simp [hnone t]
  | succ n ih =>
      simp only [expireRest]
      cases htop : Q.top s.queue with
      | none =>
          have hnone := h.not_live_of_top_none htop
          exact h.fired_done fun t => by simp [hnone t]
      | some d =>
          obtain ⟨k, t⟩ := d
          have hsize : Q.size (Q.pop s.queue) ≤ n := by
            have := PriorityQueue.size_pop htop
            omega
          dsimp only
          split_ifs with hc hlt hne
          · exact .of_pop htop (ih (h.pop_canceled htop hc) hsize hlast hle)
          all_goals
            have hl := h.live_of_mem (PriorityQueue.top_mem htop) (by simpa using hc)
            obtain ⟨hp, -, -⟩ := h.point t k hl
            rw [hp] at hlt
          · exact absurd hlt (not_lt.mpr (hle t k hl))
          · rw [hp] at hne
            exact h.fired_done fun u hu => hne (le_antisymm (h.top_le htop u now hu) (hle t k hl))
          · rw [not_not.mp hne] at hp
            subst hp
            refine h.fired_expire htop hl hlast (expireRest _ n) fun s1 live1 h1 hq1 hlast1 hless _ => ?_
            exact ih h1 (by rw [hq1]; exact hsize) hlast1 fun u x hx => hle u x (hless u x hx)

/-- A call of `expire_next` is one round of calls at the least expiration
point, provided that the cross-check with implementation 0 expects that point. -/
theorem expireNext_fired {now : TimePoint} (h : Rep (Q.contents s.queue) s.timer live)
    (hleast : Least live now) (hlast : s.lastTimePoint = now) :
    Fired s live now (expireNext s) := by
  obtain ⟨⟨t0, ht0⟩, hle⟩ := hleast
  suffices hloop : ∀ n, Q.size s.queue ≤ n → Fired s live now ((expireFirst n s).bind
      fun p => expireRest p.2 (Q.size p.1.queue) p.1) from hloop _ le_rfl
  intro n hn
  induction n generalizing s with
  | zero =>
      have hnone := h.not_live_of_top_none (PriorityQueue.top_eq_none_of_size (by omega)) t0
      rw [hnone] at ht0
      cases ht0
  | succ n ih =>
      simp only [expireFirst]
      cases htop : Q.top s.queue with
      | none =>
          rw [h.not_live_of_top_none htop t0] at ht0
          cases ht0
      | some d =>
          obtain ⟨k, t⟩ := d
          have hsize : Q.size (Q.pop s.queue) ≤ n := by
            have := PriorityQueue.size_pop htop
            omega
          dsimp only
          split_ifs with hc
          · exact .of_pop htop (ih (h.pop_canceled htop hc) hlast hsize)
          · have hl := h.live_of_mem (PriorityQueue.top_mem htop) (by simpa using hc)
            have hk : k = now := le_antisymm (h.top_le htop t0 now ht0) (hle t k hl)
            subst hk
            obtain ⟨hp, -, -⟩ := h.point t k hl
            -- After the callback the loop ends: a timer cannot cancel itself.
            let rest : State Q → Result Q := fun s1 =>
              if (s1.timer t).canceled then
                (expireFirst n s1).bind fun p => expireRest p.2 (Q.size p.1.queue) p.1
              else expireRest k (Q.size s1.queue) s1
            have hrest : (((Heap.expire s t k).bind fun s' =>
                if (s'.timer t).canceled then expireFirst n (pop s')
                else .ok (pop s', (s.timer t).expirationPoint)).bind
                  fun p => expireRest p.2 (Q.size p.1.queue) p.1) =
                (Heap.expire s t k).bind fun s' => rest (pop s') := by
              cases Heap.expire s t k with
              | error e => rfl
              | ok s' =>
                  by_cases hcan : (s'.timer t).canceled = true <;>
                    simp [Except.bind, rest, pop, hp, hcan]
            rw [hrest]
            refine h.fired_expire htop hl hlast rest fun s1 live1 h1 hq1 hlast1 hless hc1 => ?_
            simp only [rest, hc1]
            exact expireRest_fired _ h1 le_rfl hlast1 fun u x hx => hle u x (hless u x hx)

/-- With any other value of `last_time_point`, or when nothing runs, an assert
fails before a callback is made. -/
theorem expireNext_aborts (h : Rep (Q.contents s.queue) s.timer live)
    (hnot : ¬ Least live s.lastTimePoint) :
    ∃ s', expireNext s = .error s' ∧ s'.events = s.events := by
  suffices hloop : ∀ n, ∃ s', expireFirst n s = .error s' ∧ s'.events = s.events by
    obtain ⟨s', hs', he⟩ := hloop (Q.size s.queue)
    exact ⟨s', by rw [expireNext, hs']; rfl, he⟩
  intro n
  induction n generalizing s with
  | zero => exact ⟨s, rfl, rfl⟩
  | succ n ih =>
      simp only [expireFirst]
      cases htop : Q.top s.queue with
      | none => exact ⟨s, rfl, rfl⟩
      | some d =>
          obtain ⟨k, t⟩ := d
          dsimp only
          split_ifs with hc
          · exact ih (s := pop s) (h.pop_canceled htop hc) hnot
          · have hl := h.live_of_mem (PriorityQueue.top_mem htop) (by simpa using hc)
            have hne : s.lastTimePoint ≠ (s.timer t).expirationPoint := by
              rw [(h.point t k hl).1]
              rintro rfl
              exact hnot ⟨⟨t, hl⟩, h.top_le htop⟩
            have hrun : (s.timer t).handle ≠ none := by
              rw [ne_eq, h.handle t, hl]
              exact Option.some_ne_none k
            refine ⟨setNotRunning s t, ?_, rfl⟩
            rw [Heap.expire, if_neg (by simp [hrun, hc]), if_pos hne]
            rfl

end Rep

/-! ### Whole runs -/

/-- The calls a program can make. `last_time_point` belongs to implementation
0, so the value it has during a call of `expire_next` comes with that call. -/
inductive Act (τ : Type) where
  | start (t : τ) (interval : Int) (callBack : List τ) (now : TimePoint)
  | stop (t : τ)
  | expireNext (lastTimePoint : TimePoint)

structure Program (Q : PriorityQueue TimePoint τ) where
  state : State Q
  aborted : Bool

def Program.initial : Program Q := ⟨Heap.initial, false⟩

def Result.program : Result Q → Program Q
  | .ok s => ⟨s, false⟩
  | .error s => ⟨s, true⟩

def Act.call (a : Act τ) (s : State Q) : Result Q :=
  match a with
  | .start t interval callBack now => Heap.start s t interval callBack now
  | .stop t => Heap.stop s t
  | .expireNext last => Heap.expireNext { s with lastTimePoint := last }

def step (p : Program Q) (a : Act τ) : Option (Program Q) :=
  if p.aborted then none else some (Result.program (a.call p.state))

/-- The expiration points as the timer objects have them. -/
def State.running (s : State Q) : Live τ :=
  fun t => if (s.timer t).handle.isSome then some (s.timer t).expirationPoint else none

/-- Every callback so far belongs to a start that was running until then, at
the key of the entry. The next call of `expire_next` calls back the timers that
expire first, save those that one of its callbacks stops; its asserts hold
exactly if implementation 0 expects that expiration point. -/
def NoStaleExpiry (p : Program Q) : Prop :=
  (run observe Live.none p.state.events).isSome ∧
  (p.aborted = false → run observe Live.none p.state.events = some p.state.running ∧
    ∀ last p', step p (.expireNext last) = some p' →
      (p'.aborted = false ↔ Least p.state.running last) ∧
      ∃ new, p'.state.events = p.state.events ++ new ∧ ∀ t key, .called t key ∈ new ↔
        p'.aborted = false ∧ key = last ∧ p.state.running t = some key ∧ .stopped t ∉ new)

/-- A timer is only started when the queue holds no entry of it any more. -/
def NoEntryLeft (p : Program Q) : Act τ → Prop
  | .start t _ _ _ => t ∉ (Q.contents p.state.queue).map Prod.snd
  | _ => True

instance (p : Program Q) : DecidablePred (NoEntryLeft p)
  | .start t _ _ _ => inferInstanceAs (Decidable (t ∉ (Q.contents p.state.queue).map Prod.snd))
  | .stop _ => inferInstanceAs (Decidable True)
  | .expireNext _ => inferInstanceAs (Decidable True)

/-- The log is legal, and after it the queue represents the running timers. -/
structure Inv (p : Program Q) : Prop where
  legal : (run observe Live.none p.state.events).isSome
  rep : p.aborted = false → run observe Live.none p.state.events = some p.state.running ∧
    Rep (Q.contents p.state.queue) p.state.timer p.state.running

section Run
variable {s s' : State Q} {live live' : Live τ} {new : List (Event τ)} {p p' : Program Q}

omit [DecidableEq τ] in
theorem Rep.eq_running {q : Multiset (TimePoint × τ)} (h : Rep q s.timer live) :
    live = s.running := by
  funext t
  simp only [State.running]
  cases hl : live t with
  | none => rw [(h.handle t).mpr hl]; rfl
  | some x =>
      have hrun : (s.timer t).handle.isSome = true := by
        rw [Option.isSome_iff_ne_none, ne_eq, h.handle t, hl]
        exact Option.some_ne_none x
      rw [hrun, (h.point t x hl).1]
      rfl

theorem inv_initial : Inv (Program.initial : Program Q) where
  legal := rfl
  rep _ := ⟨rfl, rep_initial⟩

theorem Inv.ok (hr : run observe Live.none s.events = some live)
    (hrep : Rep (Q.contents s'.queue) s'.timer live')
    (he : s'.events = s.events ++ new) (hn : run observe live new = some live') :
    Inv (⟨s', false⟩ : Program Q) := by
  have hlog : run observe Live.none s'.events = some s'.running := by
    rw [he, ← hrep.eq_running]
    exact run_append.mpr ⟨live, hr, hn⟩
  refine ⟨?_, fun _ => ⟨hlog, hrep.eq_running ▸ hrep⟩⟩
  rw [hlog]
  rfl

theorem Inv.error (h : (run observe Live.none s.events).isSome) (he : s'.events = s.events) :
    Inv (⟨s', true⟩ : Program Q) := by
  refine ⟨?_, fun hf => by cases hf⟩
  rw [he]
  exact h

/-- A start adds the entry of a timer that had none. -/
theorem Rep.start (h : Rep (Q.contents s.queue) s.timer live) {t : τ} (hl : live t = none)
    (hno : t ∉ (Q.contents s.queue).map Prod.snd) (x : TimePoint) (callBack : List τ) :
    Rep (Q.contents (Q.push s.queue (x, t)))
      (Function.update s.timer t ⟨some t, x, callBack, false⟩)
      (Function.update live t (some x)) := by
  rw [Q.contents_push]
  refine ⟨?_, ?_, ?_, ?_⟩
  · intro u
    by_cases hut : u = t
    · subst hut; simp
    · simpa [hut] using h.handle u
  · intro u y hy
    by_cases hut : u = t
    · subst hut
      rw [Function.update_self] at hy
      cases hy
      simp
    · rw [Function.update_of_ne hut] at hy
      obtain ⟨hp, hc, hm⟩ := h.point u y hy
      rw [Function.update_of_ne hut]
      exact ⟨hp, hc, Multiset.mem_cons_of_mem hm⟩
  · intro k u hm
    by_cases hut : u = t
    · subst hut
      rcases Multiset.mem_cons.mp hm with he | hm
      · simp [(Prod.mk.inj he).1]
      · exact absurd (Multiset.mem_map.mpr ⟨(k, u), hm, rfl⟩) hno
    · rcases Multiset.mem_cons.mp hm with he | hm
      · exact absurd (Prod.mk.inj he).2 hut
      · rw [Function.update_of_ne hut, Function.update_of_ne hut]
        exact h.entry k u hm
  · rw [Multiset.map_cons]
    exact Multiset.nodup_cons.mpr ⟨hno, h.nodup⟩

theorem Inv.start (h : Inv p) (ha : p.aborted = false) {t : τ} {interval : Int} {callBack : List τ}
    {now : TimePoint} (hno : t ∉ (Q.contents p.state.queue).map Prod.snd) :
    Inv (Result.program (Heap.start p.state t interval callBack now)) := by
  obtain ⟨hlog, hrep⟩ := h.rep ha
  unfold Heap.start
  split_ifs with hrun
  · exact Inv.error h.legal rfl
  · have hnone : p.state.running t = none := by
      rw [← hrep.handle t]
      simpa using hrun
    refine Inv.ok hlog (hrep.start hnone hno _ callBack) rfl (run_cons.mpr ⟨_, ?_, rfl⟩)
    simp [observe, hnone]

theorem Inv.stop (h : Inv p) (ha : p.aborted = false) (t : τ) :
    Inv (Result.program (Heap.stop p.state t)) := by
  obtain ⟨hlog, hrep⟩ := h.rep ha
  obtain ⟨s', hs', hf, he, hrep', -⟩ := hrep.stop (Multiset.Subset.refl _) t
  rw [hs']
  exact Inv.ok hlog (by rw [hf.1]; exact hrep') he run_stops

/-- What one call of `expire_next` does to a program that satisfies the invariant. -/
theorem Inv.expireNext (h : Inv p) (ha : p.aborted = false) (last : TimePoint) :
    (¬ Least p.state.running last ∧ ∃ s', s'.events = p.state.events ∧
      Heap.expireNext { p.state with lastTimePoint := last } = .error s') ∨
    (Least p.state.running last ∧ Fired { p.state with lastTimePoint := last } p.state.running last
      (Heap.expireNext { p.state with lastTimePoint := last })) := by
  obtain ⟨-, hrep⟩ := h.rep ha
  have hrep' : Rep (Q.contents ({ p.state with lastTimePoint := last } : State Q).queue)
      ({ p.state with lastTimePoint := last } : State Q).timer p.state.running := hrep
  by_cases hleast : Least p.state.running last
  · exact .inr ⟨hleast, expireNext_fired hrep' hleast rfl⟩
  · obtain ⟨s', hs', he⟩ := expireNext_aborts hrep' hleast
    exact .inl ⟨hleast, s', he, hs'⟩

theorem step_inv (h : Inv p) {a : Act τ} (hg : NoEntryLeft p a) (hs : step p a = some p') :
    Inv p' := by
  unfold step at hs
  split_ifs at hs with ha
  have ha : p.aborted = false := by simpa using ha
  cases Option.some.inj hs
  cases a with
  | start t interval callBack now => exact h.start ha hg
  | stop t => exact h.stop ha t
  | expireNext last =>
      obtain ⟨hlog, -⟩ := h.rep ha
      rcases h.expireNext ha last with ⟨-, s', he, hs'⟩ | ⟨-, s', new, live', hs', hfire, he, hrep, -⟩
      · rw [Act.call, hs']
        exact Inv.error h.legal he
      · rw [Act.call, hs']
        exact Inv.ok hlog hrep he hfire.run_observe

theorem Inv.noStaleExpiry (h : Inv p) : NoStaleExpiry p := by
  refine ⟨h.legal, fun ha => ⟨(h.rep ha).1, fun last p' hs => ?_⟩⟩
  rw [step, if_neg (by simp [ha])] at hs
  cases Option.some.inj hs
  rcases h.expireNext ha last with
    ⟨hnot, s', he, hs'⟩ | ⟨hleast, s', new, live', hs', hfire, he, -⟩
  · rw [Act.call, hs']
    refine ⟨by simp [Result.program, hnot], [], by simpa [Result.program] using he, ?_⟩
    intro t key
    simp [Result.program]
  · rw [Act.call, hs']
    refine ⟨by simp [Result.program, hleast], new, he, ?_⟩
    intro t key
    rw [hfire.mem_called_iff]
    constructor
    · rintro ⟨rfl, hl, hn⟩
      exact ⟨rfl, rfl, hl, hn⟩
    · rintro ⟨-, rfl, hl, hn⟩
      exact ⟨rfl, hl, hn⟩

end Run

/-- As long as no timer is restarted before its old entry is gone, no callback
is stale. -/
theorem no_stale_expiry (acts : List (Act τ)) {p : Program Q}
    (hg : Along step NoEntryLeft (Program.initial : Program Q) acts)
    (hr : run step Program.initial acts = some p) : NoStaleExpiry p :=
  (invariant_along (I := Inv) (fun _ _ _ h hg hs => step_inv h hg hs) inv_initial hg hr).noStaleExpiry

/-- A timer that is restarted once its cancelled entry has been dropped. -/
theorem no_stale_expiry_restart :
    ∃ p, run step (Program.initial : Program (PriorityQueue.sorted TimePoint (Fin 2)))
        [.start 0 10 [] 0, .stop 0, .start 1 15 [] 0, .expireNext 15, .start 0 20 [] 0] = some p ∧
      p.aborted = false ∧ NoStaleExpiry p := by
  obtain ⟨p, hr, ha⟩ : ∃ p, run step
      (Program.initial : Program (PriorityQueue.sorted TimePoint (Fin 2)))
      [.start 0 10 [] 0, .stop 0, .start 1 15 [] 0, .expireNext 15, .start 0 20 [] 0] = some p ∧
      p.aborted = false := ⟨_, rfl, rfl⟩
  refine ⟨p, hr, ha, no_stale_expiry _ ?_ hr⟩
  refine along_of_step (by decide) rfl ?_
  refine along_of_step (by decide) rfl ?_
  refine along_of_step (by decide) rfl ?_
  refine along_of_step (by decide) rfl ?_
  exact along_of_step (by decide) rfl trivial

/-- Restarted while its cancelled entry is still queued, a timer is called back
when that entry comes up, and an assert fails on the other one. -/
theorem stale_expiry_restart :
    ∃ p, run step (Program.initial : Program (PriorityQueue.sorted TimePoint (Fin 2)))
        [.start 0 10 [] 0, .stop 0, .start 0 20 [] 0, .expireNext 20] = some p ∧
      .called 0 10 ∈ p.state.events ∧ p.aborted = true ∧ ¬ NoStaleExpiry p := by
  refine ⟨_, rfl, by decide, rfl, fun h => ?_⟩
  have hlegal := h.1
  revert hlegal
  decide

end Timers.Heap
