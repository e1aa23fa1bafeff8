import TaskSuite.TimerLedger

/-! Runs of implementation 0 against the ledger of the program: which timers a call
of `expire_next` calls back and in which order, and what the handles refer to at
each point of such a call. -/
namespace Timers.Multimap
open Machine
open Tandem (Act calls)

variable {τ : Type}

/-- The handles of the timers in `live` refer to one entry each, which has the
expiration point as key and the timer itself as value; the other timers have none. -/
def State.Refers (s : State τ) (live : Live τ) : Prop :=
  ∀ t, (live t = none → (s.timer t).handle = none) ∧
    ∀ x, live t = some x → ∃ n, (s.timer t).handle = some n ∧ (s.timer t).expirationPoint = x ∧
      s.map.filter (·.node = n) = [⟨x, n, some t⟩]

def State.due (s : State τ) (x : TimePoint) : List τ :=
  s.map.filterMap fun e => if e.key = x then e.timer else none

variable [DecidableEq τ]

/-- The state is the one that the ledger asks for. -/
structure State.Follows (s : State τ) (l : Ledger τ) : Prop where
  shows : s.Shows l.live
  callBacks : s.callBacks = l.callBack
  due : ∀ x, s.due x = l.due x
  calls : calls s.events = l.calls

/-! ### Results of the operations -/

theorem bind_ok_iff {ε β γ : Type} {result : Except ε β} {next : β → Except ε γ} {c : γ} :
    result.bind next = .ok c ↔ ∃ b, result = .ok b ∧ next b = .ok c := by
  cases result with
  | error e => simp [Except.bind]
  | ok b => simp [Except.bind]

theorem map_ok_iff {ε β γ : Type} {result : Except ε β} {change : β → γ} {c : γ} :
    result.map change = .ok c ↔ ∃ b, result = .ok b ∧ change b = c := by
  cases result with
  | error e => simp [Except.map]
  | ok b => simp [Except.map]

theorem setNotRunning_eq {s s' : State τ} {t : τ} (h : setNotRunning s t = .ok s') :
    ∃ n, (s.timer t).handle = some n ∧ s' = { s with
      map := s.map.map (Entry.clear n)
      timer := Function.update s.timer t { s.timer t with handle := none }
      runningTimers := s.runningTimers - 1
      canceledTimers := s.canceledTimers + 1 } := by
  rw [setNotRunning] at h
  split at h
  · cases h
  · next n hn =>
    split at h
    · cases h
    · split_ifs at h
      cases h
      exact ⟨n, hn, rfl⟩

/-! ### The entries that are due -/

section Due
variable {s s' : State τ} {live : Live τ} {t : τ} {x : TimePoint}

omit [DecidableEq τ] in
theorem Rep.mem_due (h : s.Shows live) : t ∈ s.due x ↔ live t = some x := by
  simp only [State.due, List.mem_filterMap, Option.ite_none_right_eq_some]
  constructor
  · rintro ⟨e, he, rfl, het⟩
    exact (h.entry e he t het).2
  · intro hl
    obtain ⟨n, hn⟩ := Option.ne_none_iff_exists'.mp (h.point t x hl).1
    obtain ⟨e, he, -, het⟩ := h.handle t n hn
    have hkey := (h.entry e he t het).2
    rw [hl] at hkey
    exact ⟨e, he, (Option.some.inj hkey).symm, het⟩

omit [DecidableEq τ] in
theorem due_cons {b : Entry τ} {bs : List (Entry τ)} (hmap : s.map = b :: bs)
    (hbt : b.timer = some t) : ∃ rest, s.due b.key = t :: rest := by
  rw [State.due, hmap, List.filterMap_cons_some (b := t) (by simp [hbt])]
  exact ⟨_, rfl⟩

omit [DecidableEq τ] in
theorem due_erase {n : Nat} (hn : ∀ e ∈ s.map, e.node = n → e.timer = none) :
    (erase s n).due x = s.due x := by
  rw [State.due, State.due, erase, List.filterMap_filter]
  refine List.filterMap_congr fun e he => ?_
  by_cases hen : e.node = n <;> simp [hen, hn e he]

theorem Rep.due_setNotRunning (h : s.Shows live) (hset : Multimap.setNotRunning s t = .ok s') :
    s'.due x = (s.due x).filter (· ≠ t) := by
  obtain ⟨n, hn, rfl⟩ := setNotRunning_eq hset
  obtain ⟨d, hd, rfl, hdt⟩ := h.handle t n hn
  rw [State.due, State.due, List.filterMap_map, List.filter_filterMap]
  refine List.filterMap_congr fun e he => ?_
  rw [Function.comp_apply, clear_key]
  by_cases hen : e.node = d.node
  · have hclear : (e.clear d.node).timer = none := by simp [Entry.clear, hen]
    obtain rfl := h.eq_of_node he hd hen
    split_ifs <;> simp [hclear, hdt, Option.filter]
  · have hclear : e.clear d.node = e := if_neg hen
    rw [hclear]
    split_ifs
    · cases het : e.timer with
      | none => rfl
      | some u =>
          have hut : u ≠ t := by
            rintro rfl
            have hhandle := (h.entry e he u het).1
            rw [hn] at hhandle
            exact hen (Option.some.inj hhandle).symm
          simp [Option.filter, hut]
    · rfl

theorem Rep.due_stop (h : s.Shows live) (hs : Multimap.stop s t = .ok s') :
    s'.due x = (s.due x).filter (· ≠ t) := by
  rw [Multimap.stop] at hs
  split_ifs at hs with hrun
  · obtain ⟨s1, hset, rfl⟩ := map_ok_iff.mp hs
    have hdue := h.due_setNotRunning (x := x) hset
    exact hdue
  · cases hs
    refine (List.filter_eq_self.mpr fun u hu => ?_).symm
    have hne : u ≠ t := by
      rintro rfl
      exact hrun (Option.isSome_iff_ne_none.mpr (h.point u x (h.mem_due.mp hu)).1)
    simpa using hne

theorem Rep.due_stopAll {us : List τ} (h : s.Shows live) (hs : Multimap.stopAll s us = .ok s') :
    s'.due x = (s.due x).filter (· ∉ us) := by
  induction us generalizing s live with
  | nil =>
      cases hs
      simp
  | cons u us ih =>
      obtain ⟨s1, hstop, hmore⟩ := bind_ok_iff.mp hs
      obtain ⟨s1', hstop', -, -, h1⟩ := h.stop u
      obtain rfl := Except.ok.inj (hstop.symm.trans hstop')
      rw [ih h1 hmore, h.due_stop hstop, List.filter_filter]
      exact List.filter_congr fun v _ => by simp [Bool.and_comm]

theorem Rep.due_expire {b : Entry τ} (h : s.Shows live) (hb : b ∈ s.map) (hbt : b.timer = some t)
    (hs : Multimap.expire s t b.key = .ok s') :
    (Multimap.erase s' b.node).due x = (s.due x).filter (· ∉ t :: s.callBacks t) := by
  obtain ⟨s'', hs'', -, -, -, -, -, hentry⟩ := h.expire_shows hb hbt
  obtain rfl := Except.ok.inj (hs.symm.trans hs'')
  have hl : live t ≠ none := by
    rw [(h.entry b hb t hbt).2]
    exact nofun
  obtain ⟨s1, hset, hcall⟩ := bind_ok_iff.mp hs
  obtain ⟨s2, hstop, rfl⟩ := map_ok_iff.mp hcall
  obtain ⟨s1', hset', hframe, -, -, h1⟩ := h.setNotRunning hl
  obtain rfl := Except.ok.inj (hset.symm.trans hset')
  have hcallBack : (s1.timer t).callBack = s.callBacks t := congrFun hframe.callBacks t
  have hdue := Rep.due_stopAll (x := x) (s := { s1 with
    lastTimePoint := (s1.timer t).expirationPoint
    events := s1.events ++ [.called t b.key] }) h1 hstop
  have hsame : State.due { s2 with expiredTimers := s2.expiredTimers + 1 } x =
      (s1.due x).filter (· ∉ (s1.timer t).callBack) := hdue
  rw [due_erase hentry, hsame, hcallBack, h.due_setNotRunning hset, List.filter_filter]
  exact List.filter_congr fun u _ => by simp [Bool.and_comm]

omit [DecidableEq τ] in
/-- A new entry is behind the ones with an equal key. -/
theorem filterMap_emplace {m : List (Entry τ)} {e : Entry τ}
    (h : m.Pairwise fun d e => d.key ≤ e.key) (het : e.timer = some t) :
    ((emplace e m).filterMap fun d => if d.key = x then d.timer else none) =
      (m.filterMap fun d => if d.key = x then d.timer else none) ++ if e.key = x then [t] else [] := by
  have hnil : ([e].filterMap fun d => if d.key = x then d.timer else none) =
      if e.key = x then [t] else [] := by
    by_cases hx : e.key = x <;> simp [hx, het]
  induction m with
  | nil => exact hnil
  | cons d m ih =>
      obtain ⟨hd, hm⟩ := List.pairwise_cons.mp h
      rw [emplace]
      split_ifs with hlt hx hx
      · subst hx
        have hnone : ((d :: m).filterMap fun d => if d.key = e.key then d.timer else none) = [] := by
          refine List.filterMap_eq_nil_iff.mpr fun c hc => if_neg ?_
          rcases List.mem_cons.mp hc with rfl | hc
          · exact (ne_of_lt hlt).symm
          · exact (ne_of_lt (lt_of_lt_of_le hlt (hd c hc))).symm
        rw [← List.singleton_append, List.filterMap_append, hnone, hnil, if_pos rfl]
        rfl
      · rw [← List.singleton_append, List.filterMap_append, hnil, if_neg hx, List.append_nil,
          List.nil_append]
      · rw [← List.singleton_append, List.filterMap_append, ih hm, if_pos hx, ← List.append_assoc,
          ← List.filterMap_append, List.singleton_append]
      · rw [← List.singleton_append, List.filterMap_append, ih hm, if_neg hx, ← List.append_assoc,
          ← List.filterMap_append, List.singleton_append]

end Due

/-! ### The two loops -/

section Rules
variable {s s' : State τ}
variable {P : State τ → Prop} (hremove : ∀ u b bs, P u → u.map = b :: bs → b.timer = none →
  P (remove u b.node))
include hremove

/-- The first loop drops entries and then expires the timer of one. -/
theorem expireFirst_rule (k : Nat) {now : TimePoint} (h : P s)
    (hfirst : expireFirst k s = .ok (s', now)) :
    ∃ u b bs t u', P u ∧ u.map = b :: bs ∧ b.timer = some t ∧ expire u t b.key = .ok u' ∧
      s' = erase u' b.node ∧ now = (u.timer t).expirationPoint := by
  induction k generalizing s with
  | zero => cases hfirst
  | succ k ih =>
      rw [expireFirst] at hfirst
      split at hfirst
      · cases hfirst
      · next b bs hmap =>
        split at hfirst
        · next hbt => exact ih (hremove s b bs h hmap hbt) hfirst
        · next t hbt =>
          obtain ⟨u', hexpire, heq⟩ := map_ok_iff.mp hfirst
          obtain ⟨rfl, rfl⟩ := Prod.mk.inj heq
          exact ⟨s, b, bs, t, u', h, hmap, hbt, hexpire, rfl, rfl⟩

/-- Every turn of the second loop drops an entry or expires the timer of one. -/
theorem expireRest_rule {now : TimePoint} (hturn : ∀ u b bs t u', P u → u.map = b :: bs →
    b.timer = some t → (u.timer t).expirationPoint = now → expire u t b.key = .ok u' →
      P (erase u' b.node)) (k : Nat) (h : P s) (hrest : expireRest now k s = .ok s') : P s' := by
  induction k generalizing s with
  | zero =>
      cases hrest
      exact h
  | succ k ih =>
      rw [expireRest] at hrest
      split at hrest
      · cases hrest
        exact h
      · next b bs hmap =>
        split at hrest
        · next hbt => exact ih (hremove s b bs h hmap hbt) hrest
        · next t hbt =>
          split_ifs at hrest with hlt hne
          · cases hrest
            exact h
          · obtain ⟨u', hexpire, hrest⟩ := bind_ok_iff.mp hrest
            exact ih (hturn s b bs t u' h hmap hbt (not_not.mp hne) hexpire) hrest

end Rules

/-! ### What the operations do to the ledger -/

section Follows
variable {s s' : State τ} {l : Ledger τ} {t : τ} {now : TimePoint}

theorem follows_initial : (initial : State τ).Follows Ledger.empty :=
  ⟨rep_initial, rfl, fun _ => rfl, rfl⟩

omit [DecidableEq τ] in
theorem calls_append (events new : List (Event τ)) : calls (events ++ new) = calls events ++ calls new :=
  List.filterMap_append

theorem calls_stops (live : Live τ) (us : List τ) : calls (stops live us) = [] := by
  refine List.filterMap_eq_nil_iff.mpr fun e he => ?_
  obtain ⟨u, -, -, rfl⟩ := mem_stops.mp he
  rfl

theorem State.Follows.start (h : s.Follows l) (hnew : t ∉ l.running.map Prod.fst) (interval : Int)
    (callBack : List τ) (now : TimePoint) : ∃ s', start s t interval callBack now = .ok s' ∧
      s'.Follows (l.start t (now + interval) callBack hnew) := by
  have hl : l.live t = none := Ledger.live_eq_none.mpr hnew
  have hhandle := h.shows.handle_eq_none.mpr hl
  have hstart : Multimap.start s t interval callBack now = .ok _ := if_neg (by simp [hhandle])
  refine ⟨_, hstart, ?_, ?_, fun x => ?_, ?_⟩
  · rw [Ledger.live_start]
    exact h.shows.start hl (now + interval) callBack
  · funext u
    by_cases hut : u = t
    · subst hut
      simp [State.callBacks, Ledger.start]
    · have hsame := congrFun h.callBacks u
      simpa [State.callBacks, Ledger.start, hut] using hsame
  · rw [Ledger.due_start, ← h.due x]
    exact filterMap_emplace h.shows.sorted rfl
  · rw [calls_append, h.calls]
    exact List.append_nil _

theorem State.Follows.stop (h : s.Follows l) (t : τ) :
    ∃ s', stop s t = .ok s' ∧ s'.Follows (l.without [t]) := by
  obtain ⟨s', hs', hframe, hevents, hshows⟩ := h.shows.stop t
  refine ⟨s', hs', ?_, hframe.callBacks.trans h.callBacks, fun x => ?_, ?_⟩
  · rw [Ledger.live_without]
    exact hshows
  · rw [h.shows.due_stop hs', Ledger.due_without, h.due x]
    simp
  · rw [hevents, calls_append, calls_stops, List.append_nil, h.calls]
    rfl

theorem State.Follows.remove {b : Entry τ} (h : s.Follows l) (hb : b ∈ s.map)
    (hbt : b.timer = none) : (remove s b.node).Follows l := by
  refine ⟨h.shows.remove hb hbt, h.callBacks, fun x => ?_, h.calls⟩
  rw [← h.due x]
  refine due_erase (s := { s with canceledRemoved := s.canceledRemoved + 1 }) fun e he hen => ?_
  rw [h.shows.eq_of_node he hb hen]
  exact hbt

theorem State.Follows.turn {b : Entry τ} (h : s.Follows l) (hb : b ∈ s.map) (hbt : b.timer = some t)
    (hs : expire s t b.key = .ok s') : (erase s' b.node).Follows (l.after b.key [t]) := by
  obtain ⟨s'', hs'', hcb, -, -, hevents, hshows⟩ := h.shows.expire hb hbt
  obtain rfl := Except.ok.inj (hs.symm.trans hs'')
  have hgone : l.gone [t] = t :: s.callBacks t := by rw [l.gone_singleton, h.callBacks]
  refine ⟨?_, hcb.trans h.callBacks, fun x => ?_, ?_⟩
  · rw [Ledger.live_after, hgone, stopAll_cons]
    exact hshows
  · rw [h.shows.due_expire hb hbt hs, Ledger.due_after, hgone, h.due x]
  · have hcalls : Tandem.calls s'.events = l.calls ++ [(t, b.key)] := by
      rw [hevents, calls_append, h.calls]
      exact congrArg (fun new => l.calls ++ (t, b.key) :: new) (calls_stops _ _)
    exact hcalls

/-- In the middle of a call of `expire_next`: the timers in `done` have been called
back, and the entries that are still due make up for the others. -/
structure Halfway (l : Ledger τ) (now : TimePoint) (s : State τ) (done : List τ) : Prop where
  follows : s.Follows (l.after now done)
  called : (s.due now).foldl l.turn done = l.called now

theorem State.Follows.halfway (h : s.Follows l) (now : TimePoint) : Halfway l now s [] :=
  ⟨by rwa [Ledger.after_nil], by rw [h.due now, Ledger.called]⟩

theorem Halfway.remove {done : List τ} {b : Entry τ} (h : Halfway l now s done) (hb : b ∈ s.map)
    (hbt : b.timer = none) : Halfway l now (remove s b.node) done := by
  have hremove := h.follows.remove hb hbt
  refine ⟨hremove, ?_⟩
  rw [hremove.due, ← h.follows.due]
  exact h.called

theorem Halfway.called_cons {done : List τ} {b : Entry τ} {bs : List (Entry τ)}
    (h : Halfway l b.key s done) (hmap : s.map = b :: bs) (hbt : b.timer = some t) :
    ∃ rest, s.due b.key = t :: rest ∧ rest.foldl l.turn (done ++ [t]) = l.called b.key := by
  obtain ⟨rest, hrest⟩ := due_cons hmap hbt
  have ht : t ∉ l.gone done := by
    have hmem : t ∈ (l.after b.key done).due b.key := by
      rw [← h.follows.due, hrest]
      exact List.mem_cons_self
    rw [Ledger.due_after] at hmem
    simpa using (List.mem_filter.mp hmem).2
  have hcalled := h.called
  rw [hrest, List.foldl_cons, Ledger.turn, if_neg ht] at hcalled
  exact ⟨rest, hrest, hcalled⟩

theorem Halfway.turn {done : List τ} {b : Entry τ} {bs : List (Entry τ)} (h : Halfway l b.key s done)
    (hmap : s.map = b :: bs) (hbt : b.timer = some t) (hs : expire s t b.key = .ok s') :
    Halfway l b.key (erase s' b.node) (done ++ [t]) := by
  obtain ⟨rest, hrest, hcalled⟩ := h.called_cons hmap hbt
  have hb : b ∈ s.map := by simp [hmap]
  have hturn := h.follows.turn hb hbt hs
  have hdue := h.follows.shows.due_expire (x := b.key) hb hbt hs
  rw [Ledger.after_after] at hturn
  refine ⟨hturn, ?_⟩
  have hgone : l.gone [t] = t :: s.callBacks t := by rw [l.gone_singleton, h.follows.callBacks]; rfl
  have ht : t ∈ l.gone (done ++ [t]) := by
    rw [Ledger.gone_append, hgone]
    exact List.mem_append_right _ List.mem_cons_self
  rw [hdue, ← hgone, hrest, Ledger.foldl_turn_filter, List.foldl_cons, Ledger.turn, if_pos ht, hcalled]
  intro u hu
  rw [Ledger.gone_append]
  exact List.mem_append_right _ hu

theorem State.Follows.head_key {b : Entry τ} {bs : List (Entry τ)} (h : s.Follows l)
    (hleast : l.least = some now) (hmap : s.map = b :: bs) (hbt : b.timer = some t) :
    b.key = now ∧ (s.timer t).expirationPoint = now := by
  obtain ⟨⟨u, hu⟩, hle⟩ := Ledger.least_live hleast
  have hl := (h.shows.entry b (by simp [hmap]) t hbt).2
  have hkey : b.key = now := le_antisymm (h.shows.head_le hmap u now hu) (hle t b.key hl)
  exact ⟨hkey, (h.shows.point t b.key hl).2.trans hkey⟩

theorem Halfway.turn_at {done : List τ} {b : Entry τ} {bs : List (Entry τ)}
    (h : Halfway l now s done) (hmap : s.map = b :: bs) (hbt : b.timer = some t)
    (hpoint : (s.timer t).expirationPoint = now) (hs : expire s t b.key = .ok s') :
    Halfway l now (erase s' b.node) (done ++ [t]) := by
  have hl := (h.follows.shows.entry b (by simp [hmap]) t hbt).2
  obtain rfl : b.key = now := (h.follows.shows.point t b.key hl).2.symm.trans hpoint
  exact h.turn hmap hbt hs

/-- The first loop calls back the timer that was started first. -/
theorem State.Follows.expireFirst {now' : TimePoint} (h : s.Follows l) (hleast : l.least = some now)
    (k : Nat) (hfirst : expireFirst k s = .ok (s', now')) :
    now' = now ∧ ∃ t, Halfway l now s' [t] := by
  obtain ⟨u, b, bs, t, u', hu, hmap, hbt, hexpire, rfl, rfl⟩ := expireFirst_rule
    (P := fun u => u.Follows l) (fun u b bs hu hmap hbt => hu.remove (by simp [hmap]) hbt) k h hfirst
  obtain ⟨-, hpoint⟩ := hu.head_key hleast hmap hbt
  exact ⟨hpoint, t, (hu.halfway now).turn_at hmap hbt hpoint hexpire⟩

/-- A call of `expire_next` calls back what the ledger says. -/
theorem State.Follows.expireNext (h : s.Follows l) (hleast : l.least = some now) :
    ∃ s', expireNext s = .ok s' ∧ s'.Follows (l.expireNext now) := by
  obtain ⟨s', new, live', hs', hfires, -, hshows, -, -⟩ :=
    expireNext_fired h.shows (Ledger.least_live hleast)
  refine ⟨s', hs', ?_⟩
  obtain ⟨⟨s1, now'⟩, hfirst, hrest⟩ := bind_ok_iff.mp hs'
  obtain ⟨rfl, t, ht⟩ := h.expireFirst hleast _ hfirst
  obtain ⟨done, hdone⟩ := expireRest_rule (P := fun u => ∃ done, Halfway l now' u done)
    (fun u b bs ⟨done, hu⟩ hmap hbt => ⟨done, hu.remove (by simp [hmap]) hbt⟩)
    (fun u b bs t u' ⟨done, hu⟩ hmap hbt hpoint hexpire =>
      ⟨done ++ [t], hu.turn_at hmap hbt hpoint hexpire⟩) _ ⟨[t], ht⟩ hrest
  have hnone : s'.due now' = [] := by
    refine List.eq_nil_iff_forall_not_mem.mpr fun u hu => ?_
    exact (hfires.left_iff.mp (hshows.mem_due.mp hu)).2.1 rfl
  have hcalled := hdone.called
  rw [hnone, List.foldl_nil] at hcalled
  rw [Ledger.expireNext, ← hcalled]
  exact hdone.follows

end Follows

/-! ### What the handles refer to -/

def stopAllStates (s : State τ) : List τ → List (State τ)
  | [] => []
  | u :: us =>
      match stop s u with
      | .error s' => [s']
      | .ok s' => s' :: stopAllStates s' us

/-- The states in the middle of `TimerImpl<0>::expire`. -/
def expireStates (s : State τ) (t : τ) (key : TimePoint) : List (State τ) :=
  match setNotRunning s t with
  | .error s1 => [s1]
  | .ok s1 =>
      let s2 := { s1 with
        lastTimePoint := (s1.timer t).expirationPoint
        events := s1.events ++ [.called t key] }
      s1 :: s2 :: stopAllStates s2 (s1.timer t).callBack

def turnStates (s : State τ) (t : τ) (b : Entry τ) : List (State τ) :=
  expireStates s t b.key ++
    match expire s t b.key with
    | .error s' => [s']
    | .ok s' => [s', erase s' b.node]

def firstStates : Nat → State τ → List (State τ)
  | 0, _ => []
  | k + 1, s =>
      match s.map with
      | [] => []
      | b :: _ =>
          match b.timer with
          | none => remove s b.node :: firstStates k (remove s b.node)
          | some t => turnStates s t b

def restStates (now : TimePoint) : Nat → State τ → List (State τ)
  | 0, _ => []
  | k + 1, s =>
      match s.map with
      | [] => []
      | b :: _ =>
          match b.timer with
          | none => remove s b.node :: restStates now k (remove s b.node)
          | some t =>
              if (s.timer t).expirationPoint ≠ now then []
              else turnStates s t b ++
                match expire s t b.key with
                | .error _ => []
                | .ok s' => restStates now k (erase s' b.node)

/-- The states that a call of `expire_next` passes through. -/
def expireNextStates (s : State τ) : List (State τ) :=
  firstStates s.map.length s ++
    match expireFirst s.map.length s with
    | .error _ => []
    | .ok (s', now) => restStates now s'.map.length s'

section Handles
variable {s s' : State τ} {live : Live τ} {l : Ledger τ} {t : τ} {now : TimePoint}

omit [DecidableEq τ] in
theorem filter_node_eq {m : List (Entry τ)} {e : Entry τ} (h : (m.map Entry.node).Nodup)
    (he : e ∈ m) : m.filter (·.node = e.node) = [e] := by
  induction m with
  | nil => cases he
  | cons d m ih =>
      obtain ⟨hd, hm⟩ := List.nodup_cons.mp h
      rcases List.mem_cons.mp he with rfl | he
      · rw [List.filter_cons_of_pos (by simp), List.filter_eq_nil_iff.mpr]
        intro c hc
        have hne : c.node ≠ e.node := fun heq => hd (heq ▸ List.mem_map_of_mem hc)
        simpa using hne
      · have hne : d.node ≠ e.node := fun heq => hd (heq ▸ List.mem_map_of_mem he)
        rw [List.filter_cons_of_neg (by simpa using hne), ih hm he]

omit [DecidableEq τ] in
theorem Rep.refers (h : s.Shows live) : s.Refers live := by
  refine fun t => ⟨h.handle_eq_none.mpr, fun x hx => ?_⟩
  obtain ⟨hrun, hpoint⟩ := h.point t x hx
  obtain ⟨n, hn⟩ := Option.ne_none_iff_exists'.mp hrun
  obtain ⟨⟨key, node, timer⟩, he, rfl, het⟩ := h.handle t n hn
  obtain rfl : timer = some t := het
  have hkey := (h.entry _ he t rfl).2
  rw [hx] at hkey
  cases hkey
  exact ⟨node, hn, hpoint, filter_node_eq h.nodup he⟩

theorem stopAll_stopAll (live : Live τ) (us vs : List τ) :
    (live.stopAll us).stopAll vs = live.stopAll (us ++ vs) := by
  funext t
  simp only [Live.stopAll, List.mem_append]
  split_ifs <;> simp_all

/-- While a callback stops its timers, some of the first ones do not run. -/
theorem Rep.stopAllStates (h : s.Shows live) (us : List τ) :
    ∀ mid ∈ stopAllStates s us, ∃ stopped, stopped <+: us ∧ mid.Shows (live.stopAll stopped) := by
  induction us generalizing s live with
  | nil => intro mid hmid; cases hmid
  | cons u us ih =>
      obtain ⟨s1, hs1, -, -, h1⟩ := h.stop u
      rw [Multimap.stopAllStates, hs1]
      refine List.forall_mem_cons.mpr ⟨⟨[u], List.prefix_append [u] us, h1⟩, fun mid hmid => ?_⟩
      obtain ⟨stopped, hstopped, hmid⟩ := ih h1 mid hmid
      rw [stopAll_stopAll] at hmid
      exact ⟨u :: stopped, List.cons_prefix_cons.mpr ⟨rfl, hstopped⟩, hmid⟩

theorem Rep.turnStates (h : s.Shows live) {b : Entry τ} (hb : b ∈ s.map) (hbt : b.timer = some t) :
    ∀ mid ∈ turnStates s t b, ∃ stopped, stopped <+: s.callBacks t ∧
      mid.Shows (live.stopAll (t :: stopped)) := by
  have hl : live t ≠ none := by
    rw [(h.entry b hb t hbt).2]
    exact nofun
  obtain ⟨s1, hs1, hframe, -, -, h1⟩ := h.setNotRunning hl
  obtain ⟨s', hs', -, -, -, -, hshows, hentry⟩ := h.expire_shows hb hbt
  have hcallBack : (s1.timer t).callBack = s.callBacks t := congrFun hframe.callBacks t
  have hfirst : live.stopAll [t] = Function.update live t none := by rw [stopAll_cons, stopAll_nil]
  have hstopped := Rep.stopAllStates (s := { s1 with
      lastTimePoint := (s1.timer t).expirationPoint
      events := s1.events ++ [.called t b.key] }) h1 (s.callBacks t)
  rw [← stopAll_cons] at hshows
  rw [← hfirst] at h1
  rw [Multimap.turnStates, expireStates, hs1, hs']
  dsimp only
  rw [hcallBack]
  refine List.forall_mem_append.mpr ⟨List.forall_mem_cons.mpr ⟨⟨[], List.nil_prefix, h1⟩,
    List.forall_mem_cons.mpr ⟨⟨[], List.nil_prefix, h1⟩, fun mid hmid => ?_⟩⟩, ?_⟩
  · obtain ⟨stopped, hsome, hmid⟩ := hstopped mid hmid
    rw [← stopAll_cons] at hmid
    exact ⟨stopped, hsome, hmid⟩
  · exact List.forall_mem_cons.mpr ⟨⟨_, List.prefix_rfl, hshows⟩,
      List.forall_mem_singleton.mpr ⟨_, List.prefix_rfl, hshows.erase hentry⟩⟩

theorem Halfway.passes {done : List τ} (h : Halfway l now s done) :
    ∃ live, l.Passes now live ∧ s.Refers live := by
  have hrefers := h.follows.shows.refers
  rw [Ledger.live_after] at hrefers
  have hdone : done <+: l.called now := by
    rw [← h.called]
    exact Ledger.prefix_foldl_turn done _
  rcases List.eq_nil_or_concat done with rfl | ⟨done, t, rfl⟩
  · exact ⟨l.live, .first, by simpa [Ledger.gone] using hrefers⟩
  · rw [List.concat_eq_append] at hdone hrefers
    rw [Ledger.gone_append, l.gone_singleton] at hrefers
    exact ⟨_, .amid done t _ hdone List.prefix_rfl, hrefers⟩

theorem Halfway.turnStates {done : List τ} {b : Entry τ} {bs : List (Entry τ)}
    (h : Halfway l now s done) (hmap : s.map = b :: bs) (hbt : b.timer = some t)
    (hpoint : (s.timer t).expirationPoint = now) :
    ∀ mid ∈ turnStates s t b, ∃ live, l.Passes now live ∧ mid.Refers live := by
  intro mid hmid
  have hb : b ∈ s.map := by simp [hmap]
  have hl := (h.follows.shows.entry b hb t hbt).2
  obtain rfl : b.key = now := (h.follows.shows.point t b.key hl).2.symm.trans hpoint
  obtain ⟨rest, -, hcalled⟩ := h.called_cons hmap hbt
  obtain ⟨stopped, hstopped, hshows⟩ := h.follows.shows.turnStates hb hbt mid hmid
  rw [h.follows.callBacks] at hstopped
  rw [Ledger.live_after, stopAll_stopAll] at hshows
  have hdone : done ++ [t] <+: l.called b.key := by
    rw [← hcalled]
    exact Ledger.prefix_foldl_turn _ rest
  exact ⟨_, .amid done t stopped hdone hstopped, hshows.refers⟩

theorem State.Follows.firstStates (k : Nat) (h : s.Follows l) (hleast : l.least = some now) :
    ∀ mid ∈ firstStates k s, ∃ live, l.Passes now live ∧ mid.Refers live := by
  induction k generalizing s with
  | zero => intro mid hmid; cases hmid
  | succ k ih =>
      rw [Multimap.firstStates]
      split
      · intro mid hmid; cases hmid
      · next b bs hmap =>
        have hb : b ∈ s.map := by simp [hmap]
        split
        · next hbt =>
          have hremove := h.remove hb hbt
          exact List.forall_mem_cons.mpr ⟨(hremove.halfway now).passes, ih hremove⟩
        · next t hbt => exact (h.halfway now).turnStates hmap hbt (h.head_key hleast hmap hbt).2

theorem Halfway.restStates (k : Nat) {done : List τ} (h : Halfway l now s done) :
    ∀ mid ∈ restStates now k s, ∃ live, l.Passes now live ∧ mid.Refers live := by
  induction k generalizing s done with
  | zero => intro mid hmid; cases hmid
  | succ k ih =>
      rw [Multimap.restStates]
      split
      · intro mid hmid; cases hmid
      · next b bs hmap =>
        have hb : b ∈ s.map := by simp [hmap]
        split
        · next hbt =>
          have hremove := h.remove hb hbt
          exact List.forall_mem_cons.mpr ⟨hremove.passes, ih hremove⟩
        · next t hbt =>
          split_ifs with hne
          · intro mid hmid; cases hmid
          · have hpoint := not_not.mp hne
            obtain ⟨s1, hs1, -⟩ := h.follows.shows.expire hb hbt
            rw [hs1]
            exact List.forall_mem_append.mpr
              ⟨h.turnStates hmap hbt hpoint, ih (h.turn_at hmap hbt hpoint hs1)⟩

/-- At each point of a call of `expire_next` the handles refer to their entries. -/
theorem State.Follows.expireNextStates (h : s.Follows l) (hleast : l.least = some now) :
    ∀ mid ∈ expireNextStates s, ∃ live, l.Passes now live ∧ mid.Refers live := by
  refine List.forall_mem_append.mpr ⟨h.firstStates _ hleast, ?_⟩
  cases hfirst : Multimap.expireFirst s.map.length s with
  | error e => intro mid hmid; cases hmid
  | ok p =>
      obtain ⟨s1, now'⟩ := p
      obtain ⟨rfl, t, ht⟩ := h.expireFirst hleast _ hfirst
      exact ht.restStates _

end Handles

/-! ### Runs -/

/-- A call of the program; none if an assert fails. -/
def perform (s : State τ) : Act τ → Option (State τ)
  | .start t interval callBack now => (start s t interval callBack now).toOption
  | .stop t => (stop s t).toOption
  | .expireNext => (expireNext s).toOption

/-- A timer is started while it is not running, and `expire_next` is called while
some timer is. -/
def Allowed (s : State τ) : Act τ → Prop
  | .start t _ _ _ => (s.timer t).handle = none
  | .stop _ => True
  | .expireNext => ∃ t, (s.timer t).handle ≠ none

section Runs
variable {s : State τ} {l l' : Ledger τ}

/-- A call of the program does what it does to the ledger, and no assert fails. -/
theorem State.Follows.perform {a : Act τ} (h : s.Follows l) (hl : l.step a = some l') :
    ∃ s', perform s a = some s' ∧ s'.Follows l' := by
  cases a with
  | start t interval callBack now =>
      obtain ⟨hnew, heq⟩ := Option.dite_none_right_eq_some.mp hl
      obtain rfl := Option.some.inj heq
      obtain ⟨s', hs', h'⟩ := h.start hnew interval callBack now
      exact ⟨s', by rw [Multimap.perform, hs']; rfl, h'⟩
  | stop t =>
      obtain rfl := Option.some.inj hl
      obtain ⟨s', hs', h'⟩ := h.stop t
      exact ⟨s', by rw [Multimap.perform, hs']; rfl, h'⟩
  | expireNext =>
      obtain ⟨now, hleast, rfl⟩ := Option.map_eq_some_iff.mp hl
      obtain ⟨s', hs', h'⟩ := h.expireNext hleast
      exact ⟨s', by rw [Multimap.perform, hs']; rfl, h'⟩

end Runs

/-- Whatever an allowed program has done so far: no assert failed, the handles refer to
the entries of the timers that run, the callbacks made are the ones that were due, in
their order, and no stopped timer is called back. The next call of `expire_next` calls
back the timers with the least expiration point, each once, without those that an
earlier callback stopped, and the handles are in order at each point of this call. -/
theorem expire_next_correct (acts : List (Act τ)) (l : Ledger τ)
    (hacts : run Ledger.step Ledger.empty acts = some l) :
    ∃ s : State τ, run perform initial acts = some s ∧ s.Refers l.live ∧ calls s.events = l.calls ∧
      l.StaysStopped acts ∧
      ∀ now, l.least = some now → (l.called now).Nodup ∧ ∃ s', expireNext s = .ok s' ∧
        s'.Refers (l.expireNext now).live ∧ calls s'.events = l.calls ++ (l.called now).map (·, now) ∧
        ∀ mid ∈ expireNextStates s, ∃ live, l.Passes now live ∧ mid.Refers live := by
  obtain ⟨s, hs, h⟩ := run_simulates (fun _ _ _ _ => State.Follows.perform) follows_initial hacts
  refine ⟨s, hs, h.shows.refers, h.calls, Ledger.staysStopped hacts, fun now hleast => ?_⟩
  obtain ⟨s', hs', h'⟩ := h.expireNext hleast
  exact ⟨l.called_nodup now, s', hs', h'.shows.refers, h'.calls, h.expireNextStates hleast⟩

def restarting : List (Act Nat) :=
  [.start 0 10 [] 0, .stop 0, .start 1 20 [0, 3] 0, .start 2 19 [] 1, .start 0 15 [1] 5,
    .start 3 30 [] 0, .start 4 40 [] 0]

/-- The callback of the first of them stops the third and one that is due later. -/
theorem expire_next_correct_restart :
    ∃ (l : Ledger Nat) (s s' : State Nat),
      run Ledger.step Ledger.empty restarting = some l ∧ l.called 20 = [1, 2] ∧
      run perform initial restarting = some s ∧ s.Refers l.live ∧ calls s.events = [] ∧
      expireNext s = .ok s' ∧ s'.Refers (l.expireNext 20).live ∧
      calls s'.events = [(1, 20), (2, 20)] ∧
      ∀ mid ∈ expireNextStates s, ∃ live, l.Passes 20 live ∧ mid.Refers live := by
  have hacts : run Ledger.step Ledger.empty restarting = some _ := rfl
  obtain ⟨s, hs, hrefers, hcalls, -, hnext⟩ := expire_next_correct restarting _ hacts
  obtain ⟨-, s', hs', hrefers', hcalls', hmids⟩ := hnext 20 (by decide)
  exact ⟨_, s, s', hacts, by decide, hs, hrefers, hcalls, hs', hrefers', hcalls', hmids⟩

end Timers.Multimap
