import TaskSuite.TimerRuns

/-! The four counters of implementation 0. A timer that expires goes through
`set_not_running` as well, and is counted there as one that was cancelled. -/
namespace Timers.Multimap
open Machine
open Tandem (Act)

variable {τ : Type}

def State.pending (s : State τ) : Nat := s.map.countP (·.timer.isSome)

def State.nulls (s : State τ) : Nat := s.map.countP (·.timer.isNone)

/-- Every start is counted once: as running, as expired or as cancelled. The nodes
are numbered by the calls of `push`. -/
structure Accounted (s : State τ) : Prop where
  pushes : s.nextNode = s.runningTimers + s.expiredTimers + s.canceledTimers
  running : s.runningTimers = s.pending
  canceled : s.canceledTimers = s.canceledRemoved + s.nulls

/-- What the counters do say. While an expired timer still has its entry, `extra`
is one, outside of any call it is zero. -/
structure Balance (s : State τ) (extra : Int) : Prop where
  pushes : s.nextNode = s.runningTimers + s.canceledTimers
  running : s.runningTimers = s.pending
  canceled : s.canceledTimers + extra = s.canceledRemoved + s.nulls + s.expiredTimers

section Count
variable {m : List (Entry τ)} {e : Entry τ}

theorem countP_isNone (m : List (Entry τ)) :
    m.countP (·.timer.isNone) + m.countP (·.timer.isSome) = m.length := by
  rw [List.length_eq_countP_add_countP (·.timer.isNone) (l := m)]
  congr 1
  refine List.countP_congr fun e _ => ?_
  cases e.timer <;> simp

theorem countP_clear (h : (m.map Entry.node).Nodup) (he : e ∈ m) (ht : e.timer ≠ none) :
    (m.map (Entry.clear e.node)).countP (·.timer.isSome) + 1 = m.countP (·.timer.isSome) := by
  induction m with
  | nil => cases he
  | cons d m ih =>
      obtain ⟨hd, hm⟩ := List.nodup_cons.mp h
      rw [List.map_cons, List.countP_cons, List.countP_cons]
      rcases List.mem_cons.mp he with rfl | he
      · have hsame : m.map (Entry.clear e.node) = m := by
          refine (List.map_congr_left fun c hc => if_neg fun heq => hd ?_).trans (List.map_id m)
          exact heq ▸ List.mem_map_of_mem hc
        have hclear : (e.clear e.node).timer = none := by simp [Entry.clear]
        rw [hsame, hclear]
        simp [Option.isSome_iff_ne_none.mpr ht]
      · have hne : d.node ≠ e.node := fun heq => hd (heq ▸ List.mem_map_of_mem he)
        have hclear : d.clear e.node = d := if_neg hne
        rw [hclear]
        have hcount := ih hm he
        omega

theorem countP_erase (h : (m.map Entry.node).Nodup) (he : e ∈ m) (ht : e.timer = none) :
    (m.filter (·.node ≠ e.node)).countP (·.timer.isSome) = m.countP (·.timer.isSome) ∧
      (m.filter (·.node ≠ e.node)).countP (·.timer.isNone) + 1 = m.countP (·.timer.isNone) := by
  induction m with
  | nil => cases he
  | cons d m ih =>
      obtain ⟨hd, hm⟩ := List.nodup_cons.mp h
      rcases List.mem_cons.mp he with rfl | he
      · have hsame : m.filter (·.node ≠ e.node) = m := by
          refine List.filter_eq_self.mpr fun c hc => ?_
          have hne : c.node ≠ e.node := fun heq => hd (heq ▸ List.mem_map_of_mem hc)
          simpa using hne
        rw [List.filter_cons_of_neg (by simp), hsame]
        simp [ht]
      · have hne : d.node ≠ e.node := fun heq => hd (heq ▸ List.mem_map_of_mem he)
        rw [List.filter_cons_of_pos (by simpa using hne)]
        obtain ⟨hsome, hnone⟩ := ih hm he
        simp only [List.countP_cons]
        omega

end Count

section Operations
variable [DecidableEq τ] {s s' : State τ} {live : Live τ} {t : τ} {extra : Int}

theorem Balance.setNotRunning (hb : Balance s extra) (h : s.Shows live)
    (hset : setNotRunning s t = .ok s') :
    Balance s' extra ∧ s'.expiredTimers = s.expiredTimers := by
  obtain ⟨n, hn, rfl⟩ := setNotRunning_eq hset
  obtain ⟨e, he, rfl, het⟩ := h.handle t n hn
  have hpending := countP_clear h.nodup he (by rw [het]; exact nofun)
  have hnulls := countP_isNone s.map
  have hnulls' := countP_isNone (s.map.map (Entry.clear e.node))
  rw [List.length_map] at hnulls'
  obtain ⟨hpushes, hrunning, hcanceled⟩ := hb
  simp only [State.pending, State.nulls] at hrunning hcanceled
  refine ⟨⟨?_, ?_, ?_⟩, rfl⟩
  · change (s.nextNode : Int) = s.runningTimers - 1 + (s.canceledTimers + 1)
    omega
  · change s.runningTimers - 1 = ((s.map.map (Entry.clear e.node)).countP (·.timer.isSome) : Nat)
    omega
  · change s.canceledTimers + 1 + extra = s.canceledRemoved +
      ((s.map.map (Entry.clear e.node)).countP (·.timer.isNone) : Nat) + s.expiredTimers
    omega

theorem Balance.stop (hb : Balance s extra) (h : s.Shows live) (hstop : stop s t = .ok s') :
    Balance s' extra ∧ s'.expiredTimers = s.expiredTimers := by
  rw [Multimap.stop] at hstop
  split_ifs at hstop
  · obtain ⟨s1, hset, rfl⟩ := map_ok_iff.mp hstop
    obtain ⟨hb1, hexpired⟩ := hb.setNotRunning h hset
    exact ⟨⟨hb1.pushes, hb1.running, hb1.canceled⟩, hexpired⟩
  · cases hstop
    exact ⟨hb, rfl⟩

theorem Balance.stopAll {us : List τ} (hb : Balance s extra) (h : s.Shows live)
    (hstop : stopAll s us = .ok s') : Balance s' extra ∧ s'.expiredTimers = s.expiredTimers := by
  induction us generalizing s live with
  | nil =>
      cases hstop
      exact ⟨hb, rfl⟩
  | cons u us ih =>
      obtain ⟨s1, hs1, -, -, h1⟩ := h.stop u
      obtain ⟨hb1, hexpired1⟩ := hb.stop h hs1
      rw [Multimap.stopAll, hs1] at hstop
      obtain ⟨hb', hexpired⟩ := ih hb1 h1 hstop
      exact ⟨hb', hexpired.trans hexpired1⟩

/-- Here a timer is counted twice. -/
theorem Balance.expire {key : TimePoint} (hb : Balance s extra) (h : s.Shows live)
    (hl : live t ≠ none) (hexpire : expire s t key = .ok s') :
    Balance s' (extra + 1) ∧ s'.expiredTimers = s.expiredTimers + 1 := by
  obtain ⟨s1, hs1, -, -, -, h1⟩ := h.setNotRunning hl
  obtain ⟨hb1, hexpired1⟩ := hb.setNotRunning h hs1
  rw [Multimap.expire, hs1] at hexpire
  obtain ⟨s3, hstop, rfl⟩ := map_ok_iff.mp hexpire
  have hb2 : Balance { s1 with
      lastTimePoint := (s1.timer t).expirationPoint
      events := s1.events ++ [.called t key] } extra :=
    ⟨hb1.pushes, hb1.running, hb1.canceled⟩
  obtain ⟨⟨hpushes, hrunning, hcanceled⟩, hexpired3⟩ := hb2.stopAll h1 hstop
  refine ⟨⟨hpushes, hrunning, ?_⟩, ?_⟩
  · change s3.canceledTimers + (extra + 1) = s3.canceledRemoved + s3.nulls + (s3.expiredTimers + 1)
    omega
  · change s3.expiredTimers + 1 = _
    rw [hexpired3, hexpired1]

omit [DecidableEq τ] in
theorem Balance.erase {e : Entry τ} (hb : Balance s (extra + 1)) (h : (s.map.map Entry.node).Nodup)
    (he : e ∈ s.map) (het : e.timer = none) : Balance (erase s e.node) extra := by
  obtain ⟨hsome, hnone⟩ := countP_erase h he het
  obtain ⟨hpushes, hrunning, hcanceled⟩ := hb
  simp only [State.pending, State.nulls] at hrunning hcanceled
  refine ⟨hpushes, ?_, ?_⟩
  · change s.runningTimers = ((s.map.filter (·.node ≠ e.node)).countP (·.timer.isSome) : Nat)
    omega
  · change s.canceledTimers + extra = s.canceledRemoved +
      ((s.map.filter (·.node ≠ e.node)).countP (·.timer.isNone) : Nat) + s.expiredTimers
    omega

omit [DecidableEq τ] in
theorem Balance.remove {e : Entry τ} (hb : Balance s extra) (h : (s.map.map Entry.node).Nodup)
    (he : e ∈ s.map) (het : e.timer = none) : Balance (remove s e.node) extra := by
  refine Balance.erase (s := { s with canceledRemoved := s.canceledRemoved + 1 }) ?_ h he het
  obtain ⟨hpushes, hrunning, hcanceled⟩ := hb
  refine ⟨hpushes, hrunning, ?_⟩
  change s.canceledTimers + (extra + 1) = s.canceledRemoved + 1 + s.nulls + s.expiredTimers
  omega

/-- The timer of the first entry expires, and the entry goes. -/
theorem Balance.turn {b : Entry τ} {rest : List (Entry τ)} (hb : Balance s extra) (h : s.Shows live)
    (hmap : s.map = b :: rest) (hbt : b.timer = some t) :
    ∃ s' live', Multimap.expire s t b.key = .ok s' ∧ (Multimap.erase s' b.node).Shows live' ∧
      Balance (Multimap.erase s' b.node) extra ∧
      (Multimap.erase s' b.node).expiredTimers = s.expiredTimers + 1 := by
  have hmem : b ∈ s.map := by simp [hmap]
  have hl : live t ≠ none := by
    rw [(h.entry b hmem t hbt).2]
    exact nofun
  obtain ⟨s', hs', -, -, hnodes, -, hshows, hentry⟩ := h.expire_shows hmem hbt
  obtain ⟨hb', hexpired⟩ := hb.expire h hl hs'
  obtain ⟨e, he, hen⟩ : ∃ e ∈ s'.map, e.node = b.node :=
    List.mem_map.mp (hnodes ▸ List.mem_map_of_mem hmem)
  refine ⟨s', _, hs', hshows.erase hentry, ?_, hexpired⟩
  rw [← hen]
  exact hb'.erase hshows.nodup he (hentry e he hen)

/-- What the loops of `expire_next` keep, with the least number of expired timers. -/
def Balanced (extra expired : Int) (s : State τ) : Prop :=
  Balance s extra ∧ expired ≤ s.expiredTimers ∧ ∃ live, s.Shows live

section Loops
variable {expired : Int} (b : Entry τ) (bs : List (Entry τ))

omit [DecidableEq τ] in
theorem Balanced.remove (h : Balanced extra expired s) (hmap : s.map = b :: bs)
    (hbt : b.timer = none) : Balanced extra expired (remove s b.node) := by
  obtain ⟨hb, hexpired, live, hshows⟩ := h
  have hmem : b ∈ s.map := by simp [hmap]
  exact ⟨hb.remove hshows.nodup hmem hbt, hexpired, live, hshows.remove hmem hbt⟩

theorem Balanced.turn (t : τ) (h : Balanced extra expired s) (hmap : s.map = b :: bs)
    (hbt : b.timer = some t) (hexpire : expire s t b.key = .ok s') :
    Balanced extra (expired + 1) (Multimap.erase s' b.node) := by
  obtain ⟨hb, hexpired, live, hshows⟩ := h
  obtain ⟨u, live', hu, hshows', hb', hexpired'⟩ := hb.turn hshows hmap hbt
  obtain rfl := Except.ok.inj (hexpire.symm.trans hu)
  exact ⟨hb', by omega, live', hshows'⟩

end Loops

theorem Balance.expireNext (hb : Balance s extra) (h : s.Shows live)
    (hnext : expireNext s = .ok s') : Balance s' extra ∧ s.expiredTimers < s'.expiredTimers := by
  obtain ⟨⟨s1, now⟩, hfirst, hrest⟩ := bind_ok_iff.mp hnext
  obtain ⟨u, b, bs, t, u', hu, hmap, hbt, hexpire, rfl, -⟩ :=
    expireFirst_rule (fun _ => Balanced.remove) _ ⟨hb, le_rfl, live, h⟩ hfirst
  have hone := hu.turn b bs t hmap hbt hexpire
  obtain ⟨hb', hexpired, -⟩ := expireRest_rule (fun _ => Balanced.remove)
    (fun v b bs t v' hv hmap hbt _ hexpire => by
      obtain ⟨hb', hexpired, hshows⟩ := hv.turn b bs t hmap hbt hexpire
      exact ⟨hb', by omega, hshows⟩) _ hone hrest
  exact ⟨hb', by omega⟩

theorem Balance.start {interval : Int} {callBack : List τ} {now : TimePoint} (hb : Balance s extra)
    (hstart : start s t interval callBack now = .ok s') :
    Balance s' extra ∧ s'.expiredTimers = s.expiredTimers := by
  rw [Multimap.start] at hstart
  split_ifs at hstart
  cases hstart
  obtain ⟨hpushes, hrunning, hcanceled⟩ := hb
  have hperm := emplace_perm ⟨now + interval, s.nextNode, some t⟩ s.map
  have hsome := hperm.countP_eq (·.timer.isSome)
  have hnone := hperm.countP_eq (·.timer.isNone)
  rw [List.countP_cons_of_pos (by rfl)] at hsome
  rw [List.countP_cons_of_neg (by simp)] at hnone
  simp only [State.pending, State.nulls] at hrunning hcanceled
  refine ⟨⟨?_, ?_, ?_⟩, rfl⟩
  · change ((s.nextNode + 1 : Nat) : Int) = s.runningTimers + 1 + s.canceledTimers
    omega
  · change s.runningTimers + 1 = ((emplace _ s.map).countP (·.timer.isSome) : Nat)
    omega
  · change s.canceledTimers + extra = s.canceledRemoved +
      ((emplace _ s.map).countP (·.timer.isNone) : Nat) + s.expiredTimers
    omega

end Operations

/-! ### Runs -/

section Runs
variable [DecidableEq τ] {s s' : State τ} {live : Live τ}

omit [DecidableEq τ] in
/-- The counters are right exactly until the first timer has expired. -/
theorem Balance.accounted_iff (hb : Balance s 0) : Accounted s ↔ s.expiredTimers = 0 := by
  obtain ⟨hpushes, hrunning, hcanceled⟩ := hb
  constructor
  · rintro ⟨hall, -, -⟩
    omega
  · intro hexpired
    exact ⟨by omega, hrunning, by omega⟩

theorem Rep.perform {a : Act τ} (h : s.Shows live) (hg : Allowed s a) :
    ∃ s' live', perform s a = some s' ∧ s'.Shows live' := by
  cases a with
  | start t interval callBack now =>
      have hhandle : (s.timer t).handle = none := hg
      have hstart : Multimap.start s t interval callBack now = .ok _ := if_neg (by simp [hhandle])
      have hshows := h.start (h.handle_eq_none.mp hhandle) (now + interval) callBack
      exact ⟨_, _, by rw [Multimap.perform, hstart]; rfl, hshows⟩
  | stop t =>
      obtain ⟨s', hs', -, -, h'⟩ := h.stop t
      exact ⟨s', _, by rw [Multimap.perform, hs']; rfl, h'⟩
  | expireNext =>
      obtain ⟨t, ht⟩ := hg
      obtain ⟨now, hleast⟩ := h.exists_least (h.handle_eq_none.not.mp ht)
      obtain ⟨s', -, live', hs', -, -, h', -⟩ := expireNext_fired h hleast
      exact ⟨s', live', by rw [Multimap.perform, hs']; rfl, h'⟩

theorem Balance.perform {a : Act τ} (hb : Balance s 0) (h : s.Shows live)
    (hs : perform s a = some s') : Balance s' 0 ∧
      (a ≠ .expireNext → s'.expiredTimers = s.expiredTimers) ∧
      (a = .expireNext → s.expiredTimers < s'.expiredTimers) := by
  cases a with
  | start t interval callBack now =>
      cases hop : Multimap.start s t interval callBack now with
      | error e => simp [Multimap.perform, hop, Except.toOption] at hs
      | ok s1 =>
          obtain rfl : s1 = s' := by simpa [Multimap.perform, hop, Except.toOption] using hs
          obtain ⟨hb', hexpired⟩ := hb.start hop
          exact ⟨hb', fun _ => hexpired, fun heq => by cases heq⟩
  | stop t =>
      cases hop : Multimap.stop s t with
      | error e => simp [Multimap.perform, hop, Except.toOption] at hs
      | ok s1 =>
          obtain rfl : s1 = s' := by simpa [Multimap.perform, hop, Except.toOption] using hs
          obtain ⟨hb', hexpired⟩ := hb.stop h hop
          exact ⟨hb', fun _ => hexpired, fun heq => by cases heq⟩
  | expireNext =>
      cases hop : Multimap.expireNext s with
      | error e => simp [Multimap.perform, hop, Except.toOption] at hs
      | ok s1 =>
          obtain rfl : s1 = s' := by simpa [Multimap.perform, hop, Except.toOption] using hs
          obtain ⟨hb', hexpired⟩ := hb.expireNext h hop
          exact ⟨hb', fun hne => absurd rfl hne, fun _ => hexpired⟩

omit [DecidableEq τ] in
theorem balance_initial : Balance (initial : State τ) 0 := ⟨rfl, rfl, rfl⟩

end Runs

/-- The counters are right in every state of a program exactly if it does not
call `expire_next`. -/
theorem counters_accounted_iff [DecidableEq τ] (acts : List (Act τ))
    (hg : Along perform Allowed initial acts) :
    Throughout perform (Accounted (τ := τ)) initial acts ↔ .expireNext ∉ acts := by
  suffices hrun : ∀ (s : State τ) live, s.Shows live → Balance s 0 → s.expiredTimers = 0 →
      Along perform Allowed s acts → (Throughout perform Accounted s acts ↔ .expireNext ∉ acts) from
    hrun initial _ rep_initial balance_initial rfl hg
  clear hg
  intro s live hshows hb hexpired hg
  induction acts generalizing s live with
  | nil => simpa [Throughout] using hb.accounted_iff.mpr hexpired
  | cons a acts ih =>
      obtain ⟨hallowed, hmore⟩ := hg
      obtain ⟨s', live', hs', hshows'⟩ := hshows.perform hallowed
      obtain ⟨hb', hsame, hmoreExpired⟩ := hb.perform hshows hs'
      have hnext : Throughout perform Accounted s (a :: acts) ↔ Throughout perform Accounted s' acts := by
        simp [Throughout, hs', hb.accounted_iff.mpr hexpired]
      rw [hnext, List.mem_cons, not_or]
      by_cases ha : .expireNext = a
      · -- From here on the expired timers are counted twice.
        have hwrong : ¬ Accounted s' := by
          rw [hb'.accounted_iff]
          have hlt := hmoreExpired ha.symm
          omega
        have hnot : ¬ Throughout perform Accounted s' acts := by
          intro hthrough
          cases acts with
          | nil => exact hwrong hthrough
          | cons b acts => exact hwrong hthrough.1
        exact ⟨fun hthrough => absurd hthrough hnot, fun hno => absurd ha hno.1⟩
      · rw [ih s' live' hshows' hb' ((hsame (Ne.symm ha)).trans hexpired) (hmore s' hs')]
        exact ⟨fun hno => ⟨ha, hno⟩, And.right⟩

/-- One timer is stopped and another one still runs. -/
theorem accounted_without_expire :
    Throughout perform (Accounted (τ := Fin 2)) initial
        [.start 0 10 [] 0, .stop 0, .start 1 20 [] 0] ↔
      .expireNext ∉ ([.start 0 10 [] 0, .stop 0, .start 1 20 [] 0] : List (Act (Fin 2))) := by
  refine counters_accounted_iff _ (along_of_step rfl rfl ?_)
  refine along_of_step trivial rfl ?_
  exact along_of_step rfl rfl trivial

/-- One timer that expires is counted as expired and as cancelled. -/
theorem expired_timer_counted_twice :
    Along perform Allowed (initial : State (Fin 1)) [.start 0 10 [] 0, .expireNext] ∧
      ∃ s : State (Fin 1), run perform initial [.start 0 10 [] 0, .expireNext] = some s ∧
        s.nextNode = 1 ∧ s.expiredTimers = 1 ∧ s.canceledTimers = 1 ∧ ¬ Accounted s := by
  refine ⟨along_of_step rfl rfl (along_of_step ⟨0, nofun⟩ rfl trivial), _, rfl, rfl, rfl, rfl, ?_⟩
  intro h
  exact absurd h.pushes (by decide)

end Timers.Multimap
