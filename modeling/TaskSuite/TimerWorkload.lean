import TaskSuite.TimerAgreement

/-! The program that `generate()` of `timer_test.cxx` runs on the two reference
implementations. The random intervals are a parameter, and so is the comparison of
doubles that decides about the additional calls of `expire_next`. -/
namespace Timers.Workload
open Machine Tandem

/-- The table `durations`, in nanoseconds. It is not sorted: 7 seconds are followed by 3. -/
def durations : List Int :=
  [100, 150, 200, 250, 500].map (· * 1000) ++
    [1, 2, 3, 4, 5, 6, 8, 10, 12, 15, 20, 25, 30, 50, 100, 200, 500, 1000, 1200, 1500, 1800, 2000, 2200,
      2500, 5000, 7000].map (· * 1000000) ++
    [3, 4, 5, 6, 7, 8, 9, 10].map (· * 1000000000)

def duration (index : ℕ) : Int := durations.getD index 0

def maxIntervalIndex : ℕ := 38

/-- The integer division comes first. -/
def now (loopsize n : ℕ) : TimePoint := ((10000000000 / loopsize * n : ℕ) : Int)

/-- The number of turns of the first loop, if `loopsize` is not less. -/
@[irreducible] def filling : ℕ := 131215

section Program
variable (loopsize : ℕ) (randomIntervals : ℕ → ℕ)

/-- Half the time, the timer is cancelled before it expires. -/
def Cancels (n : ℕ) : Prop := n % 2 = 0 ∧ 0 < randomIntervals n

instance (n : ℕ) : Decidable (Cancels randomIntervals n) := inferInstanceAs (Decidable (_ ∧ _))

def starts (n nt : ℕ) : List (Act ℕ) :=
  .start nt (duration (randomIntervals n)) [] (now loopsize n) ::
    if Cancels randomIntervals n then
      [.start (nt + 1) (duration (randomIntervals n - 1)) [nt] (now loopsize n)]
    else []

/-- `nt` after the turn. -/
def nextTimer (n nt : ℕ) : ℕ := if Cancels randomIntervals n then nt + 2 else nt + 1

def firstLoop : ℕ → ℕ → ℕ → List (Act ℕ)
  | 0, _, _ => []
  | turns + 1, n, nt =>
      starts loopsize randomIntervals n nt ++
        ((if Cancels randomIntervals n then [.expireNext] else []) ++
          firstLoop turns (n + 1) (nextTimer randomIntervals n nt))

/-- `nt` after some turns. -/
def timersUsed : ℕ → ℕ → ℕ → ℕ
  | 0, _, nt => nt
  | turns + 1, n, nt => timersUsed turns (n + 1) (nextTimer randomIntervals n nt)

/-- The second loop; `more m n` stands for `m < n * fraction`. -/
def secondLoop (more : ℕ → ℕ → Bool) : ℕ → ℕ → ℕ → ℕ → List (Act ℕ)
  | 0, _, _, _ => []
  | turns + 1, n, nt, m =>
      starts loopsize randomIntervals n nt ++
        (.expireNext :: ((if more m n then [.expireNext] else []) ++
          secondLoop more turns (n + 1) (nextTimer randomIntervals n nt) (if more m n then m + 1 else m)))

/-- `m` begins at `131215 * fraction`. -/
def generate (more : ℕ → ℕ → Bool) (m : ℕ) : List (Act ℕ) :=
  firstLoop loopsize randomIntervals (min filling loopsize) 0 0 ++
    secondLoop loopsize randomIntervals more (loopsize - filling) filling
      (timersUsed randomIntervals (min filling loopsize) 0 0) m

/-- The timers of type Y that `extra_timers` has been counted up to. -/
def extraTimers (turns : ℕ) : ℕ := (List.range turns).countP fun n => Cancels randomIntervals n

end Program

theorem duration_ne {index : ℕ} (hpos : 0 < index) (hle : index ≤ maxIntervalIndex) :
    duration index ≠ duration (index - 1) := by
  have hall : ∀ i : Fin 39, 0 < i.val → duration i.val ≠ duration (i.val - 1) := by decide
  exact hall ⟨index, Nat.lt_succ_of_le hle⟩ hpos

/-! ### What the program keeps -/

variable {Q : PriorityQueue TimePoint ℕ}

/-- A timer of type Y stops the timer of type X that was started right before it, and
does not expire together with it. -/
structure Paired (s : State Q) (nt : ℕ) : Prop where
  sim : ∃ live, Sim s live
  started : s.started = (List.range nt).reverse
  fresh : ∀ t, nt ≤ t → s.zero.callBacks t = []
  stops : ∀ t u, u ∈ s.zero.callBacks t →
    t = u + 1 ∧ ∀ x y, s.zero.running t = some x → s.zero.running u = some y → x ≠ y

theorem paired_initial : Paired (initial : State Q) 0 where
  sim := ⟨Live.none, sim_initial⟩
  started := rfl
  fresh _ _ := rfl
  stops t u hu := by cases hu

section Steps
variable {s u : State Q} {nt : ℕ}

theorem both_zero {op₀ : Multimap.State ℕ → Multimap.Result ℕ} {op₁ : Heap.State Q → Heap.Result Q}
    (h : both s op₀ op₁ = some u) : op₀ s.zero = .ok u.zero ∧ u.started = s.started := by
  unfold both at h
  split at h
  · cases h
  · next zero hzero =>
      split at h
      · cases h
      · cases h
        exact ⟨hzero, rfl⟩

theorem Paired.undisturbed (h : Paired s nt) (point : TimePoint) :
    Undisturbed s.zero.callBacks point s.zero.running := by
  intro t v ht hv _ hrunning
  exact (h.stops t v hv).2 point point ht hrunning rfl

theorem Paired.allowed_expireNext (h : Paired s nt) (hlive : ∃ t, s.zero.running t ≠ none) :
    Allowed s .expireNext := ⟨hlive, fun point _ => h.undisturbed point⟩

theorem Paired.allowed_start (h : Paired s nt) (interval : Int) (callBack : List ℕ)
    (point : TimePoint) : Allowed s (.start nt interval callBack point) := by
  intro hin
  rw [h.started, List.mem_reverse, List.mem_range] at hin
  exact lt_irrefl nt hin

theorem Paired.running_fresh (h : Paired s nt) {t : ℕ} (ht : nt ≤ t) : s.zero.running t = none := by
  obtain ⟨live, hsim⟩ := h.sim
  rw [← hsim.zero.eq_running]
  by_contra hlive
  have hin := hsim.live_started t hlive
  rw [h.started, List.mem_reverse, List.mem_range] at hin
  exact absurd ht (not_le.mpr hin)

theorem Paired.start (h : Paired s nt) {interval : Int} {callBack : List ℕ} {point : TimePoint}
    (hs : step s (.start nt interval callBack point) = some u) :
    (∃ live, Sim u live) ∧ u.started = nt :: s.started ∧
      u.zero.running = Function.update s.zero.running nt (some (point + interval)) ∧
      u.zero.callBacks = Function.update s.zero.callBacks nt callBack := by
  obtain ⟨live, hsim⟩ := h.sim
  obtain ⟨u', hu', hsim'⟩ := hsim.step (h.allowed_start interval callBack point)
  rw [hs] at hu'
  cases hu'
  refine ⟨hsim', ?_⟩
  simp only [step, Option.map_eq_some_iff] at hs
  obtain ⟨v, hv, rfl⟩ := hs
  obtain ⟨hzero, -⟩ := both_zero hv
  have hrun : live nt = none := by
    rw [hsim.zero.eq_running]
    exact h.running_fresh le_rfl
  have hhandle := hsim.zero.handle_eq_none.mpr hrun
  simp only [Multimap.start, hhandle, Option.isSome_none, Bool.false_eq_true, if_false,
    Except.ok.injEq] at hzero
  refine ⟨rfl, ?_, ?_⟩
  · funext t
    simp only [Multimap.State.running, ← hzero]
    by_cases ht : t = nt
    · subst ht
      simp
    · rw [Function.update_of_ne ht, Function.update_of_ne ht]
      rfl
  · funext t
    simp only [Multimap.State.callBacks, ← hzero]
    by_cases ht : t = nt
    · subst ht
      simp
    · rw [Function.update_of_ne ht, Function.update_of_ne ht]
      rfl

theorem Paired.expireNext (h : Paired s nt) (hlive : ∃ t, s.zero.running t ≠ none)
    (hs : step s .expireNext = some u) : Paired u nt := by
  obtain ⟨live, hsim⟩ := h.sim
  obtain ⟨u', hu', hsim'⟩ := hsim.step (h.allowed_expireNext hlive)
  rw [hs] at hu'
  cases hu'
  simp only [step, Option.map_eq_some_iff] at hs
  obtain ⟨v, hv, rfl⟩ := hs
  obtain ⟨hzero, hstarted⟩ := both_zero hv
  obtain ⟨t, ht⟩ := hlive
  rw [← hsim.zero.eq_running] at ht
  obtain ⟨point, hleast⟩ := hsim.zero.exists_least ht
  obtain ⟨zero, new, live', hok, hfires, -, hshows, -, hcallBacks⟩ :=
    Multimap.expireNext_fired hsim.zero hleast
  rw [hzero] at hok
  cases hok
  have hund := h.undisturbed point
  rw [← hsim.zero.eq_running] at hund
  have hless : ∀ w x, v.zero.running w = some x → s.zero.running w = some x := by
    intro w x hw
    rw [← hshows.eq_running] at hw
    rw [← hsim.zero.eq_running]
    exact ((hfires.eq_some_iff hund).mp hw).1
  refine ⟨hsim', hstarted.trans h.started, ?_, ?_⟩
  · intro w hw
    exact (congrFun hcallBacks w).trans (h.fresh w hw)
  · intro w w' hw'
    obtain ⟨hsucc, hne⟩ := h.stops w w' ((congrFun hcallBacks w) ▸ hw')
    exact ⟨hsucc, fun x y hx hy => hne x y (hless w x hx) (hless w' y hy)⟩

section Turns
variable {loopsize : ℕ} {randomIntervals : ℕ → ℕ}

theorem Paired.startX (h : Paired s nt) {interval : Int} {point : TimePoint}
    (hs : step s (.start nt interval [] point) = some u) :
    Paired u (nt + 1) ∧ u.zero.running nt = some (point + interval) := by
  obtain ⟨hsim, hstarted, hrunning, hcallBacks⟩ := h.start hs
  refine ⟨⟨hsim, ?_, ?_, ?_⟩, ?_⟩
  · rw [hstarted, h.started, List.range_succ, List.reverse_append]
    rfl
  · intro t ht
    rw [hcallBacks, Function.update_of_ne (by omega)]
    exact h.fresh t (by omega)
  · intro t v hv
    rw [hcallBacks] at hv
    by_cases ht : t = nt
    · subst ht
      rw [Function.update_self] at hv
      cases hv
    · rw [Function.update_of_ne ht] at hv
      obtain ⟨hsucc, hne⟩ := h.stops t v hv
      refine ⟨hsucc, ?_⟩
      have htnt : t < nt := by
        by_contra hge
        rw [h.fresh t (not_lt.mp hge)] at hv
        cases hv
      rw [hrunning, Function.update_of_ne ht, Function.update_of_ne (by omega)]
      exact hne
  · rw [hrunning, Function.update_self]

theorem Paired.startY (h : Paired s (nt + 1)) {interval interval' : Int} {point : TimePoint}
    (hx : s.zero.running nt = some (point + interval)) (hne : interval ≠ interval')
    (hs : step s (.start (nt + 1) interval' [nt] point) = some u) :
    Paired u (nt + 2) ∧ u.zero.running nt = some (point + interval) := by
  obtain ⟨hsim, hstarted, hrunning, hcallBacks⟩ := h.start hs
  have hx' : u.zero.running nt = some (point + interval) := by
    rw [hrunning, Function.update_of_ne (by omega), hx]
  refine ⟨⟨hsim, ?_, ?_, ?_⟩, hx'⟩
  · rw [hstarted, h.started, List.range_succ (n := nt + 1), List.reverse_append]
    rfl
  · intro t ht
    rw [hcallBacks, Function.update_of_ne (by omega)]
    exact h.fresh t (by omega)
  · intro t v hv
    rw [hcallBacks] at hv
    by_cases ht : t = nt + 1
    · subst ht
      rw [Function.update_self, List.mem_singleton] at hv
      subst hv
      refine ⟨rfl, ?_⟩
      intro x y hrun hrun'
      rw [hx', Option.some_inj] at hrun'
      rw [hrunning, Function.update_self, Option.some_inj] at hrun
      intro hxy
      rw [← hrun, ← hrun'] at hxy
      exact hne (Int.add_left_cancel hxy).symm
    · rw [Function.update_of_ne ht] at hv
      obtain ⟨hsucc, hother⟩ := h.stops t v hv
      refine ⟨hsucc, ?_⟩
      have htnt : t < nt + 1 := by
        by_contra hge
        rw [h.fresh t (not_lt.mp hge)] at hv
        cases hv
      rw [hrunning, Function.update_of_ne ht, Function.update_of_ne (by omega)]
      exact hother

variable {guard : State Q → Act ℕ → Prop} {rest : List (Act ℕ)}

theorem along_starts (hguard : ∀ v a, Allowed v a → guard v a)
    (hrandom : ∀ n, randomIntervals n ≤ maxIntervalIndex) {n : ℕ} (h : Paired s nt)
    (hrest : ∀ v, Paired v (nextTimer randomIntervals n nt) → v.zero.running nt ≠ none →
      Along step guard v rest) :
    Along step guard s (starts loopsize randomIntervals n nt ++ rest) := by
  refine ⟨hguard _ _ (h.allowed_start _ _ _), ?_⟩
  intro v hv
  obtain ⟨hpaired, hx⟩ := h.startX hv
  unfold nextTimer at hrest
  split_ifs at hrest ⊢ with hcancels
  · refine ⟨hguard _ _ (hpaired.allowed_start _ _ _), ?_⟩
    intro w hw
    obtain ⟨hpaired', hx'⟩ := hpaired.startY hx (duration_ne hcancels.2 (hrandom n)) hw
    apply hrest w hpaired'
    rw [hx']
    exact Option.some_ne_none _
  · apply hrest v hpaired
    rw [hx]
    exact Option.some_ne_none _

theorem along_expireNext (hguard : ∀ v a, Allowed v a → guard v a) (h : Paired s nt)
    (hlive : ∃ t, s.zero.running t ≠ none) (hrest : ∀ v, Paired v nt → Along step guard v rest) :
    Along step guard s (.expireNext :: rest) := by
  refine ⟨hguard _ _ (h.allowed_expireNext hlive), ?_⟩
  intro v hv
  exact hrest v (h.expireNext hlive hv)

/-- The first loop, whatever follows on it. -/
theorem along_firstLoop (hguard : ∀ v a, Allowed v a → guard v a)
    (hrandom : ∀ n, randomIntervals n ≤ maxIntervalIndex) (turns n : ℕ) (h : Paired s nt)
    (hrest : ∀ v, Paired v (timersUsed randomIntervals turns n nt) → Along step guard v rest) :
    Along step guard s (firstLoop loopsize randomIntervals turns n nt ++ rest) := by
  induction turns generalizing n nt s with
  | zero => exact hrest s h
  | succ turns ih =>
      rw [firstLoop, List.append_assoc, List.append_assoc]
      apply along_starts hguard hrandom h
      intro v hv hx
      split_ifs with hcancels
      · apply along_expireNext hguard hv ⟨nt, hx⟩
        intro w hw
        exact ih (n + 1) hw hrest
      · exact ih (n + 1) hv hrest

/-- With nothing left running, the assert of implementation 1 fails. -/
theorem expireNext_eq_none {live : Live ℕ} (hsim : Sim s live)
    (hnone : ∀ t, s.zero.running t = none) : step s .expireNext = none := by
  rw [Option.eq_none_iff_forall_ne_some]
  intro v hv
  simp only [step, Option.map_eq_some_iff] at hv
  obtain ⟨w, hw, rfl⟩ := hv
  unfold both at hw
  split at hw
  · cases hw
  · next zero hzero =>
      have hnot : ¬ Least live zero.lastTimePoint := by
        rintro ⟨⟨t, ht⟩, -⟩
        rw [hsim.zero.eq_running, hnone t] at ht
        cases ht
      obtain ⟨one, hone, -⟩ :=
        Heap.expireNext_aborts (s := { s.one with lastTimePoint := zero.lastTimePoint }) hsim.one hnot
      rw [hone] at hw
      cases hw

/-- What the second loop does not exclude. -/
def AllowedOrEmpty (s : State Q) (a : Act ℕ) : Prop :=
  Allowed s a ∨ a = .expireNext ∧ ∀ t, s.zero.running t = none

theorem along_secondLoop (hrandom : ∀ n, randomIntervals n ≤ maxIntervalIndex) (more : ℕ → ℕ → Bool)
    (turns n m : ℕ) (h : Paired s nt) :
    Along step AllowedOrEmpty s (secondLoop loopsize randomIntervals more turns n nt m) := by
  have hguard : ∀ (v : State Q) a, Allowed v a → AllowedOrEmpty v a := fun _ _ ha => .inl ha
  induction turns generalizing n nt m s with
  | zero => trivial
  | succ turns ih =>
      rw [secondLoop]
      apply along_starts hguard hrandom h
      intro v hv hx
      apply along_expireNext hguard hv ⟨nt, hx⟩
      intro w hw
      split_ifs with hmore
      · by_cases hlive : ∃ t, w.zero.running t ≠ none
        · apply along_expireNext hguard hw hlive
          intro x hx
          exact ih (n + 1) (m + 1) hx
        · simp only [ne_eq, not_exists, not_not] at hlive
          refine ⟨.inr ⟨rfl, hlive⟩, ?_⟩
          intro x hx
          obtain ⟨live, hsim⟩ := hw.sim
          rw [expireNext_eq_none hsim hlive] at hx
          cases hx
      · exact ih (n + 1) m hw

end Turns

end Steps

/-! ### The results of generate() -/

section Results
variable {loopsize : ℕ} {randomIntervals : ℕ → ℕ}

theorem guard_of_along {guard : State Q → Act ℕ → Prop} {s u : State Q} {front back : List (Act ℕ)}
    {a : Act ℕ} (hg : Along step guard s (front ++ a :: back)) (hrun : run step s front = some u) :
    guard u a ∧ Along step guard s front := by
  induction front generalizing s with
  | nil =>
      cases hrun
      exact ⟨hg.1, trivial⟩
  | cons b front ih =>
      obtain ⟨v, hv, hrun⟩ := run_cons.mp hrun
      obtain ⟨hguard, -⟩ := ih (hg.2 v hv) hrun
      refine ⟨hguard, hg.1, ?_⟩
      intro w hw
      rw [hv] at hw
      cases hw
      exact (ih (hg.2 v hv) hrun).2

theorem along_generate (loopsize : ℕ) (hrandom : ∀ n, randomIntervals n ≤ maxIntervalIndex)
    (more : ℕ → ℕ → Bool) (m : ℕ) :
    Along step AllowedOrEmpty (initial : State Q) (generate loopsize randomIntervals more m) := by
  unfold generate
  apply along_firstLoop (fun _ _ ha => .inl ha) hrandom _ _ paired_initial
  intro v hv
  exact along_secondLoop hrandom more _ _ _ hv

def startedBy (acts : List (Act ℕ)) : List ℕ :=
  acts.filterMap fun a =>
    match a with
    | .start t _ _ _ => some t
    | _ => none

theorem started_step {s u : State Q} {a : Act ℕ} (hs : step s a = some u) :
    u.started = (startedBy [a]).reverse ++ s.started := by
  cases a with
  | start t interval callBack point =>
      simp only [step, Option.map_eq_some_iff] at hs
      obtain ⟨v, hv, rfl⟩ := hs
      rfl
  | stop t =>
      simp only [step] at hs
      exact (both_zero hs).2
  | expireNext =>
      simp only [step, Option.map_eq_some_iff] at hs
      obtain ⟨v, hv, rfl⟩ := hs
      exact (both_zero hv).2

theorem started_run {s u : State Q} {acts : List (Act ℕ)} (hrun : run step s acts = some u) :
    u.started = (startedBy acts).reverse ++ s.started := by
  induction acts generalizing s with
  | nil =>
      cases hrun
      rfl
  | cons a acts ih =>
      obtain ⟨v, hv, hrun⟩ := run_cons.mp hrun
      have happend : startedBy (a :: acts) = startedBy [a] ++ startedBy acts := by
        rw [startedBy, startedBy, startedBy, ← List.filterMap_append]
        rfl
      rw [ih hrun, started_step hv, happend, List.reverse_append, List.append_assoc]

theorem startedBy_append (acts more : List (Act ℕ)) :
    startedBy (acts ++ more) = startedBy acts ++ startedBy more := List.filterMap_append

theorem startedBy_starts (n nt : ℕ) : startedBy (starts loopsize randomIntervals n nt) =
    List.range' nt (nextTimer randomIntervals n nt - nt) := by
  unfold starts nextTimer
  split_ifs with hcancels
  · rw [Nat.add_sub_cancel_left]
    rfl
  · rw [Nat.add_sub_cancel_left]
    rfl

theorem timersUsed_eq (turns n nt : ℕ) : timersUsed randomIntervals turns n nt =
    nt + turns + (List.range' n turns).countP fun n => Cancels randomIntervals n := by
  induction turns generalizing n nt with
  | zero => rfl
  | succ turns ih =>
      rw [timersUsed, ih, List.range'_succ, List.countP_cons]
      unfold nextTimer
      by_cases hcancels : Cancels randomIntervals n
      · rw [if_pos hcancels, if_pos (decide_eq_true hcancels)]
        omega
      · rw [if_neg hcancels, if_neg (by simpa using hcancels)]
        omega

theorem startedBy_firstLoop (turns n nt : ℕ) :
    startedBy (firstLoop loopsize randomIntervals turns n nt) =
      List.range' nt (timersUsed randomIntervals turns n nt - nt) := by
  induction turns generalizing n nt with
  | zero =>
      rw [timersUsed, Nat.sub_self]
      rfl
  | succ turns ih =>
      have hnone : startedBy (if Cancels randomIntervals n then [.expireNext] else []) = [] := by
        split_ifs <;> rfl
      have hnext : nt ≤ nextTimer randomIntervals n nt := by
        unfold nextTimer
        split_ifs <;> omega
      have hlater : nextTimer randomIntervals n nt ≤
          timersUsed randomIntervals turns (n + 1) (nextTimer randomIntervals n nt) := by
        rw [timersUsed_eq]
        omega
      rw [firstLoop, startedBy_append, startedBy_append, startedBy_starts, hnone, ih, timersUsed,
        List.nil_append]
      obtain ⟨i, hi⟩ := Nat.exists_eq_add_of_le hnext
      obtain ⟨j, hj⟩ := Nat.exists_eq_add_of_le hlater
      rw [hj, hi, Nat.add_sub_cancel_left, Nat.add_sub_cancel_left, List.range'_append_1, Nat.add_assoc,
        Nat.add_sub_cancel_left]

/-- The first loop always goes through: it never comes to an `expire_next` with nothing
left. Each of the timers that the vectors have room for is started once. -/
theorem firstLoop_completes (Q : PriorityQueue TimePoint ℕ) (loopsize : ℕ) (randomIntervals : ℕ → ℕ)
    (hrandom : ∀ n, randomIntervals n ≤ maxIntervalIndex) (turns : ℕ) :
    ∃ s : State Q, run step initial (firstLoop loopsize randomIntervals turns 0 0) = some s ∧
      (∀ r ∈ s.rounds, Agree r) ∧
      s.started = (List.range (turns + extraTimers randomIntervals turns)).reverse := by
  have halong : Along step Allowed (initial : State Q)
      (firstLoop loopsize randomIntervals turns 0 0 ++ []) :=
    along_firstLoop (fun _ _ ha => ha) hrandom turns 0 paired_initial fun _ _ => trivial
  rw [List.append_nil] at halong
  obtain ⟨s, hrun, live, hsim⟩ := progress_along (I := fun u : State Q => ∃ live, Sim u live)
    (fun _ _ h hg => h.elim fun _ h => h.step hg) ⟨Live.none, sim_initial⟩ halong
  refine ⟨s, hrun, hsim.agree, ?_⟩
  rw [started_run hrun, startedBy_firstLoop, timersUsed_eq, List.range_eq_range', extraTimers,
    List.range_eq_range']
  simp [initial]

/-- Three turns with the last of the intervals, of which two start a timer of type Y. -/
theorem firstLoop_completes_three :
    ∃ s : State (PriorityQueue.sorted TimePoint ℕ),
      run step initial (firstLoop 3 (fun _ => 38) 3 0 0) = some s ∧ s.started = [4, 3, 2, 1, 0] := by
  obtain ⟨s, hrun, -, hstarted⟩ :=
    firstLoop_completes (PriorityQueue.sorted TimePoint ℕ) 3 (fun _ => 38) (fun _ => le_rfl) 3
  exact ⟨s, hrun, hstarted⟩

end Results

end Timers.Workload
