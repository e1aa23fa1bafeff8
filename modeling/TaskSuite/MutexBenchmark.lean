import TaskSuite.Completion
import TaskSuite.Tally

/-! The threads of `mutex_benchmark.cxx`. They wait for a condition variable, and then spin
until they get hold of the flag `block`, which `main` clears once in each run. -/
namespace MutexBenchmark
open Machine Tally

/-- The places in `thread_main`; `absent` is a thread that was not started or has been
joined. -/
inductive Pc where
  | absent
  /-- the constructor of `lk` -/
  | lockCv
  /-- `cv.wait(lk)` is called -/
  | wait
  | waiting
  /-- `cv.wait(lk)` is going to return -/
  | relock
  /-- the destructor of `lk` -/
  | unlockCv
  /-- `block.test_and_set()` -/
  | spin
  /-- `m.lock()` for the turn `i` -/
  | lock (i : ℕ)
  /-- `m.unlock()` -/
  | unlock (i : ℕ)
  | done
  deriving DecidableEq, Repr

/-- The places in the loop of `main`, with the number of runs that come after this one. -/
inductive MainPc where
  /-- `block.test_and_set()` -/
  | setBlock (left : ℕ)
  | start (left : ℕ)
  | lockCv (left : ℕ)
  /-- `cv.notify_all()` -/
  | notify (left : ℕ)
  | unlockCv (left : ℕ)
  /-- `block.clear()` -/
  | clear (left : ℕ)
  | join (left : ℕ)
  | finished
  deriving DecidableEq, Repr

inductive Holder (ι : Type) where
  | main
  | thread (i : ι)
  deriving DecidableEq

structure State (ι : Type) where
  cvMutex : Option (Holder ι)
  m : Option ι
  block : Bool
  pc : ι → Pc
  main : MainPc

inductive Label (ι : Type) where
  /-- `enough` is what `fc.add` returns after the threads are joined. -/
  | main (enough : Bool)
  | thread (i : ι)
  /-- `cv.wait` returns although it was not notified. -/
  | spurious (i : ι)

variable {ι : Type}

def initial (left : ℕ) : State ι := ⟨none, none, false, fun _ => .absent, .setBlock left⟩

variable [DecidableEq ι]

def State.set (s : State ι) (i : ι) (x : Pc) : State ι := { s with pc := Function.update s.pc i x }

/-- A thread that waits for a mutex or to be notified has no step; one that finds `block`
set goes on spinning. `turns` is the number of turns of the loop. -/
def stepThread (turns : ℕ) (s : State ι) (i : ι) : Option (State ι) :=
  match s.pc i with
  | .absent | .waiting | .done => none
  | .lockCv =>
      if s.cvMutex = none then some ({ s with cvMutex := some (.thread i) }.set i .wait) else none
  | .wait => some ({ s with cvMutex := none }.set i .waiting)
  | .relock =>
      if s.cvMutex = none then some ({ s with cvMutex := some (.thread i) }.set i .unlockCv) else none
  | .unlockCv => some ({ s with cvMutex := none }.set i .spin)
  | .spin => if s.block then some s else some ({ s with block := true }.set i (.lock 0))
  | .lock n =>
      if n < turns then
        if s.m = none then some ({ s with m := some i }.set i (.unlock n)) else none
      else some (s.set i .done)
  | .unlock n => some ({ s with m := none }.set i (.lock (n + 1)))

variable [Fintype ι]

def stepMain (s : State ι) (enough : Bool) : Option (State ι) :=
  match s.main with
  | .setBlock left => some { s with block := true, main := .start left }
  | .start left => some { s with pc := fun _ => .lockCv, main := .lockCv left }
  | .lockCv left =>
      if s.cvMutex = none then some { s with cvMutex := some .main, main := .notify left } else none
  | .notify left =>
      some { s with
        pc := fun i => if s.pc i = .waiting then .relock else s.pc i
        main := .unlockCv left }
  | .unlockCv left => some { s with cvMutex := none, main := .clear left }
  | .clear left => some { s with block := false, main := .join left }
  | .join left =>
      if ∀ i, s.pc i = .done then
        some { s with
          pc := fun _ => .absent
          main := match enough, left with
            | false, left + 1 => .setBlock left
            | _, _ => .finished }
      else none
  | .finished => none

def step (turns : ℕ) (s : State ι) : Label ι → Option (State ι)
  | .main enough => stepMain s enough
  | .thread i => stepThread turns s i
  | .spurious i => if s.pc i = .waiting then some (s.set i .relock) else none

/-! ### Who gets past the flag -/

/-- The thread was the one that found the flag clear. -/
def Pc.passed : Pc → ℤ
  | .lock _ | .unlock _ | .done => 1
  | _ => 0

/-- The flag has been set, and is still to be cleared. -/
def MainPc.armed : MainPc → ℤ
  | .start _ | .lockCv _ | .notify _ | .unlockCv _ | .clear _ => 1
  | .setBlock _ | .join _ | .finished => 0

def State.flagClear (s : State ι) : ℤ := if s.block then 0 else 1

/-- The flag lets one thread pass for each time that it is cleared. -/
structure Inv (s : State ι) : Prop where
  once : tally Pc.passed s.pc + s.flagClear + s.main.armed ≤ 1
  absent : ∀ left, s.main = .setBlock left → ∀ i, s.pc i = .absent
  finished : s.main = .finished → Fintype.card ι ≤ 1

omit [DecidableEq ι] in
theorem inv_initial (left : ℕ) : Inv (initial left : State ι) where
  once := by
    have hnone : tally Pc.passed (initial left : State ι).pc = 0 := tally_const _ _ rfl
    rw [hnone]
    simp [initial, State.flagClear, MainPc.armed]
  absent := fun _ _ _ => rfl
  finished := by
    intro h
    cases h

theorem Pc.passed_nonneg (x : Pc) : 0 ≤ x.passed := by
  cases x <;> simp [passed]

omit [DecidableEq ι] [Fintype ι] in
theorem State.flagClear_nonneg (s : State ι) : 0 ≤ s.flagClear := by
  unfold State.flagClear
  split_ifs <;> decide

section Steps
variable {turns : ℕ} {s s' : State ι}

theorem Inv.move (h : Inv s) {i : ι} {x : Pc} (hpc : s'.pc = Function.update s.pc i x)
    (hmain : s'.main = s.main) (hblock : s'.block = s.block) (hx : x.passed = (s.pc i).passed)
    (habsent : s.pc i ≠ .absent) : Inv s' where
  once := by
    have honce := h.once
    unfold State.flagClear at *
    rw [hpc, hmain, hblock, tally_update, hx]
    omega
  absent := by
    intro left hleft
    rw [hmain] at hleft
    exact absurd (h.absent left hleft i) habsent
  finished := by
    rw [hmain]
    exact h.finished

theorem stepThread_inv (h : Inv s) {i : ι} (hs : stepThread turns s i = some s') : Inv s' := by
  cases hpc : s.pc i with
  | absent | waiting | done => simp [stepThread, hpc] at hs
  | lockCv | relock =>
      simp only [stepThread, hpc] at hs
      split_ifs at hs
      cases hs
      exact h.move rfl rfl rfl (by rw [hpc]; rfl) (by simp [hpc])
  | wait | unlockCv =>
      simp only [stepThread, hpc, Option.some.injEq] at hs
      subst hs
      exact h.move rfl rfl rfl (by rw [hpc]; rfl) (by simp [hpc])
  | lock n =>
      simp only [stepThread, hpc] at hs
      split_ifs at hs <;> cases hs <;> exact h.move rfl rfl rfl (by rw [hpc]; rfl) (by simp [hpc])
  | unlock n =>
      simp only [stepThread, hpc, Option.some.injEq] at hs
      subst hs
      exact h.move rfl rfl rfl (by rw [hpc]; rfl) (by simp [hpc])
  | spin =>
      simp only [stepThread, hpc] at hs
      split_ifs at hs with hblock
      · cases hs
        exact h
      · cases hs
        -- The thread takes the place of the clear flag.
        refine ⟨?_, ?_, h.finished⟩
        · have honce := h.once
          simp only [State.set, State.flagClear, tally_update, hpc, Pc.passed, if_neg hblock] at honce ⊢
          simp only [if_true]
          omega
        · intro left hleft
          have hthis := h.absent left hleft i
          rw [hpc] at hthis
          cases hthis

omit [DecidableEq ι] in
theorem stepMain_inv (h : Inv s) {enough : Bool} (hs : stepMain s enough = some s') : Inv s' := by
  have honce := h.once
  have hflag := s.flagClear_nonneg
  cases hmain : s.main with
  | finished => simp [stepMain, hmain] at hs
  | setBlock left =>
      simp only [stepMain, hmain, Option.some.injEq] at hs
      subst hs
      have hnone : tally Pc.passed s.pc = 0 := by
        apply tally_eq_zero
        intro i
        rw [h.absent left hmain i]
        rfl
      refine ⟨?_, by simp, by simp⟩
      simp [State.flagClear, MainPc.armed, hnone]
  | start left =>
      simp only [stepMain, hmain, Option.some.injEq] at hs
      subst hs
      have hnone : tally Pc.passed (fun _ : ι => Pc.lockCv) = 0 := tally_const _ _ rfl
      have hbefore := tally_nonneg Pc.passed_nonneg s.pc
      rw [hmain] at honce
      refine ⟨?_, by simp, by simp⟩
      simp only [State.flagClear, MainPc.armed, hnone] at honce hflag ⊢
      omega
  | lockCv left =>
      simp only [stepMain, hmain] at hs
      split_ifs at hs
      cases hs
      rw [hmain] at honce
      exact ⟨honce, by simp, by simp⟩
  | notify left =>
      simp only [stepMain, hmain, Option.some.injEq] at hs
      subst hs
      have hsame : tally Pc.passed (fun i => if s.pc i = .waiting then .relock else s.pc i) =
          tally Pc.passed s.pc := by
        apply Finset.sum_congr rfl
        intro i _
        dsimp only
        split_ifs with hwaiting
        · rw [hwaiting]
          rfl
        · rfl
      rw [hmain] at honce
      refine ⟨?_, by simp, by simp⟩
      rw [hsame]
      exact honce
  | unlockCv left =>
      simp only [stepMain, hmain, Option.some.injEq] at hs
      subst hs
      rw [hmain] at honce
      exact ⟨honce, by simp, by simp⟩
  | clear left =>
      simp only [stepMain, hmain, Option.some.injEq] at hs
      subst hs
      rw [hmain] at honce
      refine ⟨?_, by simp, by simp⟩
      simp only [State.flagClear, MainPc.armed, Bool.false_eq_true, if_false] at honce hflag ⊢
      omega
  | join left =>
      simp only [stepMain, hmain] at hs
      split_ifs at hs with hdone
      cases hs
      have hcard : tally Pc.passed s.pc = Fintype.card ι := by
        apply tally_eq_card
        intro i
        rw [hdone i]
        rfl
      have hnone : tally Pc.passed (fun _ : ι => Pc.absent) = 0 := tally_const _ _ rfl
      rw [hmain, hcard] at honce
      simp only [MainPc.armed] at honce
      refine ⟨?_, fun _ _ _ => rfl, fun _ => by omega⟩
      rw [hnone]
      have harmed : (match enough, left with
          | false, left + 1 => MainPc.setBlock left
          | _, _ => .finished).armed = 0 := by
        split <;> rfl
      simp only [State.flagClear, harmed] at *
      split_ifs <;> omega

theorem step_inv (h : Inv s) {a : Label ι} (hs : step turns s a = some s') : Inv s' := by
  cases a with
  | main enough => exact stepMain_inv h hs
  | thread i => exact stepThread_inv h hs
  | spurious i =>
      simp only [step] at hs
      split_ifs at hs with hwaiting
      cases hs
      exact h.move rfl rfl rfl (by rw [hwaiting]; rfl) (by simp [hwaiting])

end Steps

/-! ### One thread alone -/

section Alone
variable [Subsingleton ι] (turns : ℕ)

def together (cvMutex : Option (Holder ι)) (m : Option ι) (block : Bool) (x : Pc) (main : MainPc) : State ι :=
  ⟨cvMutex, m, block, fun _ => x, main⟩

omit [Fintype ι] in
theorem update_together (i : ι) (x y : Pc) : Function.update (fun _ : ι => x) i y = fun _ => y := by
  funext k
  rw [Subsingleton.elim k i, Function.update_self]

theorem alone_waits (block : Bool) (main : MainPc) :
    Reaches (step turns) (together none none block .lockCv main : State ι)
      (together none none block .waiting main) := by
  rcases isEmpty_or_nonempty ι with hempty | ⟨⟨i⟩⟩
  · rw [together, Subsingleton.elim (fun _ : ι => Pc.lockCv) (fun _ => .waiting)]
    exact Reaches.refl _
  · apply Reaches.head (a := .thread i) (t := together (some (.thread i)) none block .wait main)
    · simp [step, stepThread, State.set, together, update_together]
    · apply Reaches.head (a := .thread i) (t := together none none block .waiting main)
      · simp [step, stepThread, State.set, together, update_together]
      · exact Reaches.refl _

theorem alone_turns (i : ι) (main : MainPc) {left n : ℕ} (hn : n + left = turns) :
    Reaches (step turns) (together none none true (.lock n) main : State ι)
      (together none none true .done main) := by
  induction left generalizing n with
  | zero =>
      apply Reaches.head (a := .thread i) (t := together none none true .done main)
      · have hend : ¬ n < turns := by omega
        simp [step, stepThread, State.set, together, update_together, hend]
      · exact Reaches.refl _
  | succ left ih =>
      apply Reaches.head (a := .thread i) (t := together none (some i) true (.unlock n) main)
      · have hmore : n < turns := by omega
        simp [step, stepThread, State.set, together, update_together, hmore]
      · apply Reaches.head (a := .thread i) (t := together none none true (.lock (n + 1)) main)
        · simp [step, stepThread, State.set, together, update_together]
        · apply ih
          omega

theorem alone_passes (main : MainPc) :
    ∃ block, Reaches (step turns) (together none none false .relock main : State ι)
      (together none none block .done main) := by
  rcases isEmpty_or_nonempty ι with hempty | ⟨⟨i⟩⟩
  · refine ⟨false, ?_⟩
    rw [together, Subsingleton.elim (fun _ : ι => Pc.relock) (fun _ => .done)]
    exact Reaches.refl _
  · refine ⟨true, ?_⟩
    apply Reaches.head (a := .thread i) (t := together (some (.thread i)) none false .unlockCv main)
    · simp [step, stepThread, State.set, together, update_together]
    · apply Reaches.head (a := .thread i) (t := together none none false .spin main)
      · simp [step, stepThread, State.set, together, update_together]
      · apply Reaches.head (a := .thread i) (t := together none none true (.lock 0) main)
        · simp [step, stepThread, State.set, together, update_together]
        · exact alone_turns turns i main (Nat.zero_add turns)

/-- One run of `main`, from its beginning to where the threads are joined. -/
theorem alone_joins (block : Bool) (left : ℕ) :
    ∃ block', Reaches (step turns) (together none none block .absent (.setBlock left) : State ι)
      (together none none block' .done (.join left)) := by
  obtain ⟨block', hpass⟩ := alone_passes (ι := ι) turns (.join left)
  refine ⟨block', ?_⟩
  apply Reaches.head (a := .main false) (t := together none none true .absent (.start left)) rfl
  apply Reaches.head (a := .main false) (t := together none none true .lockCv (.lockCv left)) rfl
  refine (alone_waits turns true (.lockCv left)).trans ?_
  apply Reaches.head (a := .main false) (t := together (some .main) none true .waiting (.notify left)) rfl
  apply Reaches.head (a := .main false) (t := together (some .main) none true .relock (.unlockCv left)) rfl
  apply Reaches.head (a := .main false) (t := together none none true .relock (.clear left)) rfl
  apply Reaches.head (a := .main false) (t := together none none false .relock (.join left)) rfl
  exact hpass

theorem alone_finishes (block : Bool) (left : ℕ) :
    ∃ s, Reaches (step turns) (together none none block .absent (.setBlock left) : State ι) s ∧
      s.main = .finished := by
  induction left generalizing block with
  | zero =>
      obtain ⟨block', hjoins⟩ := alone_joins (ι := ι) turns block 0
      refine ⟨together none none block' .absent .finished, hjoins.trans ?_, rfl⟩
      apply Reaches.head (a := .main false) (t := together none none block' .absent .finished)
      · simp [step, stepMain, together]
      · exact Reaches.refl _
  | succ left ih =>
      obtain ⟨block', hjoins⟩ := alone_joins (ι := ι) turns block (left + 1)
      obtain ⟨s, hs, hfinished⟩ := ih block'
      refine ⟨s, hjoins.trans ?_, hfinished⟩
      apply Reaches.head (a := .main false) (t := together none none block' .absent (.setBlock left))
      · simp [step, stepMain, together]
      · exact hs

end Alone

/-- Whatever the number of runs and turns: `main` can come to its end only with at most one
thread. The flag is cleared once in a run, and the first thread that gets past it sets it
again, so that of two threads one spins for ever. -/
theorem main_finishes_iff (ι : Type) [DecidableEq ι] [Fintype ι] (turns left : ℕ) :
    (∃ s, Reaches (step turns) (initial left : State ι) s ∧ s.main = .finished) ↔
      Fintype.card ι ≤ 1 := by
  constructor
  · rintro ⟨s, ⟨labels, hrun⟩, hfinished⟩
    have h : Inv s := invariant (I := Inv) (fun _ _ _ hu hs => step_inv hu hs) (inv_initial left) hrun
    exact h.finished hfinished
  · intro hcard
    have hsub : Subsingleton ι := Fintype.card_le_one_iff_subsingleton.mp hcard
    exact alone_finishes turns false left

end MutexBenchmark
