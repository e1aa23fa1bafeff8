import TaskSuite.Machine
import TaskSuite.Tally

/-! The synchronisation of the threads at the start of each round in
`benchmark` of `mutex_test.cxx`. A label names the thread that does its next
atomic operation on one of the two shared counters; the measurement itself does
not touch them. -/
namespace BenchmarkBarrier
open Machine Tally

inductive Pc where
  /-- `benchmarking1.fetch_add(1)` -/
  | arrive1
  /-- `while (benchmarking1.load() < num_threads)` -/
  | spin1
  /-- `benchmarking2.fetch_add(1)` -/
  | arrive2
  /-- `while (benchmarking2.load() < num_threads)` -/
  | spin2
  /-- `benchmarking1.store(0)` -/
  | reset1
  /-- `benchmarking2.store(0)`, behind the measurement -/
  | reset2
  deriving DecidableEq, Repr

structure System (ι : Type*) where
  benchmarking1 : ℤ
  benchmarking2 : ℤ
  pc : ι → Pc
  /-- The rounds that a thread has not completed. -/
  rounds : ι → ℕ

variable {ι : Type*}

def initial (rounds : ι → ℕ) : System ι := ⟨0, 0, fun _ => .arrive1, rounds⟩

variable [Fintype ι]

/-- The next operation of thread `i`; refused once its rounds are done. A load
that keeps the thread in its loop changes nothing. -/
def step [DecidableEq ι] (σ : System ι) (i : ι) : Option (System ι) :=
  match σ.pc i with
  | .arrive1 =>
      if σ.rounds i = 0 then none
      else some { σ with benchmarking1 := σ.benchmarking1 + 1
                         pc := Function.update σ.pc i .spin1 }
  | .spin1 =>
      if σ.benchmarking1 < Fintype.card ι then some σ
      else some { σ with pc := Function.update σ.pc i .arrive2 }
  | .arrive2 =>
      some { σ with benchmarking2 := σ.benchmarking2 + 1
                    pc := Function.update σ.pc i .spin2 }
  | .spin2 =>
      if σ.benchmarking2 < Fintype.card ι then some σ
      else some { σ with pc := Function.update σ.pc i .reset1 }
  | .reset1 =>
      some { σ with benchmarking1 := 0, pc := Function.update σ.pc i .reset2 }
  | .reset2 =>
      some { σ with benchmarking2 := 0
                    pc := Function.update σ.pc i .arrive1
                    rounds := Function.update σ.rounds i (σ.rounds i - 1) }

/-- Thread `i` is in one of the loops and its condition is true. -/
def Spinning (σ : System ι) (i : ι) : Prop :=
  (σ.pc i = .spin1 ∧ σ.benchmarking1 < Fintype.card ι) ∨
  (σ.pc i = .spin2 ∧ σ.benchmarking2 < Fintype.card ι)

instance (σ : System ι) (i : ι) : Decidable (Spinning σ i) := inferInstanceAs (Decidable (_ ∨ _))

def LockedUp (σ : System ι) : Prop := ∀ i, 0 < σ.rounds i ∧ Spinning σ i

instance (σ : System ι) : Decidable (LockedUp σ) :=
  inferInstanceAs (Decidable (∀ i, 0 < σ.rounds i ∧ Spinning σ i))

/-- A thread does not clear the second counter under one that is still in the
second loop, and it does not enter its next round in front of one that is about
to clear the first counter. -/
def Orderly (σ : System ι) (i : ι) : Prop :=
  (σ.pc i = .reset2 → ∀ j, σ.pc j ≠ .spin2) ∧ (σ.pc i = .arrive1 → ∀ j, σ.pc j ≠ .reset1)

instance (σ : System ι) (i : ι) : Decidable (Orderly σ i) := inferInstanceAs (Decidable (_ ∧ _))

/-! Each counter is compared with the number of threads in its loop. -/

def Pc.inLoop1 : Pc → ℤ
  | .spin1 => 1
  | _ => 0

def Pc.inLoop2 : Pc → ℤ
  | .spin2 => 1
  | _ => 0

theorem Pc.inLoop1_le (x : Pc) : x.inLoop1 ≤ 1 := by cases x <;> decide
theorem Pc.inLoop2_le (x : Pc) : x.inLoop2 ≤ 1 := by cases x <;> decide

theorem Pc.eq_spin1 {x : Pc} (h : x.inLoop1 = 1) : x = .spin1 := by
  cases x <;> first | rfl | cases h

theorem Pc.eq_spin2 {x : Pc} (h : x.inLoop2 = 1) : x = .spin2 := by
  cases x <;> first | rfl | cases h

/-! Where the threads are while they gather, pass on and leave. -/

def Pc.Gathers (x : Pc) : Prop := x = .arrive1 ∨ x = .spin1 ∨ x = .reset2

def Pc.Passes (x : Pc) : Prop := x = .spin1 ∨ x = .arrive2 ∨ x = .spin2

def Pc.Leaves (x : Pc) : Prop := x = .spin2 ∨ x = .reset1 ∨ x = .reset2 ∨ x = .arrive1

/-- An orderly round has three stages: the threads gather in the first loop,
they pass on to the second one, and they leave. -/
inductive Stage (σ : System ι) : Prop
  | gather
      (places : ∀ i, (σ.pc i).Gathers)
      (arrived : σ.benchmarking1 = tally Pc.inLoop1 σ.pc)
      (cleared : (∃ i, σ.pc i = .reset2) ∨ σ.benchmarking2 = 0)
  | pass
      (places : ∀ i, (σ.pc i).Passes)
      (open1 : σ.benchmarking1 = Fintype.card ι)
      (arrived : σ.benchmarking2 = tally Pc.inLoop2 σ.pc)
  | leave
      (places : ∀ i, (σ.pc i).Leaves)
      (open2 : ∀ j, σ.pc j = .spin2 → σ.benchmarking2 = Fintype.card ι ∧ ∀ i, σ.pc i ≠ .arrive1)
      (leaving : ∃ j, σ.pc j = .spin2 ∨ σ.pc j = .reset1)

theorem stage_initial (rounds : ι → ℕ) : Stage (initial rounds) :=
  .gather (fun _ => .inl rfl) (tally_const _ _ rfl).symm (.inr rfl)

/-- In no stage are all threads held up. -/
theorem Stage.not_lockedUp [Nonempty ι] {σ : System ι} (h : Stage σ) : ¬ LockedUp σ := by
  intro hlock
  cases h with
  | gather places arrived _ =>
      -- all threads would have been counted in the first loop
      have hspin : ∀ i, σ.pc i = .spin1 := by
        intro i
        rcases (hlock i).2 with ⟨hpc, -⟩ | ⟨hpc, -⟩
        · exact hpc
        · rcases places i with h | h | h <;> rw [hpc] at h <;> cases h
      have hall : σ.benchmarking1 = Fintype.card ι :=
        arrived.trans (tally_eq_card fun i => by rw [hspin i]; rfl)
      rcases (hlock (Classical.arbitrary ι)).2 with ⟨-, hlt⟩ | ⟨hpc, -⟩
      · omega
      · rw [hspin] at hpc
        cases hpc
  | pass places open1 arrived =>
      have hspin : ∀ i, σ.pc i = .spin2 := by
        intro i
        rcases (hlock i).2 with ⟨-, hlt⟩ | ⟨hpc, -⟩
        · omega
        · exact hpc
      have hall : σ.benchmarking2 = Fintype.card ι :=
        arrived.trans (tally_eq_card fun i => by rw [hspin i]; rfl)
      rcases (hlock (Classical.arbitrary ι)).2 with ⟨hpc, -⟩ | ⟨-, hlt⟩
      · rw [hspin] at hpc
        cases hpc
      · omega
  | leave places open2 leaving =>
      obtain ⟨j, hj⟩ := leaving
      rcases (hlock j).2 with ⟨hpc, -⟩ | ⟨hpc, hlt⟩
      · rw [hpc] at hj
        rcases hj with hj | hj <;> cases hj
      · have := (open2 j hpc).1
        omega

section Step
variable [DecidableEq ι] {σ τ : System ι} {i : ι}

omit [Fintype ι] in
theorem nobody_at {pc : ι → Pc} {x y : Pc} (hy : y ≠ x) (h : ∀ k, pc k ≠ x) (k : ι) :
    Function.update pc i y k ≠ x := forall_update (P := (· ≠ x)) hy h k

/-- Nobody is left to clear the second counter once all are counted in the first loop. -/
theorem gather_step (places : ∀ i, (σ.pc i).Gathers)
    (arrived : σ.benchmarking1 = tally Pc.inLoop1 σ.pc)
    (cleared : (∃ i, σ.pc i = .reset2) ∨ σ.benchmarking2 = 0)
    (hs : step σ i = some τ) : Stage τ := by
  rcases places i with hpc | hpc | hpc
  · simp only [step, hpc] at hs
    split_ifs at hs
    cases hs
    refine .gather (forall_update (.inr (.inl rfl)) places) ?_ ?_
    · rw [tally_update, hpc, arrived]
      simp [Pc.inLoop1]
    · refine cleared.imp_left fun hex => exists_update (P := (· = Pc.reset2)) hex ?_
      rw [hpc]
      exact nofun
  · simp only [step, hpc] at hs
    split_ifs at hs with hlt
    · cases hs
      exact .gather places arrived cleared
    · cases hs
      have hspin : ∀ k, σ.pc k = .spin1 := fun k =>
        Pc.eq_spin1 (weight_eq_one_of_card_le Pc.inLoop1_le (by omega) k)
      have hfull : tally Pc.inLoop1 σ.pc = Fintype.card ι :=
        tally_eq_card fun k => by rw [hspin k]; rfl
      have hzero : σ.benchmarking2 = 0 := by
        refine cleared.resolve_left ?_
        rintro ⟨k, hk⟩
        rw [hspin k] at hk
        cases hk
      refine .pass (forall_update (.inr (.inl rfl)) fun k => .inl (hspin k)) (arrived.trans hfull) ?_
      rw [tally_update, show σ.pc = fun _ => .spin1 from funext hspin,
        tally_const Pc.inLoop2 Pc.spin1 rfl]
      exact hzero
  · simp only [step, hpc] at hs
    cases hs
    refine .gather (forall_update (.inl rfl) places) ?_ (.inr rfl)
    rw [tally_update, hpc, arrived]
    simp [Pc.inLoop1]

theorem pass_step (places : ∀ i, (σ.pc i).Passes)
    (open1 : σ.benchmarking1 = Fintype.card ι)
    (arrived : σ.benchmarking2 = tally Pc.inLoop2 σ.pc)
    (hs : step σ i = some τ) : Stage τ := by
  rcases places i with hpc | hpc | hpc
  · simp only [step, hpc, if_neg open1.not_lt] at hs
    cases hs
    refine .pass (forall_update (.inr (.inl rfl)) places) open1 ?_
    rw [tally_update, hpc, arrived]
    simp [Pc.inLoop2]
  · simp only [step, hpc] at hs
    cases hs
    refine .pass (forall_update (.inr (.inr rfl)) places) open1 ?_
    rw [tally_update, hpc, arrived]
    simp [Pc.inLoop2]
  · simp only [step, hpc] at hs
    split_ifs at hs with hlt
    · cases hs
      exact .pass places open1 arrived
    · cases hs
      have hspin : ∀ k, σ.pc k = .spin2 := fun k =>
        Pc.eq_spin2 (weight_eq_one_of_card_le Pc.inLoop2_le (by omega) k)
      have hfull : σ.benchmarking2 = Fintype.card ι :=
        arrived.trans (tally_eq_card fun k => by rw [hspin k]; rfl)
      have hnone : ∀ k, σ.pc k ≠ .arrive1 := fun k => by simp [hspin k]
      exact .leave (forall_update (.inr (.inl rfl)) fun k => .inl (hspin k))
        (fun _ _ => ⟨hfull, nobody_at nofun hnone⟩) ⟨i, .inr (Function.update_self ..)⟩

theorem leave_step (places : ∀ i, (σ.pc i).Leaves)
    (open2 : ∀ j, σ.pc j = .spin2 → σ.benchmarking2 = Fintype.card ι ∧ ∀ i, σ.pc i ≠ .arrive1)
    (leaving : ∃ j, σ.pc j = .spin2 ∨ σ.pc j = .reset1) (hg : Orderly σ i)
    (hs : step σ i = some τ) : Stage τ := by
  rcases places i with hpc | hpc | hpc | hpc
  · obtain ⟨hfull, hnone⟩ := open2 i hpc
    simp only [step, hpc, if_neg hfull.not_lt] at hs
    cases hs
    exact .leave (forall_update (.inr (.inl rfl)) places)
      (fun _ _ => ⟨hfull, nobody_at nofun hnone⟩) ⟨i, .inr (Function.update_self ..)⟩
  · simp only [step, hpc] at hs
    cases hs
    by_cases hmore : ∃ j, Function.update σ.pc i .reset2 j = .spin2 ∨
        Function.update σ.pc i .reset2 j = .reset1
    · refine .leave (forall_update (.inr (.inr (.inl rfl))) places) (fun j hj => ?_) hmore
      have hji : j ≠ i := by
        rintro rfl
        simp at hj
      have hj' : σ.pc j = .spin2 := (Function.update_of_ne hji _ _).symm.trans hj
      exact ⟨(open2 j hj').1, nobody_at nofun (open2 j hj').2⟩
    · -- the last one to clear the first counter leaves it at zero
      have hrest : ∀ k, Function.update σ.pc i .reset2 k = .reset2 ∨
          Function.update σ.pc i .reset2 k = .arrive1 := by
        intro k
        rcases forall_update (i := i) (.inr (.inr (.inl rfl))) places k with h | h | h
        · exact absurd ⟨k, .inl h⟩ hmore
        · exact absurd ⟨k, .inr h⟩ hmore
        · exact h
      refine .gather (fun k => ?_) (tally_eq_zero fun k => ?_).symm (.inl ⟨i, Function.update_self ..⟩)
      · exact (hrest k).elim (fun h => .inr (.inr h)) .inl
      · rcases hrest k with h | h <;> exact congrArg Pc.inLoop1 h
  · have hno := hg.1 hpc
    simp only [step, hpc] at hs
    cases hs
    refine .leave (forall_update (.inr (.inr (.inr rfl))) places) (fun j hj => ?_) ?_
    · exact absurd hj (nobody_at (y := .arrive1) (by decide) hno j)
    · obtain ⟨j, hj⟩ := leaving
      refine exists_update (P := fun x => x = Pc.spin2 ∨ x = .reset1) ⟨j, hj⟩ ?_
      simp [hpc]
  · obtain ⟨j, hj | hj⟩ := leaving
    · exact absurd hpc ((open2 j hj).2 i)
    · exact absurd hj (hg.2 hpc j)

theorem step_stage (h : Stage σ) (hg : Orderly σ i) (hs : step σ i = some τ) : Stage τ := by
  cases h with
  | gather places arrived cleared => exact gather_step places arrived cleared hs
  | pass places open1 arrived => exact pass_step places open1 arrived hs
  | leave places open2 leaving => exact leave_step places open2 leaving hg hs

end Step

/-- No orderly run locks up, whatever the number of threads and of their rounds. -/
theorem no_lockup [DecidableEq ι] [Nonempty ι] {rounds : ι → ℕ} {schedule : List ι} {σ : System ι}
    (hg : Along step Orderly (initial rounds) schedule)
    (hr : run step (initial rounds) schedule = some σ) : ¬ LockedUp σ :=
  (invariant_along (I := Stage) (fun _ _ _ h hg hs => step_stage h hg hs)
    (stage_initial rounds) hg hr).not_lockedUp

/-- Two threads whose first rounds overlap in the measurement, up to the second
round, in which one of them waits for the other. -/
theorem no_lockup_two_threads :
    (run step (initial fun _ : Fin 2 => 2) [0, 0, 1, 0, 0, 0, 1, 1, 1, 0, 0, 1, 0, 0, 1]).isSome ∧
    ∀ σ, run step (initial fun _ : Fin 2 => 2) [0, 0, 1, 0, 0, 0, 1, 1, 1, 0, 0, 1, 0, 0, 1] = some σ →
      ¬ LockedUp σ :=
  ⟨by decide, fun _ hr => no_lockup (by decide) hr⟩

/-- Thread 0 completes its first round and clears the second counter before
thread 1 has looked at it, and then waits for thread 1 in the first loop. -/
theorem lockup_after_early_reset :
    ∃ σ, run step (initial fun _ : Fin 2 => 2) [0, 1, 0, 0, 1, 1, 0, 0, 0, 0] = some σ ∧ LockedUp σ := by
  have hend : (run step (initial fun _ : Fin 2 => 2) [0, 1, 0, 0, 1, 1, 0, 0, 0, 0]).any
      (fun σ => decide (LockedUp σ)) = true := by decide
  obtain ⟨σ, hr, hlock⟩ := Option.any_eq_true .. |>.mp hend
  exact ⟨σ, hr, of_decide_eq_true hlock⟩

end BenchmarkBarrier
