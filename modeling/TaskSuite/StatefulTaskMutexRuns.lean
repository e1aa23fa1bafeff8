import TaskSuite.StatefulTaskMutex

/-! What the tasks of `AIStatefulTaskMutex_test.cxx` do in every order of their
steps: one of them at a time is in the critical area, and the test ends if the pool
has a thread to spare for the task that waits inside of it. -/
namespace StatefulTaskMutex
open Machine Tally

variable {ι : Type} {M : HandoverMutex ι}

section Runs
variable [Fintype ι]

structure Inv (threads : ℕ) (s : State M) : Prop where
  handover : Handover s
  accounts : Accounts threads s
  sound : s.failed = false

theorem inv_initial (threads : ℕ) : Inv threads (initial : State M) :=
  ⟨handover_initial, accounts_initial threads, rfl⟩

variable [DecidableEq ι] {threads : ℕ} {s s' : State M} {t : ι}

omit [DecidableEq ι] in
theorem Inv.inside_eq (h : Inv threads s) (howns : s.Owns t) :
    s.insideCriticalArea = (s.task t).pc.inside := by
  rw [h.accounts.inside, tally]
  apply Finset.sum_eq_single t
  · intro k _ hk
    have hnot : ¬ s.Owns k := by
      intro hk'
      rw [State.Owns, howns] at hk'
      exact hk (Option.some.inj hk').symm
    have hplaced := h.handover.placed k
    cases hpc : (s.task k).pc with
    | criticalArea | leave => simp [Placed, hpc, hnot] at hplaced
    | created | callLock | lock | wait | locked | unlock | signal _ | unlocked | done | finished => rfl
  · intro hnot
    exact absurd (Finset.mem_univ t) hnot

theorem Inv.run_task (h : Inv threads s) (hpc : (s.task t).pc = .created) :
    Inv threads (s.set t ⟨.callLock, .running, false⟩) where
  handover := by
    have hplaced := h.handover.placed t
    simp only [Placed, hpc] at hplaced
    obtain ⟨-, -, howns, hwaits, huntold⟩ := hplaced
    exact h.handover.move rfl rfl (by simp [hpc]) (by simp) ⟨rfl, howns, hwaits, huntold⟩
  accounts := by
    apply h.accounts.move rfl
    · simp [State.set, hpc, Pc.counted]
    · simp [State.set, hpc, Pc.inside]
    · simp [State.set, hpc, Pc.ended]
    · simp
    · intro hf
      exact ⟨hf, rfl⟩
    · exact h.accounts.testFinished
  sound := h.sound

theorem Inv.take (h : Inv threads s) (hidle : (s.task t).active = false)
    (hcond : (s.task t).cond ≠ .idle) (hcreated : (s.task t).pc ≠ .created)
    (hfinished : (s.task t).pc ≠ .finished) (hroom : s.busy < threads) :
    Inv threads (s.set t { s.task t with active := true }) where
  handover := by
    have hplaced := h.handover.placed t
    have hplaces : (s.task t).pc = .callLock ∨ (s.task t).pc = .locked := by
      cases hpc : (s.task t).pc with
      | callLock => exact .inl rfl
      | locked => exact .inr rfl
      | created => exact absurd hpc hcreated
      | finished => exact absurd hpc hfinished
      | lock | wait | criticalArea | leave | unlock | signal _ | unlocked | done =>
          simp [Placed, hpc, hidle] at hplaced
    have hquiet : ∀ u, (s.task t).pc ≠ .signal u := by
      intro u hu
      simp [hu] at hplaces
    refine h.handover.move rfl rfl hquiet hquiet ?_
    rcases hplaces with hpc | hpc <;> simp only [Placed, hpc] at hplaced ⊢
    · exact hplaced
    · rcases hplaced with ⟨hwaiting, -⟩ | hplaced
      · exact absurd hwaiting hcond
      · exact .inr hplaced
  accounts := by
    apply h.accounts.move rfl
    · simp [State.set]
    · simp [State.set]
    · simp [State.set]
    · exact fun _ => .inr hroom
    · intro hf
      exact ⟨hf, h.accounts.first hf t⟩
    · exact h.accounts.testFinished
  sound := h.sound

theorem Inv.exec_plain {active : Bool} (h : Inv threads s) (pc : Pc ι)
    (hmutex : s'.mutex = s.mutex)
    (htask : s'.task = Function.update s.task t { s.task t with pc, active })
    (hold : ∀ u, (s.task t).pc ≠ .signal u) (hnew : ∀ u, pc ≠ .signal u)
    (hplaced : Placed (s.Owns t) (s.Waits t) (s.Untold t) { s.task t with pc, active })
    (hlocked : s'.locked = s.locked - (s.task t).pc.counted + pc.counted)
    (hinside : s'.insideCriticalArea = s.insideCriticalArea - (s.task t).pc.inside + pc.inside)
    (hcounter : s'.finishedCounter = s.finishedCounter - (s.task t).pc.ended + pc.ended)
    (hactive : (s.task t).active = true)
    (hfirst : s'.first = true → s.first = true ∧ pc.passed = false)
    (hfinished : s'.testFinished = true ↔ s'.finishedCounter = Fintype.card ι ∧ 0 < Fintype.card ι)
    (hsound : s'.failed = false) : Inv threads s' where
  handover := h.handover.move hmutex htask hold hnew hplaced
  accounts := h.accounts.move htask hlocked hinside hcounter (fun _ => .inl hactive) hfirst hfinished
  sound := hsound

theorem Inv.callLock (h : Inv threads s) (hactive : (s.task t).active = true)
    (hpc : (s.task t).pc = .callLock) (hstep : multiplexImpl s t (s.task t) = some s') : Inv threads s' := by
  have hplaced := h.handover.placed t
  have htest := h.accounts.testFinished
  simp only [multiplexImpl, hpc, Option.some.injEq] at hstep
  subst hstep
  simp only [Placed, hpc] at hplaced
  obtain ⟨hcond, hnot⟩ := hplaced
  exact h.exec_plain .lock rfl rfl (by simp [hpc]) (by simp) ⟨hcond, hactive, hnot⟩
    (by simp [State.set, hpc, Pc.counted]) (by simp [State.set, hpc, Pc.inside])
    (by simp [State.set, hpc, Pc.ended]) hactive (fun hf => ⟨hf, rfl⟩) htest h.sound

theorem Inv.lock (h : Inv threads s) (hactive : (s.task t).active = true)
    (hpc : (s.task t).pc = .lock) (hstep : multiplexImpl s t (s.task t) = some s') : Inv threads s' := by
  have htest := h.accounts.testFinished
  simp only [multiplexImpl, hpc, Option.some.injEq] at hstep
  subst hstep
  refine ⟨h.handover.lock hpc rfl rfl, ?_, h.sound⟩
  refine h.accounts.move rfl ?_ ?_ ?_ (fun _ => .inl hactive) ?_ htest
  · cases (M.lock s.mutex t).2 <;> simp [State.set, hpc, Pc.counted]
  · cases (M.lock s.mutex t).2 <;> simp [State.set, hpc, Pc.inside]
  · cases (M.lock s.mutex t).2 <;> simp [State.set, hpc, Pc.ended]
  · intro hf
    refine ⟨hf, ?_⟩
    cases hs : (M.lock s.mutex t).2 <;> simp [Pc.passed]

theorem Inv.wait (h : Inv threads s) (hactive : (s.task t).active = true)
    (hpc : (s.task t).pc = .wait) (hstep : multiplexImpl s t (s.task t) = some s') : Inv threads s' := by
  have hplaced := h.handover.placed t
  have htest := h.accounts.testFinished
  simp only [multiplexImpl, hpc, Option.map_eq_some_iff] at hstep
  obtain ⟨cond, hwait, rfl⟩ := hstep
  simp only [Placed, hpc] at hplaced
  obtain ⟨-, hplaced⟩ := hplaced
  refine ⟨?_, ?_, h.sound⟩
  · refine h.handover.move rfl rfl (by simp [hpc]) (by simp) ?_
    rcases hplaced with ⟨hc, howns, hwaits, huntold⟩ | ⟨hc, howns, hwaits, huntold⟩ | ⟨hc, hown⟩ <;>
      rw [hc] at hwait <;> cases hwait
    · exact .inl ⟨rfl, rfl, .inl ⟨howns, hwaits, huntold⟩⟩
    · exact .inl ⟨rfl, rfl, .inr ⟨howns, hwaits, huntold⟩⟩
    · exact .inr ⟨rfl, hown⟩
  · exact h.accounts.move rfl (by simp [State.set, hpc, Pc.counted]) (by simp [State.set, hpc, Pc.inside])
      (by simp [State.set, hpc, Pc.ended]) (fun _ => .inl hactive) (fun hf => ⟨hf, rfl⟩) htest

theorem Inv.locked (h : Inv threads s) (hactive : (s.task t).active = true)
    (hpc : (s.task t).pc = .locked) (hstep : multiplexImpl s t (s.task t) = some s') : Inv threads s' := by
  have hplaced := h.handover.placed t
  have htest := h.accounts.testFinished
  simp only [multiplexImpl, hpc, Option.some.injEq] at hstep
  subst hstep
  simp only [Placed, hpc, hactive, Bool.true_eq_false, false_and, and_false, false_or] at hplaced
  obtain ⟨hcond, howns, hnot⟩ := hplaced
  have hinside := h.inside_eq howns
  simp only [hpc, Pc.inside] at hinside
  exact h.exec_plain .criticalArea rfl rfl (by simp [hpc]) (by simp)
    ⟨hcond, hactive, howns, hnot⟩ (by simp [State.set, hpc, Pc.counted])
    (by simp [State.set, hpc, Pc.inside]) (by simp [State.set, hpc, Pc.ended]) hactive
    (fun hf => ⟨hf, rfl⟩) htest (by simp [State.set, h.sound, hinside])

theorem Inv.criticalArea (h : Inv threads s) (hactive : (s.task t).active = true)
    (hpc : (s.task t).pc = .criticalArea) (hstep : multiplexImpl s t (s.task t) = some s') :
    Inv threads s' := by
  have hplaced := h.handover.placed t
  have htest := h.accounts.testFinished
  simp only [multiplexImpl, hpc] at hstep
  split_ifs at hstep with hspin
  cases hstep
  simp only [Placed, hpc] at hplaced
  exact h.exec_plain .leave rfl rfl (by simp [hpc]) (by simp) hplaced
    (by simp [State.set, hpc, Pc.counted]) (by simp [State.set, hpc, Pc.inside])
    (by simp [State.set, hpc, Pc.ended]) hactive (fun hf => absurd hf (by simp [State.set])) htest
    h.sound

theorem Inv.leave (h : Inv threads s) (hactive : (s.task t).active = true)
    (hpc : (s.task t).pc = .leave) (hstep : multiplexImpl s t (s.task t) = some s') : Inv threads s' := by
  have hplaced := h.handover.placed t
  have htest := h.accounts.testFinished
  simp only [multiplexImpl, hpc, Option.some.injEq] at hstep
  subst hstep
  simp only [Placed, hpc] at hplaced
  have hinside := h.inside_eq hplaced.2.2.1
  simp only [hpc, Pc.inside] at hinside
  have hfirst : s.first = false := h.accounts.first_eq_false (t := t) (by rw [hpc]; rfl)
  exact h.exec_plain .unlock rfl rfl (by simp [hpc]) (by simp) hplaced
    (by simp [State.set, hpc, Pc.counted]) (by simp [State.set, hpc, Pc.inside])
    (by simp [State.set, hpc, Pc.ended]) hactive (fun hf => absurd hf (by simp [State.set, hfirst])) htest
    (by simp [State.set, h.sound, hinside])

theorem Inv.unlock (h : Inv threads s) (hactive : (s.task t).active = true)
    (hpc : (s.task t).pc = .unlock) (hstep : multiplexImpl s t (s.task t) = some s') : Inv threads s' := by
  have htest := h.accounts.testFinished
  simp only [multiplexImpl, hpc, Option.some.injEq] at hstep
  subst hstep
  refine ⟨h.handover.unlock hpc rfl rfl, ?_, h.sound⟩
  refine h.accounts.move rfl ?_ ?_ ?_ (fun _ => .inl hactive) ?_ htest
  · cases (M.unlock s.mutex).2 <;> simp [State.set, hpc, Pc.counted]
  · cases (M.unlock s.mutex).2 <;> simp [State.set, hpc, Pc.inside]
  · cases (M.unlock s.mutex).2 <;> simp [State.set, hpc, Pc.ended]
  · intro hf
    rw [State.set, h.accounts.first_eq_false (t := t) (by rw [hpc]; rfl)] at hf
    cases hf

theorem Inv.signal (h : Inv threads s) {u : ι} (hactive : (s.task t).active = true)
    (hpc : (s.task t).pc = .signal u) (hstep : multiplexImpl s t (s.task t) = some s') : Inv threads s' := by
  have hplaced := h.handover.placed t
  have htest := h.accounts.testFinished
  simp only [multiplexImpl, hpc, Option.some.injEq] at hstep
  subst hstep
  have hut : u ≠ t := by
    intro hut
    simp only [Placed, hpc] at hplaced
    exact hplaced.2.2.2.2 ⟨t, by rw [hpc, hut]⟩
  refine ⟨h.handover.signal hpc rfl ?_, ?_, h.sound⟩
  · simp only [State.set, Function.update_of_ne hut]
  · have hmid : Accounts threads (s.set t { s.task t with pc := .unlocked }) := by
      refine h.accounts.move rfl ?_ ?_ ?_ (fun _ => .inl hactive) ?_ htest
      · simp [State.set, hpc, Pc.counted]
      · simp [State.set, hpc, Pc.inside]
      · simp [State.set, hpc, Pc.ended]
      · intro hf
        rw [State.set, h.accounts.first_eq_false (t := t) (by rw [hpc]; rfl)] at hf
        cases hf
    refine hmid.move rfl ?_ ?_ ?_ (fun hact => .inl hact) ?_ htest
    · simp [State.set]
    · simp [State.set]
    · simp [State.set]
    · intro hf
      exact ⟨hf, hmid.first hf u⟩

theorem Inv.unlocked (h : Inv threads s) (hactive : (s.task t).active = true)
    (hpc : (s.task t).pc = .unlocked) (hstep : multiplexImpl s t (s.task t) = some s') : Inv threads s' := by
  have hplaced := h.handover.placed t
  have htest := h.accounts.testFinished
  simp only [multiplexImpl, hpc, Option.some.injEq] at hstep
  subst hstep
  simp only [Placed, hpc] at hplaced
  have hfirst : s.first = false := h.accounts.first_eq_false (t := t) (by rw [hpc]; rfl)
  exact h.exec_plain .done rfl rfl (by simp [hpc]) (by simp) hplaced
    (by simp [State.set, hpc, Pc.counted]) (by simp [State.set, hpc, Pc.inside])
    (by simp [State.set, hpc, Pc.ended]) hactive (fun hf => absurd hf (by simp [State.set, hfirst])) htest h.sound

theorem Inv.done (h : Inv threads s) (hactive : (s.task t).active = true)
    (hpc : (s.task t).pc = .done) (hstep : multiplexImpl s t (s.task t) = some s') : Inv threads s' := by
  have hplaced := h.handover.placed t
  have htest := h.accounts.testFinished
  simp only [multiplexImpl, hpc, Option.some.injEq] at hstep
  subst hstep
  simp only [Placed, hpc] at hplaced
  obtain ⟨hcond, -, hnot⟩ := hplaced
  have hfirst : s.first = false := h.accounts.first_eq_false (t := t) (by rw [hpc]; rfl)
  have hless : s.finishedCounter + 1 ≤ Fintype.card ι := by
    have hle := ended_le (s.set t { s.task t with pc := .finished, active := false })
    rw [State.set, tally_update, hpc] at hle
    rw [h.accounts.counter]
    simpa [Pc.ended] using hle
  refine h.exec_plain .finished rfl rfl (by simp [hpc]) (by simp) ⟨hcond, rfl, hnot⟩
    (by simp [State.set, hpc, Pc.counted]) (by simp [State.set, hpc, Pc.inside])
    (by simp [State.set, hpc, Pc.ended]) hactive (fun hf => absurd hf (by simp [State.set, hfirst])) ?_ h.sound
  have hcard : 0 < Fintype.card ι := Fintype.card_pos_iff.mpr ⟨t⟩
  simp only [State.set, Bool.or_eq_true, htest, decide_eq_true_eq]
  omega

theorem Inv.exec (h : Inv threads s) (hactive : (s.task t).active = true)
    (hstep : multiplexImpl s t (s.task t) = some s') : Inv threads s' := by
  cases hpc : (s.task t).pc with
  | created | finished => simp [multiplexImpl, hpc] at hstep
  | callLock => exact h.callLock hactive hpc hstep
  | lock => exact h.lock hactive hpc hstep
  | wait => exact h.wait hactive hpc hstep
  | locked => exact h.locked hactive hpc hstep
  | criticalArea => exact h.criticalArea hactive hpc hstep
  | leave => exact h.leave hactive hpc hstep
  | unlock => exact h.unlock hactive hpc hstep
  | signal u => exact h.signal hactive hpc hstep
  | unlocked => exact h.unlocked hactive hpc hstep
  | done => exact h.done hactive hpc hstep

theorem step_inv (h : Inv threads s) {a : Act ι} (hs : step threads s a = some s') : Inv threads s' := by
  cases a with
  | run t =>
      simp only [step] at hs
      split_ifs at hs with hpc
      cases hs
      exact h.run_task hpc
  | take t =>
      simp only [step] at hs
      split_ifs at hs with hg
      cases hs
      obtain ⟨hidle, hcond, hcreated, hfinished, hroom⟩ := hg
      exact h.take (by simpa using hidle) hcond hcreated hfinished hroom
  | exec t =>
      simp only [step] at hs
      split_ifs at hs with hactive
      exact h.exec hactive hs

def Pc.inArea : Pc ι → Bool
  | .criticalArea | .leave | .unlock => true
  | _ => false

omit [DecidableEq ι] in
theorem Inv.owns_of_inArea (h : Inv threads s) (ht : (s.task t).pc.inArea = true) : s.Owns t := by
  have hplaced := h.handover.placed t
  cases hpc : (s.task t).pc with
  | criticalArea | leave | unlock =>
      simp only [Placed, hpc] at hplaced
      exact hplaced.2.2.1
  | created | callLock | lock | wait | locked | signal _ | unlocked | done | finished =>
      simp [hpc, Pc.inArea] at ht

omit [DecidableEq ι] in
/-- The last call-back opens the gate. -/
theorem Inv.all_finished (h : Inv threads s) (hopen : s.testFinished = true) (k : ι) :
    (s.task k).pc = .finished := by
  have hcount := (h.accounts.testFinished.mp hopen).1
  rw [h.accounts.counter] at hcount
  have hone : ∀ x : Task ι, x.pc.ended ≤ 1 := by
    intro x
    cases hx : x.pc <;> simp [Pc.ended]
  have hk := weight_eq_one_of_card_le hone (le_of_eq hcount.symm) k
  cases hpc : (s.task k).pc with
  | finished => rfl
  | created | callLock | lock | wait | locked | criticalArea | leave | unlock | signal _ | unlocked
    | done => simp [hpc, Pc.ended] at hk

/-- In every order of the steps, no ASSERT fails, one task at a time is in the critical
area, and main() finds both counters at zero when the gate has been opened. -/
theorem critical_area_exclusive (M : HandoverMutex ι) (threads : ℕ) (acts : List (Act ι))
    {s : State M} (hrun : run (step threads) (initial : State M) acts = some s) :
    s.failed = false ∧
      (∀ i j, (s.task i).pc.inArea = true → (s.task j).pc.inArea = true → i = j) ∧
      (s.testFinished = true →
        (∀ k, (s.task k).pc = .finished) ∧ s.insideCriticalArea = 0 ∧ s.locked = 0) := by
  have h : Inv threads s :=
    invariant (I := Inv threads) (fun u a v hu hs => step_inv hu hs) (inv_initial threads) hrun
  refine ⟨h.sound, ?_, ?_⟩
  · intro i j hi hj
    have howner := h.owns_of_inArea hi
    rw [State.Owns, h.owns_of_inArea hj] at howner
    exact (Option.some.inj howner).symm
  · intro hopen
    have hall := h.all_finished hopen
    refine ⟨hall, ?_, ?_⟩
    · rw [h.accounts.inside]
      apply tally_eq_zero
      intro k
      rw [hall k]
      rfl
    · rw [h.accounts.locked]
      apply tally_eq_zero
      intro k
      rw [hall k]
      rfl

/-- The second task queues up for the mutex while the first one is inside. -/
theorem critical_area_exclusive_two :
    let acts := [.run false, .run true, .take false, .take true] ++ List.replicate 3 (.exec false) ++
      List.replicate 3 (.exec true) ++ List.replicate 6 (.exec false) ++ [.take true] ++
      List.replicate 6 (.exec true)
    ∃ s : State (HandoverMutex.fifo Bool), run (step 2) initial acts = some s ∧
      s.testFinished = true ∧ s.failed = false ∧ s.insideCriticalArea = 0 ∧ s.locked = 0 := by
  intro acts
  have hopen : (run (step 2) (initial : State (HandoverMutex.fifo Bool)) acts).map
      (fun s => s.testFinished) = some true := by decide
  obtain ⟨s, hrun, hfinished⟩ := Option.map_eq_some_iff.mp hopen
  obtain ⟨hsound, -, hend⟩ := critical_area_exclusive (HandoverMutex.fifo Bool) 2 acts hrun
  obtain ⟨-, hinside, hlocked⟩ := hend hfinished
  exact ⟨s, hrun, hfinished, hsound, hinside, hlocked⟩

/-! ### How the test ends -/

/-- main() gets past `test_finished.wait()`, and there is nothing left to do. -/
def Ended (s : State M) : Prop := s.testFinished = true ∧ ∀ k, (s.task k).pc = .finished

def Pc.ahead : Pc ι → ℤ
  | .created => 11
  | .callLock => 10
  | .lock => 9
  | .wait => 8
  | .locked => 7
  | .criticalArea => 6
  | .leave => 5
  | .unlock => 4
  | .signal _ => 3
  | .unlocked => 2
  | .done => 1
  | .finished => 0

/-- A task that does not have a thread needs one more step. -/
def Task.ahead (x : Task ι) : ℤ := 2 * x.pc.ahead + if x.active then 0 else 1

def State.ahead (s : State M) : ℕ := (tally Task.ahead s.task).toNat

theorem ahead_lt_of_move {y : Task ι} (htask : s'.task = Function.update s.task t y)
    (hless : y.ahead < (s.task t).ahead) : s'.ahead < s.ahead := by
  have hnonneg : ∀ x : Task ι, 0 ≤ x.ahead := by
    intro x
    have hpc : 0 ≤ x.pc.ahead := by cases hx : x.pc <;> simp [Pc.ahead]
    unfold Task.ahead
    split_ifs <;> omega
  have hold := tally_nonneg hnonneg s.task
  have hnew := tally_nonneg hnonneg s'.task
  rw [State.ahead, State.ahead]
  rw [htask, tally_update] at hnew ⊢
  omega

theorem ahead_exec (hactive : (s.task t).active = true)
    (hstep : multiplexImpl s t (s.task t) = some s') : s'.ahead < s.ahead := by
  cases hpc : (s.task t).pc with
  | created | finished => simp [multiplexImpl, hpc] at hstep
  | lock =>
      simp only [multiplexImpl, hpc, Option.some.injEq] at hstep
      subst hstep
      apply ahead_lt_of_move (t := t) rfl
      cases hs : (M.lock s.mutex t).2 <;> simp [Task.ahead, hactive, hpc, Pc.ahead]
  | wait =>
      simp only [multiplexImpl, hpc, Option.map_eq_some_iff] at hstep
      obtain ⟨cond, hwait, rfl⟩ := hstep
      apply ahead_lt_of_move (t := t) rfl
      cases cond <;> simp [Task.ahead, hactive, hpc, Pc.ahead]
  | criticalArea =>
      simp only [multiplexImpl, hpc] at hstep
      split_ifs at hstep with hspin
      cases hstep
      apply ahead_lt_of_move (t := t) rfl
      simp [Task.ahead, hactive, hpc, Pc.ahead]
  | unlock =>
      simp only [multiplexImpl, hpc, Option.some.injEq] at hstep
      subst hstep
      apply ahead_lt_of_move (t := t) rfl
      cases hs : (M.unlock s.mutex).2 <;> simp [Task.ahead, hactive, hpc, Pc.ahead]
  | signal u =>
      simp only [multiplexImpl, hpc, Option.some.injEq] at hstep
      subst hstep
      have hmid : (s.set t { s.task t with pc := .unlocked }).ahead < s.ahead := by
        apply ahead_lt_of_move (t := t) rfl
        simp [Task.ahead, hactive, hpc, Pc.ahead]
      refine lt_of_eq_of_lt ?_ hmid
      rw [State.ahead, State.ahead, State.set, tally_update]
      simp [Task.ahead]
  | callLock | locked | leave | unlocked | done =>
      simp only [multiplexImpl, hpc, Option.some.injEq] at hstep
      subst hstep
      apply ahead_lt_of_move (t := t) rfl
      simp [Task.ahead, hactive, hpc, Pc.ahead]

theorem ahead_step {a : Act ι} (hs : step threads s a = some s') : s'.ahead < s.ahead := by
  cases a with
  | run t =>
      simp only [step] at hs
      split_ifs at hs with hpc
      cases hs
      apply ahead_lt_of_move (t := t) rfl
      cases hact : (s.task t).active <;> simp [Task.ahead, hact, hpc, Pc.ahead]
  | take t =>
      simp only [step] at hs
      split_ifs at hs with hg
      cases hs
      apply ahead_lt_of_move (t := t) rfl
      simp only [Bool.not_eq_eq_eq_not, Bool.not_true] at hg
      simp [Task.ahead, hg.1]
  | exec t =>
      simp only [step] at hs
      split_ifs at hs with hactive
      exact ahead_exec hactive hs

/-- A task that has a thread is only held up in the loop behind the test of `first`. -/
theorem active_of_stuck (h : Inv threads s) (hstuck : Stuck (step threads) s)
    (hactive : (s.task t).active = true) :
    (s.task t).pc = .criticalArea ∧ s.first = true ∧ s.locked < Fintype.card ι := by
  have hexec := hstuck (.exec t)
  simp only [step, hactive, if_true] at hexec
  have hplaced := h.handover.placed t
  cases hpc : (s.task t).pc with
  | criticalArea =>
      simp only [multiplexImpl, hpc] at hexec
      split_ifs at hexec with hspin
      simp only [Bool.and_eq_true, decide_eq_true_eq] at hspin
      exact ⟨rfl, hspin⟩
  | created | finished => simp [Placed, hpc, hactive] at hplaced
  | wait =>
      simp only [Placed, hpc] at hplaced
      rcases hplaced with ⟨-, ⟨hcond, -⟩ | ⟨hcond, -⟩ | ⟨hcond, -⟩⟩ <;>
        simp [multiplexImpl, hpc, hcond, Condition.wait] at hexec
  | callLock | lock | locked | leave | unlock | signal _ | unlocked | done =>
      simp [multiplexImpl, hpc] at hexec

theorem busy_of_stuck (hstuck : Stuck (step threads) s) (hidle : (s.task t).active = false)
    (hcond : (s.task t).cond ≠ .idle) (hfinished : (s.task t).pc ≠ .finished) : threads ≤ s.busy := by
  have hrun := hstuck (.run t)
  have htake := hstuck (.take t)
  simp only [step] at hrun htake
  split_ifs at hrun with hcreated
  split_ifs at htake with hg
  by_contra hroom
  exact hg ⟨by simpa using hidle, hcond, hcreated, hfinished, not_le.mp hroom⟩

/-- If no task has a thread and nothing is left in the queue, all tasks have finished:
the tasks that wait for the mutex wait for one that does. -/
theorem finished_of_idle (h : Inv threads s) (hnone : ∀ k, (s.task k).active = false)
    (hidle : ∀ k, (s.task k).pc ≠ .finished → (s.task k).cond = .idle) (k : ι) :
    (s.task k).pc = .finished := by
  have huntold : ∀ u, ¬ s.Untold u := by
    rintro u ⟨j, hj⟩
    have hplaced := h.handover.placed j
    simp [Placed, hj, hnone j] at hplaced
  -- an idle task is in the queue of the mutex
  have hwaits : ∀ u, (s.task u).pc ≠ .finished → s.Waits u ∧ ¬ s.Owns u := by
    intro u hu
    have hplaced := h.handover.placed u
    cases hpc : (s.task u).pc <;> simp [Placed, hpc, hidle u hu, hnone u, huntold u] at hplaced hu
    exact hplaced.symm
  by_contra hk
  obtain ⟨hkwaits, -⟩ := hwaits k hk
  obtain ⟨o, howns⟩ : ∃ o, M.owner s.mutex = some o := by
    rw [← Option.ne_none_iff_exists']
    intro howner
    rw [State.Waits, h.handover.held howner] at hkwaits
    exact Multiset.notMem_zero k hkwaits
  have hplaced := h.handover.placed o
  have hofinished : (s.task o).pc ≠ .finished := by
    intro hpc
    simp only [Placed, hpc] at hplaced
    exact hplaced.2.2.1 howns
  exact (hwaits o hofinished).2 howns

theorem exists_step [Nonempty ι] (h : Inv threads s) (hthreads : 0 < threads)
    (hspare : 2 ≤ threads ∨ Fintype.card ι = 1) (hend : ¬ Ended s) :
    ∃ a u, step threads s a = some u := by
  by_contra hno
  have hstuck : Stuck (step threads) s := by
    intro a
    rw [Option.eq_none_iff_forall_ne_some]
    intro u hu
    exact hno ⟨a, u, hu⟩
  by_cases hactive : ∃ x, (s.task x).active = true
  · obtain ⟨x, hx⟩ := hactive
    obtain ⟨hpc, hfirst, hlocked⟩ := active_of_stuck h hstuck hx
    have howner := h.owns_of_inArea (t := x) (by rw [hpc]; rfl)
    have hothers : ∀ k, k ≠ x → (s.task k).active = false := by
      intro k hk
      by_contra hact
      rw [Bool.not_eq_false] at hact
      have hk' := h.owns_of_inArea (t := k) (by rw [(active_of_stuck h hstuck hact).1]; rfl)
      rw [State.Owns, howner] at hk'
      exact hk (Option.some.inj hk').symm
    have hbusy : s.busy = 1 := by
      rw [State.busy, tally, Finset.sum_eq_single x]
      · rw [hx]
        rfl
      · intro k _ hk
        rw [hothers k hk]
        rfl
      · intro hnot
        exact absurd (Finset.mem_univ x) hnot
    -- somebody has not called lock yet
    obtain ⟨y, hy⟩ : ∃ y, (s.task y).pc.counted ≠ 1 := by
      by_contra hall
      simp only [not_exists, not_not] at hall
      have hcount : s.locked = Fintype.card ι := h.accounts.locked.trans (tally_eq_card hall)
      omega
    have hyx : y ≠ x := by
      intro hyx
      rw [hyx, hpc] at hy
      exact hy rfl
    have hyidle := hothers y hyx
    have hplaced := h.handover.placed y
    have hpassed := h.accounts.first hfirst y
    rcases hspare with htwo | hone
    · have hroom : threads ≤ s.busy := by
        apply busy_of_stuck hstuck hyidle
        · cases hpcy : (s.task y).pc <;> simp [hpcy, Pc.counted, Pc.passed] at hy hpassed <;>
            simp [Placed, hpcy] at hplaced <;> simp [hplaced]
        · intro hpcy
          simp [hpcy, Pc.passed] at hpassed
      omega
    · obtain ⟨z, hz⟩ := Fintype.card_eq_one_iff.mp hone
      exact hyx ((hz y).trans (hz x).symm)
  · simp only [not_exists, Bool.not_eq_true] at hactive
    have hbusy : s.busy = 0 := by
      apply tally_eq_zero
      intro k
      rw [hactive k]
      rfl
    have hall : ∀ k, (s.task k).pc = .finished := by
      apply finished_of_idle h hactive
      intro k hk
      by_contra hcond
      have hroom := busy_of_stuck hstuck (hactive k) hcond hk
      omega
    have hcount : s.finishedCounter = Fintype.card ι := by
      rw [h.accounts.counter]
      apply tally_eq_card
      intro k
      rw [hall k]
      rfl
    exact hend ⟨h.accounts.testFinished.mpr ⟨hcount, Fintype.card_pos⟩, hall⟩

/-! A pool of one thread: the first task that gets it keeps it. -/

/-- Who has no thread has not called lock, and nobody is past the loop. -/
structure OneThread (s : State M) : Prop where
  inv : Inv 1 s
  waiting : ∀ k, (s.task k).active = false → (s.task k).pc = .created ∨ (s.task k).pc = .callLock
  running : ∀ k, (s.task k).pc.passed = false ∧ (s.task k).pc ≠ .wait
  first : s.first = true

omit [DecidableEq ι] in
theorem oneThread_initial : OneThread (initial : State M) :=
  ⟨inv_initial 1, fun _ _ => .inl rfl, fun _ => ⟨rfl, by simp [initial]⟩, rfl⟩

theorem OneThread.alone (h : OneThread s) {i j : ι} (hi : (s.task i).active = true)
    (hj : (s.task j).active = true) : i = j := by
  by_contra hij
  have hweight : ∀ x : Task ι, (0 : ℤ) ≤ if x.active then 1 else 0 := by
    intro x
    split_ifs <;> omega
  have htwo := two_weights_le_tally hweight s.task hij
  have hone := h.inv.accounts.busy
  rw [State.busy] at hone
  rw [hi, hj] at htwo
  simp only [if_true] at htwo
  omega

/-- A task that has the thread and has been counted is the only one that was. -/
theorem OneThread.locked_le (h : OneThread s) : s.locked ≤ 1 := by
  rw [h.inv.accounts.locked]
  by_cases hactive : ∃ x, (s.task x).active = true
  · obtain ⟨x, hx⟩ := hactive
    rw [tally, Finset.sum_eq_single x]
    · cases hpc : (s.task x).pc <;> simp [Pc.counted]
    · intro k _ hk
      have hidle : (s.task k).active = false := by
        by_contra hact
        rw [Bool.not_eq_false] at hact
        exact hk (h.alone hact hx)
      rcases h.waiting k hidle with hpc | hpc <;> rw [hpc] <;> rfl
    · intro hnot
      exact absurd (Finset.mem_univ x) hnot
  · simp only [not_exists, Bool.not_eq_true] at hactive
    rw [tally_eq_zero]
    · omega
    · intro k
      rcases h.waiting k (hactive k) with hpc | hpc <;> rw [hpc] <;> rfl

theorem OneThread.move {y : Task ι} (h : OneThread s) (hinv : Inv 1 s')
    (htask : s'.task = Function.update s.task t y) (hfirst : s'.first = s.first)
    (hwaiting : y.active = false → y.pc = .created ∨ y.pc = .callLock)
    (hrunning : y.pc.passed = false ∧ y.pc ≠ .wait) : OneThread s' where
  inv := hinv
  waiting k := by
    rw [htask]
    exact forall_update (P := fun x : Task ι => x.active = false → x.pc = .created ∨ x.pc = .callLock)
      hwaiting h.waiting k
  running k := by
    rw [htask]
    exact forall_update (P := fun x : Task ι => x.pc.passed = false ∧ x.pc ≠ .wait)
      hrunning h.running k
  first := by rw [hfirst, h.first]

theorem OneThread.step (h : OneThread s) (hcard : 1 < Fintype.card ι) {a : Act ι}
    (hs : step 1 s a = some s') : OneThread s' := by
  have hinv := step_inv h.inv hs
  cases a with
  | run t =>
      simp only [StatefulTaskMutex.step] at hs
      split_ifs at hs with hpc
      cases hs
      exact h.move hinv rfl rfl (fun _ => .inr rfl) ⟨rfl, by simp⟩
  | take t =>
      simp only [StatefulTaskMutex.step] at hs
      split_ifs at hs with hg
      cases hs
      exact h.move hinv rfl rfl (fun hact => absurd hact (by simp)) (h.running t)
  | exec t =>
      simp only [StatefulTaskMutex.step] at hs
      split_ifs at hs with hactive
      obtain ⟨hpassed, hwait⟩ := h.running t
      cases hpc : (s.task t).pc with
      | created | finished => simp [multiplexImpl, hpc] at hs
      | wait => exact absurd hpc hwait
      | leave | unlock | signal _ | unlocked | done => simp [hpc, Pc.passed] at hpassed
      | callLock | locked =>
          simp only [multiplexImpl, hpc, Option.some.injEq] at hs
          subst hs
          exact h.move hinv rfl rfl (fun hact => absurd hact (by simp [hactive])) ⟨rfl, by simp⟩
      | lock =>
          simp only [multiplexImpl, hpc, Option.some.injEq] at hs
          have hplaced := h.inv.handover.placed t
          simp only [Placed, hpc] at hplaced
          -- an owner would have the thread
          have hfree : M.owner s.mutex = none := by
            rw [Option.eq_none_iff_forall_ne_some]
            intro o howns
            have hplacedo := h.inv.handover.placed o
            have hactiveo : (s.task o).active = true := by
              by_contra hact
              rw [Bool.not_eq_true] at hact
              rcases h.waiting o hact with hpco | hpco
              · simp only [Placed, hpco] at hplacedo
                exact hplacedo.2.2.1 howns
              · simp only [Placed, hpco] at hplacedo
                exact hplacedo.2.1 howns
            have hot := h.alone hactiveo hactive
            exact hplaced.2.2.1 (hot ▸ howns)
          simp only [(M.lock_free t hfree).1, if_true] at hs
          subst hs
          exact h.move hinv rfl rfl (fun hact => absurd hact (by simp [hactive])) ⟨rfl, by simp⟩
      | criticalArea =>
          have hspin : (s.first && s.locked < Fintype.card ι) = true := by
            have hle := h.locked_le
            simp only [h.first, Bool.true_and, decide_eq_true_eq]
            omega
          simp only [multiplexImpl, hpc, hspin, if_true, reduceCtorEq] at hs

/-- The test comes to its end whatever the order of the steps, if the pool has a second
thread or there is but one task. Otherwise it never does: the first task waits, inside
of the critical area, for tasks that do not get a thread. -/
theorem test_completes_iff [Nonempty ι] (M : HandoverMutex ι) (threads : ℕ) (hthreads : 0 < threads) :
    Completes (step threads) Ended (initial : State M) ↔ 2 ≤ threads ∨ Fintype.card ι = 1 := by
  constructor
  · intro hcompletes
    by_contra hspare
    have hone : threads = 1 := by omega
    have hcard : 1 < Fintype.card ι := by
      have hpos := Fintype.card_pos (α := ι)
      omega
    subst hone
    obtain ⟨acts, u, hrun, hend⟩ := hcompletes.extends (run_nil initial)
    have h : OneThread u :=
      invariant (I := OneThread) (fun v a w hv hs => hv.step hcard hs) oneThread_initial hrun
    obtain ⟨k⟩ := ‹Nonempty ι›
    have hpassed := (h.running k).1
    rw [hend.2 k] at hpassed
    cases hpassed
  · intro hspare
    exact completes (I := Inv threads) (fun u a v hu hs => step_inv hu hs) (fun u a v _ hs => ahead_step hs)
      (fun u hu hend => exists_step hu hthreads hspare hend) (inv_initial threads)

end Runs

theorem test_completes_iff_two :
    Completes (step 2) Ended (initial : State (HandoverMutex.fifo Bool)) ∧
      ¬ Completes (step 1) Ended (initial : State (HandoverMutex.fifo Bool)) :=
  ⟨(test_completes_iff _ 2 (by decide)).mpr (.inl (by decide)),
    fun h => absurd ((test_completes_iff _ 1 (by decide)).mp h) (by decide)⟩

end StatefulTaskMutex
