import TaskSuite.Completion
import TaskSuite.Tally
import TaskSuite.TaskCondition

/-! The tasks of `AIStatefulTaskMutex_test.cxx`, run by the threads of a pool. The
mutex itself is not part of the repository; what the test relies on is a parameter. -/
namespace StatefulTaskMutex
open Machine Tally

/-- A mutex that a task either obtains at once or queues up for. `unlock` passes it on
to one of the tasks in the queue, which then has to be signalled. -/
structure HandoverMutex (ι : Type) where
  Carrier : Type
  initial : Carrier
  lock : Carrier → ι → Carrier × Bool
  unlock : Carrier → Carrier × Option ι
  owner : Carrier → Option ι
  waiting : Carrier → Multiset ι
  owner_initial : owner initial = none
  waiting_initial : waiting initial = 0
  lock_free {m : Carrier} (t : ι) : owner m = none →
    (lock m t).2 = true ∧ owner (lock m t).1 = some t ∧ waiting (lock m t).1 = waiting m
  lock_held {m : Carrier} (t : ι) : owner m ≠ none →
    (lock m t).2 = false ∧ owner (lock m t).1 = owner m ∧ waiting (lock m t).1 = t ::ₘ waiting m
  unlock_last {m : Carrier} : waiting m = 0 →
    (unlock m).2 = none ∧ owner (unlock m).1 = none ∧ waiting (unlock m).1 = 0
  unlock_next {m : Carrier} : waiting m ≠ 0 →
    ∃ u, (unlock m).2 = some u ∧ owner (unlock m).1 = some u ∧ waiting m = u ::ₘ waiting (unlock m).1

def HandoverMutex.fifo (ι : Type) : HandoverMutex ι where
  Carrier := Option ι × List ι
  initial := (none, [])
  lock m t :=
    match m with
    | (none, queue) => ((some t, queue), true)
    | (some u, queue) => ((some u, queue ++ [t]), false)
  unlock m :=
    match m with
    | (_, []) => ((none, []), none)
    | (_, u :: queue) => ((some u, queue), some u)
  owner m := m.1
  waiting m := m.2
  owner_initial := rfl
  waiting_initial := rfl
  lock_free := by
    rintro ⟨_ | _, _⟩ t h
    · exact ⟨rfl, rfl, rfl⟩
    · cases h
  lock_held := by
    rintro ⟨_ | _, queue⟩ t h
    · exact absurd rfl h
    · refine ⟨rfl, rfl, ?_⟩
      rw [Multiset.cons_coe, Multiset.coe_eq_coe]
      exact List.perm_append_singleton t queue
  unlock_last := by
    rintro ⟨_, _ | _⟩ h
    · exact ⟨rfl, rfl, rfl⟩
    · simp at h
  unlock_next := by
    rintro ⟨_, _ | ⟨u, queue⟩⟩ h
    · exact absurd rfl h
    · exact ⟨u, rfl, rfl, rfl⟩

/-- The states of `multiplex_impl`, and the places inside of them where other tasks
can come in between. -/
inductive Pc (ι : Type) where
  /-- not run yet -/
  | created
  /-- `m_locked++`, in `MyTask_call_lock` -/
  | callLock
  /-- `mutex.lock(this, 1)` -/
  | lock
  /-- `wait(1)` -/
  | wait
  /-- `ASSERT(m_inside_critical_area++ == 0)`, in `MyTask_locked` -/
  | locked
  /-- the test of `first`, and the loop behind it, in `MyTask_critical_area` -/
  | criticalArea
  /-- `ASSERT(m_inside_critical_area-- == 1)` -/
  | leave
  /-- `mutex.unlock()` -/
  | unlock
  /-- the signal that `unlock` gives to the next owner -/
  | signal (u : ι)
  /-- `m_locked--` -/
  | unlocked
  /-- `finish()` and the call-back, in `MyTask_done` -/
  | done
  | finished
  deriving DecidableEq, Repr

/-- `active` is set while a thread of the pool runs the task. -/
structure Task (ι : Type) where
  pc : Pc ι
  cond : Condition
  active : Bool
  deriving DecidableEq, Repr

/-- `failed` is set by an ASSERT that does not hold. -/
structure State {ι : Type} (M : HandoverMutex ι) where
  mutex : M.Carrier
  locked : ℤ
  insideCriticalArea : ℤ
  finishedCounter : ℤ
  first : Bool
  testFinished : Bool
  failed : Bool
  task : ι → Task ι

inductive Act (ι : Type) where
  /-- `tasks[i]->run(handler, ...)` -/
  | run (t : ι)
  /-- A thread of the pool takes the task out of the queue. -/
  | take (t : ι)
  /-- The task does its next step. -/
  | exec (t : ι)
  deriving DecidableEq, Repr

variable {ι : Type} {M : HandoverMutex ι}

def initial : State M :=
  ⟨M.initial, 0, 0, 0, true, false, false, fun _ => ⟨.created, .running, false⟩⟩

section Steps
variable [Fintype ι] [DecidableEq ι]

def State.busy (s : State M) : ℤ := tally (fun x : Task ι => if x.active then 1 else 0) s.task

def State.set (s : State M) (t : ι) (x : Task ι) : State M :=
  { s with task := Function.update s.task t x }

/-- `number_of_tasks` is the number of elements of `ι`. -/
def multiplexImpl (s : State M) (t : ι) (x : Task ι) : Option (State M) :=
  match x.pc with
  | .created | .finished => none
  | .callLock => some ({ s with locked := s.locked + 1 }.set t { x with pc := .lock })
  | .lock =>
      let (mutex, success) := M.lock s.mutex t
      some ({ s with mutex }.set t { x with pc := if success then .locked else .wait })
  | .wait => x.cond.wait.map fun cond => s.set t ⟨.locked, cond, cond ≠ .idle⟩
  | .locked =>
      some ({ s with
        insideCriticalArea := s.insideCriticalArea + 1
        failed := s.failed || s.insideCriticalArea ≠ 0 }.set t { x with pc := .criticalArea })
  | .criticalArea =>
      -- a thread that stays in the loop does not get to its next step
      if s.first && s.locked < Fintype.card ι then none
      else some ({ s with first := false }.set t { x with pc := .leave })
  | .leave =>
      some ({ s with
        insideCriticalArea := s.insideCriticalArea - 1
        failed := s.failed || s.insideCriticalArea ≠ 1 }.set t { x with pc := .unlock })
  | .unlock =>
      let (mutex, next) := M.unlock s.mutex
      some ({ s with mutex }.set t { x with
        pc := match next with
          | some u => .signal u
          | none => .unlocked })
  | .signal u =>
      let s' := s.set t { x with pc := .unlocked }
      some (s'.set u { s'.task u with cond := (s'.task u).cond.signal })
  | .unlocked => some ({ s with locked := s.locked - 1 }.set t { x with pc := .done })
  | .done =>
      some ({ s with
        finishedCounter := s.finishedCounter + 1
        testFinished := s.testFinished || s.finishedCounter = Fintype.card ι - 1 }.set t
          { x with pc := .finished, active := false })

/-- `threads` is the size of the pool. An idle task is not in the queue. -/
def step (threads : ℕ) (s : State M) : Act ι → Option (State M)
  | .run t =>
      if (s.task t).pc = .created then some (s.set t ⟨.callLock, .running, false⟩) else none
  | .take t =>
      let x := s.task t
      if !x.active ∧ x.cond ≠ .idle ∧ x.pc ≠ .created ∧ x.pc ≠ .finished ∧ s.busy < threads then
        some (s.set t { x with active := true })
      else none
  | .exec t => if (s.task t).active then multiplexImpl s t (s.task t) else none

end Steps

/-! ### Who holds the mutex -/

section Handover

def State.Owns (s : State M) (k : ι) : Prop := M.owner s.mutex = some k

def State.Waits (s : State M) (k : ι) : Prop := k ∈ M.waiting s.mutex

/-- The task owns the mutex, but was not told so yet. -/
def State.Untold (s : State M) (k : ι) : Prop := ∃ j, (s.task j).pc = .signal k

/-- What the mutex says of a task, at each place in its code. -/
def Placed (owns waits untold : Prop) (x : Task ι) : Prop :=
  match x.pc with
  | .created | .finished => x.cond = .running ∧ x.active = false ∧ ¬ owns ∧ ¬ waits ∧ ¬ untold
  | .callLock => x.cond = .running ∧ ¬ owns ∧ ¬ waits ∧ ¬ untold
  | .lock | .signal _ | .unlocked | .done =>
      x.cond = .running ∧ x.active = true ∧ ¬ owns ∧ ¬ waits ∧ ¬ untold
  | .wait => x.active = true ∧
      (x.cond = .running ∧ ¬ owns ∧ waits ∧ ¬ untold ∨ x.cond = .running ∧ owns ∧ ¬ waits ∧ untold ∨
        x.cond = .skipWait ∧ owns ∧ ¬ waits ∧ ¬ untold)
  | .locked =>
      x.cond = .idle ∧ x.active = false ∧ (¬ owns ∧ waits ∧ ¬ untold ∨ owns ∧ ¬ waits ∧ untold) ∨
        x.cond = .running ∧ owns ∧ ¬ waits ∧ ¬ untold
  | .criticalArea | .leave | .unlock =>
      x.cond = .running ∧ x.active = true ∧ owns ∧ ¬ waits ∧ ¬ untold

/-- No task is forgotten by the mutex, and none is told twice. -/
structure Handover (s : State M) : Prop where
  placed : ∀ k, Placed (s.Owns k) (s.Waits k) (s.Untold k) (s.task k)
  nodup : (M.waiting s.mutex).Nodup
  held : M.owner s.mutex = none → M.waiting s.mutex = 0
  signaller : ∀ i j u v, (s.task i).pc = .signal u → (s.task j).pc = .signal v → i = j

theorem handover_initial : Handover (initial : State M) where
  placed k := by
    refine ⟨rfl, rfl, ?_, ?_, ?_⟩
    · intro howns
      rw [State.Owns, initial, M.owner_initial] at howns
      cases howns
    · intro hwaits
      rw [State.Waits, initial, M.waiting_initial] at hwaits
      exact Multiset.notMem_zero k hwaits
    · rintro ⟨j, hj⟩
      cases hj
  nodup := by
    rw [initial, M.waiting_initial]
    exact Multiset.nodup_zero
  held _ := M.waiting_initial
  signaller _ _ _ _ hi := by cases hi

theorem Placed.congr {owns waits untold owns' waits' untold' : Prop} {x : Task ι}
    (h : Placed owns waits untold x) (howns : owns' ↔ owns) (hwaits : waits' ↔ waits)
    (huntold : untold' ↔ untold) : Placed owns' waits' untold' x := by
  rwa [propext howns, propext hwaits, propext huntold]

variable [DecidableEq ι] {s s' : State M} {t : ι} {y : Task ι}

theorem untold_update (htask : s'.task = Function.update s.task t y)
    (hold : ∀ u, (s.task t).pc ≠ .signal u) (hnew : ∀ u, y.pc ≠ .signal u) (k : ι) :
    s'.Untold k ↔ s.Untold k := by
  constructor
  · rintro ⟨j, hj⟩
    rw [htask] at hj
    by_cases hjt : j = t
    · subst hjt
      rw [Function.update_self] at hj
      exact absurd hj (hnew k)
    · rw [Function.update_of_ne hjt] at hj
      exact ⟨j, hj⟩
  · rintro ⟨j, hj⟩
    refine ⟨j, ?_⟩
    rw [htask, Function.update_of_ne]
    · exact hj
    · intro hjt
      subst hjt
      exact hold k hj

theorem signaller_update (h : Handover s) (htask : s'.task = Function.update s.task t y)
    (hnew : ∀ u, y.pc ≠ .signal u) {i j u v : ι} (hi : (s'.task i).pc = .signal u)
    (hj : (s'.task j).pc = .signal v) : i = j := by
  have hkeep : ∀ k w, (s'.task k).pc = .signal w → (s.task k).pc = .signal w := by
    intro k w hk
    rw [htask] at hk
    by_cases hkt : k = t
    · subst hkt
      rw [Function.update_self] at hk
      exact absurd hk (hnew w)
    · rwa [Function.update_of_ne hkt] at hk
  exact h.signaller i j u v (hkeep i u hi) (hkeep j v hj)

theorem Handover.move (h : Handover s) (hmutex : s'.mutex = s.mutex)
    (htask : s'.task = Function.update s.task t y) (hold : ∀ u, (s.task t).pc ≠ .signal u)
    (hnew : ∀ u, y.pc ≠ .signal u) (hy : Placed (s.Owns t) (s.Waits t) (s.Untold t) y) :
    Handover s' where
  placed k := by
    have hk : Placed (s.Owns k) (s.Waits k) (s.Untold k) (s'.task k) := by
      rw [htask]
      by_cases hkt : k = t
      · subst hkt
        rwa [Function.update_self]
      · rw [Function.update_of_ne hkt]
        exact h.placed k
    refine hk.congr ?_ ?_ (untold_update htask hold hnew k)
    · rw [State.Owns, hmutex, State.Owns]
    · rw [State.Waits, hmutex, State.Waits]
  nodup := by
    rw [hmutex]
    exact h.nodup
  held := by
    rw [hmutex]
    exact h.held
  signaller _ _ _ _ := signaller_update h htask hnew

theorem Handover.lock_free (h : Handover s) (hpc : (s.task t).pc = .lock)
    (hmutex : s'.mutex = (M.lock s.mutex t).1) (hfree : M.owner s.mutex = none)
    (htask : s'.task = Function.update s.task t { s.task t with pc := .locked }) : Handover s' := by
  have hplaced := h.placed t
  simp only [Placed, hpc] at hplaced
  obtain ⟨hcond, -, -, hwaits, huntold⟩ := hplaced
  obtain ⟨-, howner, hwaiting⟩ := M.lock_free t hfree
  have hsame := untold_update htask (by simp [hpc]) (by simp)
  refine ⟨?_, ?_, ?_, fun _ _ _ _ => signaller_update h htask (by simp)⟩
  · intro k
    have hwaits' : s'.Waits k ↔ s.Waits k := by rw [State.Waits, hmutex, hwaiting, State.Waits]
    by_cases hk : k = t
    · subst hk
      rw [htask, Function.update_self]
      refine .inr ⟨hcond, ?_, hwaits'.not.mpr hwaits, (hsame k).not.mpr huntold⟩
      rw [State.Owns, hmutex, howner]
    · rw [htask, Function.update_of_ne hk]
      refine (h.placed k).congr ?_ hwaits' (hsame k)
      rw [State.Owns, State.Owns, hmutex, howner, hfree]
      simp [Ne.symm hk]
  · rw [hmutex, hwaiting]
    exact h.nodup
  · rw [hmutex, howner]
    intro hnone
    cases hnone

theorem Handover.lock_held (h : Handover s) (hpc : (s.task t).pc = .lock)
    (hmutex : s'.mutex = (M.lock s.mutex t).1) (hheld : M.owner s.mutex ≠ none)
    (htask : s'.task = Function.update s.task t { s.task t with pc := .wait }) : Handover s' := by
  have hplaced := h.placed t
  simp only [Placed, hpc] at hplaced
  obtain ⟨hcond, hactive, howns, hwaits, huntold⟩ := hplaced
  obtain ⟨-, howner, hwaiting⟩ := M.lock_held t hheld
  have hsame := untold_update htask (by simp [hpc]) (by simp)
  have howns' : ∀ k, s'.Owns k ↔ s.Owns k := by
    intro k
    rw [State.Owns, hmutex, howner, State.Owns]
  refine ⟨?_, ?_, ?_, fun _ _ _ _ => signaller_update h htask (by simp)⟩
  · intro k
    by_cases hk : k = t
    · subst hk
      rw [htask, Function.update_self]
      refine ⟨hactive, .inl ⟨hcond, (howns' k).not.mpr howns, ?_, (hsame k).not.mpr huntold⟩⟩
      rw [State.Waits, hmutex, hwaiting]
      exact Multiset.mem_cons_self k _
    · rw [htask, Function.update_of_ne hk]
      refine (h.placed k).congr (howns' k) ?_ (hsame k)
      rw [State.Waits, State.Waits, hmutex, hwaiting, Multiset.mem_cons]
      simp [hk]
  · rw [hmutex, hwaiting, Multiset.nodup_cons]
    exact ⟨hwaits, h.nodup⟩
  · rw [hmutex, howner]
    intro hnone
    exact absurd hnone hheld

/-- `mutex.lock` of a task that neither owns the mutex nor waits for it. -/
theorem Handover.lock (h : Handover s) (hpc : (s.task t).pc = .lock)
    (hmutex : s'.mutex = (M.lock s.mutex t).1)
    (htask : s'.task = Function.update s.task t
      { s.task t with pc := if (M.lock s.mutex t).2 then .locked else .wait }) : Handover s' := by
  by_cases hfree : M.owner s.mutex = none
  · rw [(M.lock_free t hfree).1] at htask
    exact h.lock_free hpc hmutex hfree htask
  · rw [(M.lock_held t hfree).1] at htask
    exact h.lock_held hpc hmutex hfree htask

omit [DecidableEq ι] in
theorem Handover.no_signal (h : Handover s) (howns : s.Owns t) (huntold : ¬ s.Untold t) (j v : ι) :
    (s.task j).pc ≠ .signal v := by
  intro hj
  have hv := h.placed v
  have huntold' : s.Untold v := ⟨j, hj⟩
  have hvt : v ≠ t := fun hvt => huntold (hvt ▸ huntold')
  have howns' : ¬ s.Owns v := by
    intro hv
    rw [State.Owns, howns] at hv
    exact hvt (Option.some.inj hv).symm
  unfold Placed at hv
  split at hv <;> simp [huntold', howns'] at hv

omit [DecidableEq ι] in
theorem State.Owns.not_of_ne (howns : s.Owns t) {k : ι} (hk : k ≠ t) : ¬ s.Owns k := by
  intro hk'
  rw [State.Owns, howns] at hk'
  exact hk (Option.some.inj hk').symm

theorem Handover.unlock_last (h : Handover s) (hpc : (s.task t).pc = .unlock)
    (hmutex : s'.mutex = (M.unlock s.mutex).1) (hlast : M.waiting s.mutex = 0)
    (htask : s'.task = Function.update s.task t { s.task t with pc := .unlocked }) : Handover s' := by
  have hplaced := h.placed t
  simp only [Placed, hpc] at hplaced
  obtain ⟨hcond, hactive, howns, hwaits, huntold⟩ := hplaced
  obtain ⟨-, howner, hwaiting⟩ := M.unlock_last hlast
  have hsame := untold_update htask (h.no_signal howns huntold t) (by simp)
  have howns' : ∀ k, ¬ s'.Owns k := by
    intro k hk
    rw [State.Owns, hmutex, howner] at hk
    cases hk
  have hwaits' : ∀ k, s'.Waits k ↔ s.Waits k := by
    intro k
    rw [State.Waits, State.Waits, hmutex, hwaiting, hlast]
  refine ⟨?_, ?_, ?_, fun _ _ _ _ => signaller_update h htask (by simp)⟩
  · intro k
    by_cases hk : k = t
    · subst hk
      rw [htask, Function.update_self]
      exact ⟨hcond, hactive, howns' k, (hwaits' k).not.mpr hwaits, (hsame k).not.mpr huntold⟩
    · rw [htask, Function.update_of_ne hk]
      exact (h.placed k).congr (iff_of_false (howns' k) (howns.not_of_ne hk)) (hwaits' k) (hsame k)
  · rw [hmutex, hwaiting]
    exact Multiset.nodup_zero
  · intro _
    rw [hmutex, hwaiting]

theorem pc_eq_signal_iff {u : ι} (htask : s'.task = Function.update s.task t y) (hy : y.pc = .signal u)
    (hquiet : ∀ j v, (s.task j).pc ≠ .signal v) (j v : ι) :
    (s'.task j).pc = .signal v ↔ j = t ∧ v = u := by
  rw [htask]
  by_cases hjt : j = t
  · subst hjt
    rw [Function.update_self, hy, Pc.signal.injEq, eq_comm]
    exact (and_iff_right rfl).symm
  · rw [Function.update_of_ne hjt]
    exact iff_of_false (hquiet j v) fun hj => hjt hj.1

theorem Handover.unlock_next {u : ι} (h : Handover s) (hpc : (s.task t).pc = .unlock)
    (howner : M.owner s'.mutex = some u) (hwaiting : M.waiting s.mutex = u ::ₘ M.waiting s'.mutex)
    (htask : s'.task = Function.update s.task t { s.task t with pc := .signal u }) : Handover s' := by
  have hplaced := h.placed t
  simp only [Placed, hpc] at hplaced
  obtain ⟨hcond, hactive, howns, hwaits, huntold⟩ := hplaced
  have hquiet := h.no_signal howns huntold
  have hsignal := pc_eq_signal_iff htask rfl hquiet
  have hnodup := h.nodup
  rw [hwaiting, Multiset.nodup_cons] at hnodup
  have hu : s.Waits u := by
    rw [State.Waits, hwaiting]
    exact Multiset.mem_cons_self u _
  have hut : u ≠ t := fun hut => hwaits (hut ▸ hu)
  have howns' : ∀ k, s'.Owns k ↔ k = u := by
    intro k
    rw [State.Owns, howner, Option.some_inj, eq_comm]
  have huntold' : ∀ k, s'.Untold k ↔ k = u := fun k =>
    ⟨fun ⟨j, hj⟩ => ((hsignal j k).mp hj).2, fun hk => ⟨t, (hsignal t k).mpr ⟨rfl, hk⟩⟩⟩
  have hwaits' : ∀ k, k ≠ u → (s'.Waits k ↔ s.Waits k) := by
    intro k hk
    rw [State.Waits, State.Waits, hwaiting, Multiset.mem_cons]
    simp [hk]
  refine ⟨?_, hnodup.2, ?_, ?_⟩
  · intro k
    by_cases hk : k = t
    · subst hk
      rw [htask, Function.update_self]
      exact ⟨hcond, hactive, (howns' k).not.mpr (Ne.symm hut), (hwaits' k (Ne.symm hut)).not.mpr hwaits,
        (huntold' k).not.mpr (Ne.symm hut)⟩
    · rw [htask, Function.update_of_ne hk]
      have hno : ¬ s.Untold k := fun ⟨j, hj⟩ => hquiet j k hj
      by_cases hku : k = u
      · -- the new owner waits no longer, and is still to be told
        subst hku
        have hgone : ¬ s'.Waits k := hnodup.1
        have hk := h.placed k
        have hnot := howns.not_of_ne hut
        have hown := (howns' k).mpr rfl
        have hunt := (huntold' k).mpr rfl
        unfold Placed at hk ⊢
        split at hk <;> simp_all
      · exact (h.placed k).congr (iff_of_false ((howns' k).not.mpr hku) (howns.not_of_ne hk))
          (hwaits' k hku) (iff_of_false ((huntold' k).not.mpr hku) hno)
  · rw [howner]
    intro hnone
    cases hnone
  · intro i j v w hi hj
    rw [((hsignal i v).mp hi).1, ((hsignal j w).mp hj).1]

/-- `mutex.unlock` up to the signal. -/
theorem Handover.unlock (h : Handover s) (hpc : (s.task t).pc = .unlock)
    (hmutex : s'.mutex = (M.unlock s.mutex).1)
    (htask : s'.task = Function.update s.task t { s.task t with
      pc := match (M.unlock s.mutex).2 with
        | some u => .signal u
        | none => .unlocked }) : Handover s' := by
  by_cases hlast : M.waiting s.mutex = 0
  · rw [(M.unlock_last hlast).1] at htask
    exact h.unlock_last hpc hmutex hlast htask
  · obtain ⟨u, hnext, howner, hwaiting⟩ := M.unlock_next hlast
    rw [hnext] at htask
    rw [← hmutex] at howner hwaiting
    exact h.unlock_next hpc howner hwaiting htask

/-- The signal reaches the new owner, before or after its `wait(1)`. -/
theorem Handover.signal {u : ι} (h : Handover s) (hpc : (s.task t).pc = .signal u)
    (hmutex : s'.mutex = s.mutex)
    (htask : s'.task = Function.update (Function.update s.task t { s.task t with pc := .unlocked }) u
      { s.task u with cond := (s.task u).cond.signal }) : Handover s' := by
  have hplaced := h.placed t
  simp only [Placed, hpc] at hplaced
  obtain ⟨hcond, hactive, howns, hwaits, huntold⟩ := hplaced
  have hu : s.Untold u := ⟨t, hpc⟩
  have hut : t ≠ u := fun hut => huntold (hut ▸ hu)
  have hpc' : ∀ k, k ≠ t → (s'.task k).pc = (s.task k).pc := by
    intro k hk
    rw [htask]
    by_cases hku : k = u
    · subst hku
      rw [Function.update_self]
    · rw [Function.update_of_ne hku, Function.update_of_ne hk]
  have hself : s'.task t = { s.task t with pc := .unlocked } := by
    rw [htask, Function.update_of_ne hut, Function.update_self]
  have hquiet : ∀ j k, (s'.task j).pc ≠ .signal k := by
    intro j k hj
    by_cases hjt : j = t
    · subst hjt
      rw [hself] at hj
      cases hj
    · rw [hpc' j hjt] at hj
      exact hjt (h.signaller j t k u hj hpc)
  have hnone : ∀ k, ¬ s'.Untold k := fun k ⟨j, hj⟩ => hquiet j k hj
  have howns' : ∀ k, s'.Owns k ↔ s.Owns k := by
    intro k
    rw [State.Owns, hmutex, State.Owns]
  have hwaits' : ∀ k, s'.Waits k ↔ s.Waits k := by
    intro k
    rw [State.Waits, hmutex, State.Waits]
  refine ⟨?_, ?_, ?_, fun i j v w hi => absurd hi (hquiet i v)⟩
  · intro k
    by_cases hkt : k = t
    · subst hkt
      rw [hself]
      exact ⟨hcond, hactive, (howns' k).not.mpr howns, (hwaits' k).not.mpr hwaits, hnone k⟩
    · have hk := h.placed k
      by_cases hku : k = u
      · subst hku
        have hgone := hnone k
        rw [htask, Function.update_self]
        simp only [Placed, howns' k, hwaits' k] at hk ⊢
        -- the new owner is about to wait, or waits already
        cases hpck : (s.task k).pc with
        | wait =>
            simp only [hpck, hu, not_true, and_false, false_or, or_false, and_true] at hk ⊢
            obtain ⟨hact, hrunning, hown, hnot⟩ := hk
            exact ⟨hact, .inr (.inr ⟨by rw [hrunning]; rfl, hown, hnot, hgone⟩)⟩
        | locked =>
            simp only [hpck, hu, not_true, and_false, false_or, or_false, and_true] at hk ⊢
            obtain ⟨hidle, -, hown, hnot⟩ := hk
            exact .inr ⟨by rw [hidle]; rfl, hown, hnot, hgone⟩
        | created | callLock | lock | criticalArea | leave | unlock | signal _ | unlocked | done
          | finished => simp [hpck, hu] at hk
      · rw [htask, Function.update_of_ne hku, Function.update_of_ne hkt]
        refine hk.congr (howns' k) (hwaits' k) (iff_of_false (hnone k) ?_)
        rintro ⟨j, hj⟩
        have hjt := h.signaller j t k u hj hpc
        subst hjt
        rw [hj] at hpc
        exact hku (Pc.signal.inj hpc)
  · rw [hmutex]
    exact h.nodup
  · rw [hmutex]
    exact h.held

end Handover

/-! ### What the counters say -/

section Accounts

def Pc.counted : Pc ι → ℤ
  | .lock | .wait | .locked | .criticalArea | .leave | .unlock | .signal _ | .unlocked => 1
  | .created | .callLock | .done | .finished => 0

def Pc.inside : Pc ι → ℤ
  | .criticalArea | .leave => 1
  | _ => 0

def Pc.ended : Pc ι → ℤ
  | .finished => 1
  | _ => 0

def Pc.passed : Pc ι → Bool
  | .leave | .unlock | .signal _ | .unlocked | .done | .finished => true
  | _ => false

variable [Fintype ι]

structure Accounts (threads : ℕ) (s : State M) : Prop where
  locked : s.locked = tally (fun x : Task ι => x.pc.counted) s.task
  inside : s.insideCriticalArea = tally (fun x : Task ι => x.pc.inside) s.task
  counter : s.finishedCounter = tally (fun x : Task ι => x.pc.ended) s.task
  busy : s.busy ≤ threads
  first : s.first = true → ∀ k, (s.task k).pc.passed = false
  testFinished : s.testFinished = true ↔ s.finishedCounter = Fintype.card ι ∧ 0 < Fintype.card ι

theorem accounts_initial (threads : ℕ) : Accounts threads (initial : State M) where
  locked := (tally_const _ _ rfl).symm
  inside := (tally_const _ _ rfl).symm
  counter := (tally_const _ _ rfl).symm
  busy := by
    have hnone : (initial : State M).busy = 0 := tally_const _ _ rfl
    rw [hnone]
    exact Int.natCast_nonneg threads
  first _ _ := rfl
  testFinished := by
    simp only [initial, Bool.false_eq_true, false_iff]
    omega

variable [DecidableEq ι] {threads : ℕ} {s s' : State M} {t : ι} {y : Task ι}

theorem Accounts.move (h : Accounts threads s) (htask : s'.task = Function.update s.task t y)
    (hlocked : s'.locked = s.locked - (s.task t).pc.counted + y.pc.counted)
    (hinside : s'.insideCriticalArea = s.insideCriticalArea - (s.task t).pc.inside + y.pc.inside)
    (hcounter : s'.finishedCounter = s.finishedCounter - (s.task t).pc.ended + y.pc.ended)
    (hbusy : y.active = true → (s.task t).active = true ∨ s.busy < threads)
    (hfirst : s'.first = true → s.first = true ∧ y.pc.passed = false)
    (hfinished : s'.testFinished = true ↔
      s'.finishedCounter = Fintype.card ι ∧ 0 < Fintype.card ι) : Accounts threads s' where
  locked := by
    rw [hlocked, h.locked, htask, tally_update]
  inside := by
    rw [hinside, h.inside, htask, tally_update]
  counter := by
    rw [hcounter, h.counter, htask, tally_update]
  busy := by
    have hold := h.busy
    rw [State.busy] at hold ⊢
    rw [htask, tally_update]
    cases hy : y.active with
    | false =>
        simp only [Bool.false_eq_true, if_false]
        split_ifs <;> omega
    | true =>
        rcases hbusy hy with hactive | hroom
        · simp only [hactive, if_true]
          omega
        · rw [State.busy] at hroom
          simp only [if_true]
          split_ifs <;> omega
  first hf := by
    obtain ⟨hs, hy⟩ := hfirst hf
    rw [htask]
    exact forall_update (P := fun x : Task ι => x.pc.passed = false) hy (h.first hs)
  testFinished := hfinished

omit [DecidableEq ι] in
theorem Accounts.first_eq_false (h : Accounts threads s) (ht : (s.task t).pc.passed = true) :
    s.first = false := by
  by_contra hf
  rw [Bool.not_eq_false] at hf
  rw [h.first hf t] at ht
  cases ht

omit [DecidableEq ι] in
theorem ended_le (s : State M) : tally (fun x : Task ι => x.pc.ended) s.task ≤ Fintype.card ι := by
  have hle : tally (fun x : Task ι => x.pc.ended) s.task ≤ tally (fun _ : Task ι => 1) s.task := by
    apply tally_le
    intro x
    cases hx : x.pc <;> simp [Pc.ended]
  exact hle.trans_eq (tally_eq_card fun _ => rfl)

end Accounts

end StatefulTaskMutex
