import TaskSuite.Machine
import TaskSuite.Tally

/-! The read/write lock `TaskMutex` of `FileLock_test.cxx`, which a task tries to
obtain, and any number of tasks that share one. -/
namespace TaskMutex
open Machine Tally

/-- The write owner is `none` where the source has nullptr. `m_readers` is an `int`
there and unbounded here: fewer than `2 ^ 31` tasks hold a read lock. -/
structure Mutex (ι : Type) where
  writeOwner : Option ι
  readers : Int
  deriving DecidableEq, Repr

variable {ι : Type}

namespace Mutex

def initial : Mutex ι := ⟨none, 0⟩

def wrlock (m : Mutex ι) (owner : ι) : Mutex ι × Bool :=
  let success := m.writeOwner.isNone && m.readers = 0
  (if success then { m with writeOwner := some owner } else m, success)

def rdlock (m : Mutex ι) : Mutex ι × Bool :=
  let success := m.writeOwner.isNone
  (if success then { m with readers := m.readers + 1 } else m, success)

/-- The first ASSERT of `wr2rdlock`, made before `m_mutex` is locked. -/
def wr2rdlockAssert (m : Mutex ι) : Bool := m.writeOwner.isSome

/-- The rest of `wr2rdlock`; none if its ASSERT fails. -/
def wr2rdlock (m : Mutex ι) : Option (Mutex ι) := if m.readers = 0 then some ⟨none, 1⟩ else none

def resetOwner (m : Mutex ι) : Option (Mutex ι) :=
  if m.writeOwner.isSome then some { m with writeOwner := none } else none

def releaseRdlock (m : Mutex ι) : Option (Mutex ι) :=
  if m.readers > 0 then some { m with readers := m.readers - 1 } else none

end Mutex

/-- The locks that a task obtained with success and did not release. One that is
being converted is still a write lock. -/
structure Holding where
  writes : Nat
  converting : Nat
  reads : Nat

def Holding.writeLocks (h : Holding) : Nat := h.writes + h.converting

structure State (ι : Type) where
  mutex : Mutex ι
  holding : ι → Holding

def initial : State ι := ⟨.initial, fun _ => ⟨0, 0, 0⟩⟩

inductive Act (ι : Type) where
  | wrlock (t : ι)
  | rdlock (t : ι)
  | wr2rdlockAssert (t : ι)
  | wr2rdlock (t : ι)
  | resetOwner (t : ι)
  | releaseRdlock (t : ι)

def Allowed (s : State ι) : Act ι → Prop
  | .wrlock _ | .rdlock _ => True
  | .wr2rdlockAssert t | .resetOwner t => 0 < (s.holding t).writes
  | .wr2rdlock t => 0 < (s.holding t).converting
  | .releaseRdlock t => 0 < (s.holding t).reads

instance (s : State ι) : ∀ a, Decidable (Allowed s a)
  | .wrlock _ | .rdlock _ => isTrue trivial
  | .wr2rdlockAssert t | .resetOwner t => Nat.decLt 0 (s.holding t).writes
  | .wr2rdlock t => Nat.decLt 0 (s.holding t).converting
  | .releaseRdlock t => Nat.decLt 0 (s.holding t).reads

section Steps
variable [DecidableEq ι]

def State.give (s : State ι) (m : Mutex ι) (t : ι) (h : Holding) : State ι :=
  ⟨m, Function.update s.holding t h⟩

/-- The critical section of a call, or the ASSERT in front of it; none if an
ASSERT fails. -/
def step (s : State ι) : Act ι → Option (State ι)
  | .wrlock t =>
      let h := s.holding t
      let (m, success) := s.mutex.wrlock t
      some (s.give m t (if success then { h with writes := h.writes + 1 } else h))
  | .rdlock t =>
      let h := s.holding t
      let (m, success) := s.mutex.rdlock
      some (s.give m t (if success then { h with reads := h.reads + 1 } else h))
  | .wr2rdlockAssert t =>
      let h := s.holding t
      if s.mutex.wr2rdlockAssert then
        some (s.give s.mutex t { h with writes := h.writes - 1, converting := h.converting + 1 })
      else none
  | .wr2rdlock t =>
      let h := s.holding t
      s.mutex.wr2rdlock.map fun m =>
        s.give m t { h with converting := h.converting - 1, reads := h.reads + 1 }
  | .resetOwner t =>
      let h := s.holding t
      s.mutex.resetOwner.map fun m => s.give m t { h with writes := h.writes - 1 }
  | .releaseRdlock t =>
      let h := s.holding t
      s.mutex.releaseRdlock.map fun m => s.give m t { h with reads := h.reads - 1 }

end Steps

/-! ### The invariant -/

section Invariant
variable [Fintype ι]

def State.readLocks (s : State ι) : Int := tally (fun h : Holding => (h.reads : Int)) s.holding

variable [DecidableEq ι]

/-- The two fields say what the tasks hold. -/
structure Inv (s : State ι) : Prop where
  owner : ∀ t, (s.holding t).writeLocks = if s.mutex.writeOwner = some t then 1 else 0
  readers : s.mutex.readers = s.readLocks
  exclusive : s.mutex.writeOwner ≠ none → s.mutex.readers = 0

variable {s : State ι} {m : Mutex ι} {t : ι} {h : Holding}

theorem inv_initial : Inv (initial : State ι) where
  owner _ := rfl
  readers := (tally_const _ _ rfl).symm
  exclusive hne := absurd rfl hne

theorem readLocks_give : (s.give m t h).readLocks = s.readLocks - (s.holding t).reads + h.reads :=
  tally_update _ _ t h

omit [DecidableEq ι] in
theorem reads_le_readLocks (s : State ι) (t : ι) : ((s.holding t).reads : Int) ≤ s.readLocks := by
  have hle := @weight_le_tally ι Holding _ (fun h => (h.reads : Int))
    (fun h => Int.natCast_nonneg h.reads) s.holding t
  exact hle

theorem Inv.writeOwner_of_pos (hs : Inv s) (ht : 0 < (s.holding t).writeLocks) :
    s.mutex.writeOwner = some t := by
  by_contra hne
  have howner := hs.owner t
  rw [if_neg hne] at howner
  omega

theorem Inv.give (hs : Inv s) (howner : h.writeLocks = if m.writeOwner = some t then 1 else 0)
    (hothers : ∀ u, u ≠ t → (m.writeOwner = some u ↔ s.mutex.writeOwner = some u))
    (hreaders : m.readers = s.mutex.readers - (s.holding t).reads + h.reads)
    (hexclusive : m.writeOwner ≠ none → m.readers = 0) : Inv (s.give m t h) where
  owner u := by
    by_cases hut : u = t
    · subst hut
      change (Function.update s.holding u h u).writeLocks = _
      rw [Function.update_self]
      exact howner
    · simp only [State.give, Function.update_of_ne hut, hs.owner u, hothers u hut]
  readers := by
    rw [readLocks_give, ← hs.readers]
    exact hreaders
  exclusive := hexclusive

theorem Inv.wrlock (hs : Inv s) (t : ι) : ∃ s', step s (.wrlock t) = some s' ∧ Inv s' := by
  refine ⟨_, rfl, ?_⟩
  have howner := hs.owner t
  cases hsuccess : s.mutex.writeOwner.isNone && decide (s.mutex.readers = 0) with
  | false =>
      simp only [Bool.false_eq_true, if_false]
      exact hs.give howner (fun _ _ => Iff.rfl) (by omega) hs.exclusive
  | true =>
      obtain ⟨hnone, hzero⟩ := Bool.and_eq_true_iff.mp hsuccess
      have hnone := Option.isNone_iff_eq_none.mp hnone
      have hzero := of_decide_eq_true hzero
      rw [hnone, if_neg nofun, Holding.writeLocks] at howner
      simp only [if_true]
      refine hs.give ?_ (fun u hut => ?_) ?_ (fun _ => hzero)
      · simp only [Holding.writeLocks, if_true]
        omega
      · simp [hnone, Ne.symm hut]
      · dsimp only
        omega

theorem Inv.rdlock (hs : Inv s) (t : ι) : ∃ s', step s (.rdlock t) = some s' ∧ Inv s' := by
  refine ⟨_, rfl, ?_⟩
  have howner := hs.owner t
  cases hsuccess : s.mutex.writeOwner.isNone with
  | false =>
      simp only [Bool.false_eq_true, if_false]
      exact hs.give howner (fun _ _ => Iff.rfl) (by omega) hs.exclusive
  | true =>
      have hnone := Option.isNone_iff_eq_none.mp hsuccess
      simp only [if_true]
      refine hs.give howner (fun _ _ => Iff.rfl) ?_ (fun hne => absurd hnone hne)
      push_cast
      omega

/-- The owner holds one write lock, and nobody holds a read lock. -/
theorem Inv.owned (hs : Inv s) (ht : 0 < (s.holding t).writeLocks) :
    s.mutex.writeOwner = some t ∧ (s.holding t).writeLocks = 1 ∧ s.mutex.readers = 0 ∧
      (s.holding t).reads = 0 := by
  have hsome := hs.writeOwner_of_pos ht
  have howner := hs.owner t
  rw [if_pos hsome] at howner
  have hzero := hs.exclusive (by rw [hsome]; exact nofun)
  have hreads := reads_le_readLocks s t
  rw [← hs.readers] at hreads
  exact ⟨hsome, howner, hzero, by omega⟩

theorem Inv.disown (hs : Inv s) (ht : 0 < (s.holding t).writeLocks) (hnone : m.writeOwner = none)
    (hlocks : h.writeLocks = 0) (hreads : m.readers = h.reads) : Inv (s.give m t h) := by
  obtain ⟨hsome, -, hzero, hold⟩ := hs.owned ht
  refine hs.give ?_ (fun u hut => ?_) (by omega) (fun hne => absurd hnone hne)
  · rw [hnone, if_neg nofun]
    exact hlocks
  · simp [hnone, hsome, Ne.symm hut]

theorem Inv.wr2rdlockAssert (hs : Inv s) (ht : 0 < (s.holding t).writes) :
    ∃ s', step s (.wr2rdlockAssert t) = some s' ∧ Inv s' := by
  have hpos : 0 < (s.holding t).writeLocks := Nat.add_pos_left ht _
  obtain ⟨hsome, howner, -, -⟩ := hs.owned hpos
  have hassert : s.mutex.wr2rdlockAssert = true := by rw [Mutex.wr2rdlockAssert, hsome]; rfl
  refine ⟨_, if_pos hassert, hs.give ?_ (fun _ _ => Iff.rfl) ?_ hs.exclusive⟩
  · simp only [Holding.writeLocks] at howner ⊢
    rw [if_pos hsome]
    omega
  · dsimp only
    omega

theorem Inv.wr2rdlock (hs : Inv s) (ht : 0 < (s.holding t).converting) :
    ∃ s', step s (.wr2rdlock t) = some s' ∧ Inv s' := by
  have hpos : 0 < (s.holding t).writeLocks := Nat.add_pos_right _ ht
  obtain ⟨-, howner, hzero, hreads⟩ := hs.owned hpos
  have hassert : s.mutex.wr2rdlock = some ⟨none, 1⟩ := if_pos hzero
  rw [Holding.writeLocks] at howner
  refine ⟨_, by rw [step, hassert]; rfl, hs.disown hpos rfl ?_ ?_⟩
  · dsimp only [Holding.writeLocks]
    omega
  · rw [hreads]
    rfl

theorem Inv.resetOwner (hs : Inv s) (ht : 0 < (s.holding t).writes) :
    ∃ s', step s (.resetOwner t) = some s' ∧ Inv s' := by
  have hpos : 0 < (s.holding t).writeLocks := Nat.add_pos_left ht _
  obtain ⟨hsome, howner, hzero, hreads⟩ := hs.owned hpos
  have hassert : s.mutex.resetOwner = some { s.mutex with writeOwner := none } :=
    if_pos (by rw [hsome]; rfl)
  rw [Holding.writeLocks] at howner
  refine ⟨_, by rw [step, hassert]; rfl, hs.disown hpos rfl ?_ ?_⟩
  · dsimp only [Holding.writeLocks]
    omega
  · dsimp only
    omega

theorem Inv.releaseRdlock (hs : Inv s) (ht : 0 < (s.holding t).reads) :
    ∃ s', step s (.releaseRdlock t) = some s' ∧ Inv s' := by
  have hreads := reads_le_readLocks s t
  rw [← hs.readers] at hreads
  have hassert : s.mutex.releaseRdlock = some { s.mutex with readers := s.mutex.readers - 1 } :=
    if_pos (by omega)
  refine ⟨s.give { s.mutex with readers := s.mutex.readers - 1 } t
    { s.holding t with reads := (s.holding t).reads - 1 }, by rw [step, hassert]; rfl,
    hs.give (hs.owner t) (fun _ _ => Iff.rfl) ?_ fun hne => ?_⟩
  · dsimp only
    omega
  · have hzero := hs.exclusive hne
    omega

/-- An allowed call keeps the invariant, and its ASSERTs hold. -/
theorem Inv.step (hs : Inv s) {a : Act ι} (hg : Allowed s a) : ∃ s', step s a = some s' ∧ Inv s' := by
  cases a with
  | wrlock t => exact hs.wrlock t
  | rdlock t => exact hs.rdlock t
  | wr2rdlockAssert t => exact hs.wr2rdlockAssert hg
  | wr2rdlock t => exact hs.wr2rdlock hg
  | resetOwner t => exact hs.resetOwner hg
  | releaseRdlock t => exact hs.releaseRdlock hg

/-- The fields of the mutex say what the tasks hold, and an attempt to obtain a
lock succeeds exactly if what they hold allows it. -/
structure Correct (s : State ι) : Prop where
  owner : ∀ t, s.mutex.writeOwner = some t ↔ 0 < (s.holding t).writeLocks
  readers : s.mutex.readers = ∑ t, ((s.holding t).reads : Int)
  exclusive : ¬ (s.mutex.writeOwner ≠ none ∧ 0 < s.mutex.readers)
  wrlock : ∀ t, (s.mutex.wrlock t).2 = true ↔
    ∀ u, (s.holding u).writeLocks = 0 ∧ (s.holding u).reads = 0
  wrlock_refused : ∀ t, (s.mutex.wrlock t).2 = false → (s.mutex.wrlock t).1 = s.mutex
  rdlock : s.mutex.rdlock.2 = true ↔ ∀ u, (s.holding u).writeLocks = 0
  rdlock_refused : s.mutex.rdlock.2 = false → s.mutex.rdlock.1 = s.mutex

theorem Inv.writeOwner_eq_none (hs : Inv s) :
    s.mutex.writeOwner = none ↔ ∀ u, (s.holding u).writeLocks = 0 := by
  constructor
  · intro hnone u
    rw [hs.owner u, hnone]
    rfl
  · intro hzero
    rw [Option.eq_none_iff_forall_ne_some]
    intro t hsome
    have howner := hs.owner t
    rw [if_pos hsome, hzero t] at howner
    cases howner

theorem Inv.readers_eq_zero (hs : Inv s) :
    s.mutex.readers = 0 ↔ ∀ u, (s.holding u).reads = 0 := by
  rw [hs.readers]
  constructor
  · intro hzero u
    have hle := reads_le_readLocks s u
    omega
  · intro hzero
    exact tally_eq_zero fun u => by simp [hzero u]

theorem Inv.correct (hs : Inv s) : Correct s where
  owner t := by
    rw [hs.owner t]
    split_ifs with hsome
    · simp [hsome]
    · simp [hsome]
  readers := hs.readers
  exclusive := by
    rintro ⟨hne, hpos⟩
    rw [hs.exclusive hne] at hpos
    cases hpos
  wrlock t := by
    simp only [Mutex.wrlock, Bool.and_eq_true, Option.isNone_iff_eq_none, decide_eq_true_eq,
      hs.writeOwner_eq_none, hs.readers_eq_zero, forall_and]
  wrlock_refused t hfail := by
    simp only [Mutex.wrlock] at hfail ⊢
    rw [hfail]
    rfl
  rdlock := by
    simp only [Mutex.rdlock, Option.isNone_iff_eq_none, hs.writeOwner_eq_none]
  rdlock_refused hfail := by
    simp only [Mutex.rdlock] at hfail ⊢
    rw [hfail]
    rfl

end Invariant

/-- However the calls of the tasks are interleaved, as long as each task releases
and converts only what it holds: no ASSERT fails, and the lock is correct. -/
theorem task_mutex_correct [Fintype ι] [DecidableEq ι] (acts : List (Act ι))
    (hg : Along step Allowed initial acts) :
    ∃ s : State ι, run step initial acts = some s ∧ Correct s := by
  obtain ⟨s, hs, hinv⟩ := progress_along (fun _ _ h hg => h.step hg) inv_initial hg
  exact ⟨s, hs, hinv.correct⟩

/-- A conversion with an attempt of another task in the middle, and a task that
holds two read locks. -/
theorem task_mutex_correct_conversion :
    ∃ s : State (Fin 2), run step initial [.wrlock 0, .wr2rdlockAssert 0, .rdlock 1, .wr2rdlock 0,
      .rdlock 0, .rdlock 1, .releaseRdlock 0] = some s ∧ Correct s :=
  task_mutex_correct _ (by decide)

end TaskMutex
