import TaskSuite.Machine
import TaskSuite.Tally

/-! The barrier behind every measurement in `run` of `mutex_test.cxx`. Its counter
is never reset, so that a thread waits until it is as large as it must be after as
many rounds. It is unbounded here; in the source it ends at 486 for each thread. A label
names the thread that does its next step. -/
namespace MutexTestBarrier
open Machine Tally

inductive Pc where
  /-- Test `loop_count`, and if there is another round, start `benchmark`. -/
  | loop
  /-- Return from `benchmark`. -/
  | benchmark
  /-- `count.fetch_add(1)` -/
  | arrive
  /-- `while (count.load() < test_nr * num_threads)` -/
  | spin
  deriving DecidableEq, Repr

structure Thread where
  testNr : Nat
  pc : Pc
  deriving DecidableEq, Repr

structure System (ι : Type*) where
  count : ℤ
  thread : ι → Thread

variable {ι : Type*}

def initial : System ι := ⟨0, fun _ => ⟨0, .loop⟩⟩

/-- Refused once the thread has left the loop. A load that keeps the thread at the
barrier changes nothing. -/
def step [Fintype ι] [DecidableEq ι] (rounds : Nat) (s : System ι) (t : ι) : Option (System ι) :=
  let testNr := (s.thread t).testNr
  match (s.thread t).pc with
  | .loop =>
      if testNr < rounds then
        some { s with thread := Function.update s.thread t ⟨testNr + 1, .benchmark⟩ }
      else none
  | .benchmark => some { s with thread := Function.update s.thread t ⟨testNr, .arrive⟩ }
  | .arrive => some ⟨s.count + 1, Function.update s.thread t ⟨testNr, .spin⟩⟩
  | .spin =>
      if s.count < testNr * Fintype.card ι then some s
      else some { s with thread := Function.update s.thread t ⟨testNr, .loop⟩ }

def Thread.started (x : Thread) : ℤ := x.testNr

def Thread.completed (x : Thread) : ℤ :=
  match x.pc with
  | .benchmark => x.testNr - 1
  | .loop | .arrive | .spin => x.testNr

def Thread.contributed (x : Thread) : ℤ :=
  match x.pc with
  | .benchmark | .arrive => x.testNr - 1
  | .loop | .spin => x.testNr

def Thread.passed (x : Thread) : ℤ :=
  match x.pc with
  | .benchmark | .arrive | .spin => x.testNr - 1
  | .loop => x.testNr

theorem Thread.started_le (x : Thread) : x.started ≤ x.passed + 1 := by
  rcases x with ⟨n, _ | _ | _ | _⟩ <;> simp [started, passed]

theorem Thread.contributed_le (x : Thread) : x.contributed ≤ x.passed + 1 := by
  rcases x with ⟨n, _ | _ | _ | _⟩ <;> simp [contributed, passed]

theorem Thread.contributed_le_completed (x : Thread) : x.contributed ≤ x.completed := by
  rcases x with ⟨n, _ | _ | _ | _⟩ <;> simp [contributed, completed]

/-- The thread loads `count` at the barrier of round `k`. -/
def SpinsAt (s : System ι) (k : Nat) (t : ι) : Prop := s.thread t = ⟨k, .spin⟩

instance (s : System ι) (k : Nat) (t : ι) : Decidable (SpinsAt s k t) :=
  inferInstanceAs (Decidable (_ = _))

variable [Fintype ι]

/-- A barrier is passed only after everybody has been counted for it. -/
structure Inv (s : System ι) : Prop where
  count_eq : s.count = tally Thread.contributed s.thread
  passed_le : ∀ t u, (s.thread t).passed ≤ (s.thread u).contributed

theorem inv_initial : Inv (initial : System ι) where
  count_eq := (tally_const Thread.contributed ⟨0, .loop⟩ rfl).symm
  passed_le _ _ := le_rfl

section Steps
variable [DecidableEq ι] {rounds : Nat} {s s' : System ι} {t : ι}

theorem Inv.update (h : Inv s) {count : ℤ} {x : Thread}
    (hcount : count = s.count - (s.thread t).contributed + x.contributed)
    (hmore : (s.thread t).contributed ≤ x.contributed)
    (hpassed : ∀ u, x.passed ≤ (s.thread u).contributed) :
    Inv ⟨count, Function.update s.thread t x⟩ where
  count_eq := by
    rw [tally_update, ← h.count_eq]
    exact hcount
  passed_le := by
    have hself : x.passed ≤ x.contributed := (hpassed t).trans hmore
    intro i j
    apply forall_update
      (P := fun y : Thread => y.passed ≤ (Function.update s.thread t x j).contributed)
    · exact forall_update (P := fun y : Thread => x.passed ≤ y.contributed) hself hpassed j
    · intro i
      exact forall_update (P := fun y : Thread => (s.thread i).passed ≤ y.contributed)
        ((h.passed_le i t).trans hmore) (h.passed_le i) j

theorem Inv.keep (h : Inv s) {x : Thread} (hsame : x.contributed = (s.thread t).contributed)
    (hpassed : ∀ u, x.passed ≤ (s.thread u).contributed) :
    Inv { s with thread := Function.update s.thread t x } := by
  apply h.update
  · rw [hsame, sub_add_cancel]
  · exact hsame.ge
  · exact hpassed

omit [DecidableEq ι] in
/-- As long as nobody is a round ahead, a counter of `k` for each thread means that
everybody has been counted `k` times. -/
theorem Inv.le_contributed (h : Inv s) {k : ℤ} (hcount : k * Fintype.card ι ≤ s.count) (u : ι) :
    k ≤ (s.thread u).contributed := by
  have hnear : ∀ i j, (s.thread i).contributed ≤ (s.thread j).contributed + 1 := by
    intro i j
    have hi := (s.thread i).contributed_le
    have hj := h.passed_le i j
    omega
  rw [h.count_eq] at hcount
  exact le_weight_of_mul_card_le hnear hcount u

theorem Inv.step (h : Inv s) (hs : step rounds s t = some s') : Inv s' := by
  have hpassed := h.passed_le t
  rw [MutexTestBarrier.step] at hs
  rcases hx : s.thread t with ⟨n, pc⟩
  rw [hx] at hs hpassed
  cases pc with
  | loop =>
      dsimp only at hs
      split_ifs at hs
      cases hs
      refine h.keep ?_ fun u => ?_
      · rw [hx]
        simp [Thread.contributed]
      · have hu := hpassed u
        simp only [Thread.passed] at hu ⊢
        omega
  | benchmark =>
      cases hs
      apply h.keep
      · rw [hx]
        rfl
      · exact hpassed
  | arrive =>
      cases hs
      refine h.update ?_ ?_ hpassed
      · rw [hx]
        simp only [Thread.contributed]
        omega
      · rw [hx]
        simp [Thread.contributed]
  | spin =>
      dsimp only at hs
      split_ifs at hs with hspin
      · cases hs
        exact h
      · cases hs
        apply h.keep
        · rw [hx]
          rfl
        · intro u
          exact h.le_contributed (not_lt.mp hspin) u

end Steps

/-- **No call of `benchmark` is started before everybody has completed the one before
it, and when everybody is at the barrier of a round, the counter that they all load is
large enough to go on.** -/
theorem barrier_separates [DecidableEq ι] (rounds : Nat) (sched : List ι) (s : System ι)
    (hrun : run (step rounds) initial sched = some s) :
    (∀ (k : ℤ) (t u : ι), k + 1 ≤ (s.thread t).started → k ≤ (s.thread u).completed) ∧
    ∀ k : Nat, (∀ t, SpinsAt s k t) → (k * Fintype.card ι : ℤ) ≤ s.count := by
  have hinv : Inv s := invariant (fun _ _ _ h hs => Inv.step h hs) inv_initial hrun
  refine ⟨fun k t u hk => ?_, fun k hspin => ?_⟩
  · have hstarted := (s.thread t).started_le
    have hpassed := hinv.passed_le t u
    have hcompleted := (s.thread u).contributed_le_completed
    omega
  · have hall : ∀ t, (s.thread t).contributed = k := by
      intro t
      rw [hspin t]
      rfl
    rw [hinv.count_eq, tally_eq_mul_card hall]

/-- The first thread is counted for the second round while the second one is still at
the barrier of the first. -/
theorem barrier_separates_two :
    let sched : List (Fin 2) := [0, 1, 0, 1, 0, 0, 1, 0, 0, 0, 0, 0, 1, 1, 1, 1]
    ∃ s, run (step 2) initial sched = some s ∧ (∀ t, SpinsAt s 2 t) ∧
      1 ≤ (s.thread 1).completed ∧ (2 * Fintype.card (Fin 2) : ℤ) ≤ s.count := by
  intro sched
  have hrun : ∃ s, run (step 2) initial sched = some s ∧ (∀ t, SpinsAt s 2 t) ∧
      1 + 1 ≤ (s.thread 0).started := ⟨_, rfl, by decide, by decide⟩
  obtain ⟨s, hs, hspin, hstarted⟩ := hrun
  obtain ⟨hseparate, hsees⟩ := barrier_separates 2 sched s hs
  exact ⟨s, hs, hspin, hseparate 1 0 1 hstarted, hsees 2 hspin⟩

end MutexTestBarrier
