import TaskSuite.Machine
import TaskSuite.Tally

/-! The producer of `threadpool.cxx` and the threads of its pool. A functor draws
the next number from `count` each time it is called, and that number alone decides
whether it is put back into the queue. -/
namespace ThreadPool
open Machine Tally

def modulo : Nat := 5

/-- What a thread of the pool does with a functor. -/
inductive Worker where
  | idle
  | took
  /-- The functor returned whether it has to be put back. -/
  | returned (again : Bool)
  deriving DecidableEq, Repr

/-- The functors in the queue are all alike. -/
structure State (ι : Type) where
  n : Nat
  full : Nat
  queue : Nat
  count : Nat
  worker : ι → Worker

inductive Act (ι : Type) where
  /-- The body of the loop of the producer. -/
  | offer
  | take (t : ι)
  | call (t : ι)
  | finish (t : ι)

variable {ι : Type}

def initial : State ι := ⟨0, 0, 0, 0, fun _ => .idle⟩

section Steps
variable [DecidableEq ι] (capacity loopSize : Nat)

/-- The queue is a buffer: a functor is put back once there is room for it. -/
def step (s : State ι) : Act ι → Option (State ι)
  | .offer =>
      if s.n < loopSize then
        let length := s.queue
        let queue := if length < capacity then s.queue + 1 else s.queue
        let full := if length = capacity then s.full + 1 else s.full
        some { s with n := s.n + 1, queue, full }
      else none
  | .take t =>
      if s.worker t = .idle ∧ 0 < s.queue then
        some { s with queue := s.queue - 1, worker := Function.update s.worker t .took }
      else none
  | .call t =>
      if s.worker t = .took then
        let c := s.count
        some { s with
          count := s.count + 1
          worker := Function.update s.worker t (.returned (c % modulo = 0)) }
      else none
  | .finish t =>
      match s.worker t with
      | .returned true =>
          if s.queue < capacity then
            some { s with queue := s.queue + 1, worker := Function.update s.worker t .idle }
          else none
      | .returned false => some { s with worker := Function.update s.worker t .idle }
      | _ => none

/-- The loop has ended, and everything in the queue has been processed. -/
def Done (s : State ι) : Prop := s.n = loopSize ∧ s.queue = 0 ∧ ∀ t, s.worker t = .idle

instance [Fintype ι] (s : State ι) : Decidable (Done loopSize s) := inferInstanceAs (Decidable (_ ∧ _))

def expected (full : Nat) : Nat := (loopSize - full) * modulo / (modulo - 1)

end Steps

/-! ### The numbers that were drawn -/

def Worker.holds : Worker → ℤ
  | .took | .returned true => 1
  | .idle | .returned false => 0

section Invariant
variable [Fintype ι]

def State.waiting (s : State ι) : ℤ := s.queue + tally Worker.holds s.worker

/-- Of `count` calls every fifth one, beginning with the first, has the functor put
back; a functor that is put back is there for the next call. -/
structure Inv (capacity loopSize : Nat) (s : State ι) : Prop where
  n_le : s.n ≤ loopSize
  full_le : s.full ≤ s.n
  queue_le : s.queue ≤ capacity
  balance : (s.n : ℤ) - s.full + ((s.count + 4) / 5 : Nat) = s.count + s.waiting
  again : s.count % 5 = 1 → 0 < s.waiting

theorem Worker.holds_nonneg (x : Worker) : 0 ≤ x.holds := by
  rcases x with _ | _ | (_ | _) <;> decide

theorem waiting_initial : (initial : State ι).waiting = 0 := by
  change 0 + tally Worker.holds (fun _ : ι => Worker.idle) = 0
  rw [tally_const Worker.holds Worker.idle rfl, add_zero]

theorem inv_initial (capacity loopSize : Nat) : Inv capacity loopSize (initial : State ι) where
  n_le := Nat.zero_le _
  full_le := le_rfl
  queue_le := Nat.zero_le _
  balance := by
    rw [waiting_initial]
    change (0 : ℤ) - 0 + ((0 + 4) / 5 : Nat) = 0 + 0
    decide
  again h := by cases h

variable [DecidableEq ι] {capacity loopSize : Nat} {s s' : State ι} {t : ι}

theorem waiting_update (n full queue count : Nat) (x : Worker) :
    State.waiting ⟨n, full, queue, count, Function.update s.worker t x⟩ =
      s.waiting - s.queue + queue - (s.worker t).holds + x.holds := by
  rw [State.waiting, State.waiting, tally_update]
  dsimp only
  omega

omit [DecidableEq ι] in
/-- A turn of the loop puts a functor into the queue, or counts that it is full. -/
theorem Inv.produce (h : Inv capacity loopSize s) (hlt : s.n < loopSize) {queue full : Nat}
    (hqueue : queue ≤ capacity) (hmore : s.queue ≤ queue)
    (hone : queue + full = s.queue + s.full + 1) :
    Inv capacity loopSize { s with n := s.n + 1, queue, full } := by
  obtain ⟨-, hfull, -, hbalance, hagain⟩ := h
  have hwaiting : State.waiting { s with n := s.n + 1, queue, full } = s.waiting + queue - s.queue := by
    simp only [State.waiting]
    omega
  refine ⟨hlt, by dsimp only; omega, hqueue, ?_, fun hfirst => ?_⟩
  · rw [hwaiting]
    push_cast
    omega
  · have hpos := hagain hfirst
    rw [hwaiting]
    omega

theorem Inv.offer (h : Inv capacity loopSize s)
    (hs : step capacity loopSize s .offer = some s') : Inv capacity loopSize s' := by
  rw [step] at hs
  split_ifs at hs with hlt
  cases hs
  rcases Nat.lt_or_eq_of_le h.queue_le with hroom | hnone
  · simp only [if_pos hroom, if_neg hroom.ne]
    exact h.produce hlt hroom (Nat.le_succ _) (by omega)
  · simp only [hnone, lt_irrefl, if_false, if_true]
    exact h.produce hlt le_rfl hnone.le (by omega)

theorem Inv.keep (h : Inv capacity loopSize s) {queue : Nat} {x : Worker} (hqueue : queue ≤ capacity)
    (hsame : (queue : ℤ) + x.holds = s.queue + (s.worker t).holds) :
    Inv capacity loopSize { s with queue, worker := Function.update s.worker t x } := by
  have hwaiting := waiting_update (s := s) (t := t) s.n s.full queue s.count x
  have heq : s.waiting - s.queue + queue - (s.worker t).holds + x.holds = s.waiting := by omega
  rw [heq] at hwaiting
  refine ⟨h.n_le, h.full_le, hqueue, ?_, ?_⟩
  · rw [hwaiting]
    exact h.balance
  · rw [hwaiting]
    exact h.again

theorem Inv.call (h : Inv capacity loopSize s) (ht : s.worker t = .took) :
    Inv capacity loopSize { s with
      count := s.count + 1
      worker := Function.update s.worker t (.returned (s.count % modulo = 0)) } := by
  obtain ⟨hn, hfull, hqueue, hbalance, hagain⟩ := h
  have hwaiting := waiting_update (s := s) (t := t) s.n s.full s.queue (s.count + 1)
    (.returned (s.count % modulo = 0))
  have hholds := weight_le_tally Worker.holds_nonneg s.worker t
  rw [ht] at hwaiting hholds
  by_cases hzero : s.count % modulo = 0
  · -- The functor still waits, now to be put back.
    rw [decide_eq_true hzero] at hwaiting ⊢
    simp only [modulo, Worker.holds] at hzero hwaiting hholds
    refine ⟨hn, hfull, hqueue, ?_, fun _ => ?_⟩
    · rw [hwaiting]
      dsimp only
      omega
    · rw [hwaiting]
      simp only [State.waiting]
      omega
  · rw [decide_eq_false hzero] at hwaiting ⊢
    simp only [modulo, Worker.holds] at hzero hwaiting hholds
    refine ⟨hn, hfull, hqueue, ?_, fun hone => ?_⟩
    · rw [hwaiting]
      dsimp only
      omega
    · dsimp only at hone
      omega

theorem Inv.step {a : Act ι} (h : Inv capacity loopSize s)
    (hs : step capacity loopSize s a = some s') : Inv capacity loopSize s' := by
  cases a with
  | offer => exact h.offer hs
  | take t =>
      rw [ThreadPool.step] at hs
      split_ifs at hs with htake
      cases hs
      refine h.keep (Nat.sub_le_of_le_add (Nat.le_succ_of_le h.queue_le)) ?_
      rw [htake.1]
      simp only [Worker.holds]
      omega
  | call t =>
      rw [ThreadPool.step] at hs
      split_ifs at hs with ht
      cases hs
      exact h.call ht
  | finish t =>
      rw [ThreadPool.step] at hs
      split at hs
      · next ht =>
        split_ifs at hs with hroom
        cases hs
        refine h.keep hroom ?_
        rw [ht]
        simp only [Worker.holds]
        push_cast
        omega
      · next ht =>
        cases hs
        refine h.keep h.queue_le ?_
        rw [ht]
        rfl
      · cases hs

omit [DecidableEq ι] in
/-- The number of calls does not depend on their order. -/
theorem Inv.count_eq (h : Inv capacity loopSize s) (hdone : Done loopSize s) :
    s.count = loopSize - s.full + (loopSize - s.full + 3) / 4 := by
  obtain ⟨hn, hqueue, hidle⟩ := hdone
  have hwaiting : s.waiting = 0 := by
    rw [State.waiting, hqueue, tally_eq_zero fun t => by rw [hidle t]; rfl]
    rfl
  obtain ⟨-, hfull, -, hbalance, hagain⟩ := h
  rw [hwaiting] at hbalance hagain
  have hlast : s.count % 5 ≠ 1 := fun hone => absurd (hagain hone) (lt_irrefl 0)
  have hcases : s.count % 5 = 0 ∨ s.count % 5 = 2 ∨ s.count % 5 = 3 ∨ s.count % 5 = 4 := by omega
  rcases hcases with h | h | h | h <;> omega

end Invariant

/-- **What is printed as expected is the number of calls exactly if the number of
functors is a multiple of one less than the modulo; otherwise it is rounded down.** -/
theorem count_eq_expected_iff [Fintype ι] [DecidableEq ι] (capacity loopSize : Nat)
    (acts : List (Act ι)) (s : State ι) (hrun : run (step capacity loopSize) initial acts = some s)
    (hdone : Done loopSize s) :
    s.count = expected loopSize s.full ↔ modulo - 1 ∣ loopSize - s.full := by
  have hinv := invariant (fun _ _ _ h hs => Inv.step h hs) (inv_initial capacity loopSize) hrun
  have hcount := hinv.count_eq hdone
  simp only [expected, modulo]
  omega

/-- Four functors, of which the second thread calls the first one twice. -/
theorem count_eq_expected_four :
    let acts : List (Act (Fin 2)) := [.offer, .take 1, .offer, .call 1, .finish 1, .take 1, .offer,
      .take 0, .call 1, .finish 1, .offer, .call 0, .take 1, .call 1, .finish 0, .finish 1, .take 0,
      .call 0, .finish 0]
    ∃ s, run (step 1300 4) initial acts = some s ∧ Done 4 s ∧ s.count = expected 4 s.full := by
  intro acts
  have hrun : ∃ s, run (step 1300 4) initial acts = some s ∧ Done 4 s ∧ s.full = 0 :=
    ⟨_, rfl, by decide, by decide⟩
  obtain ⟨s, hs, hdone, hfull⟩ := hrun
  refine ⟨s, hs, hdone, (count_eq_expected_iff 1300 4 acts s hs hdone).mpr ?_⟩
  rw [hfull]
  decide

/-! ### A run in which the queue is full once -/

section Runs
variable [DecidableEq ι] (capacity loopSize : Nat) {s : State ι}

theorem run_turn (t : ι) (hidle : s.worker t = .idle) (hpos : 0 < s.queue)
    (hqueue : s.queue ≤ capacity) :
    run (step capacity loopSize) s [.take t, .call t, .finish t] = some { s with
      count := s.count + 1
      queue := if s.count % modulo = 0 then s.queue else s.queue - 1 } := by
  have hback : Function.update s.worker t .idle = s.worker := by
    rw [← hidle, Function.update_eq_self]
  have hroom : s.queue - 1 < capacity := by omega
  by_cases hzero : s.count % modulo = 0
  · simp [run, step, hidle, hpos, hzero, hroom, hback, Nat.sub_add_cancel hpos]
  · simp [run, step, hidle, hpos, hzero, hback]

structure Idle (s : State ι) : Prop where
  worker : ∀ t, s.worker t = .idle
  queue : s.queue ≤ capacity
  n : s.n ≤ loopSize

/-- One thread empties the queue. -/
theorem exists_drained (t : ι) (h : Idle capacity loopSize s) :
    ∃ acts u, run (step capacity loopSize) s acts = some u ∧ Idle capacity loopSize u ∧
      u.queue = 0 ∧ u.n = s.n ∧ u.full = s.full := by
  -- A functor that is put back is dropped by the next call.
  generalize hm : 2 * s.queue + (if s.count % modulo = 0 then 1 else 0) = m
  induction m using Nat.strongRecOn generalizing s with
  | _ m ih =>
      by_cases hpos : 0 < s.queue
      · have hturn := run_turn capacity loopSize t (h.worker t) hpos h.queue
        have hqueue : (if s.count % modulo = 0 then s.queue else s.queue - 1) ≤ s.queue := by
          split_ifs <;> omega
        have hless : 2 * (if s.count % modulo = 0 then s.queue else s.queue - 1) +
            (if (s.count + 1) % modulo = 0 then 1 else 0) < m := by
          by_cases hzero : s.count % modulo = 0
          · have hnext : (s.count + 1) % modulo ≠ 0 := by
              rw [modulo] at hzero ⊢
              omega
            simp only [hzero, hnext, if_true, if_false] at hm ⊢
            omega
          · simp only [hzero, if_false] at hm ⊢
            split_ifs <;> omega
        obtain ⟨acts, u, hu, hrest⟩ := ih _ hless
          (s := { s with
            count := s.count + 1
            queue := if s.count % modulo = 0 then s.queue else s.queue - 1 })
          ⟨h.worker, hqueue.trans h.queue, h.n⟩ rfl
        exact ⟨_, u, run_append.mpr ⟨_, hturn, hu⟩, hrest⟩
      · exact ⟨[], s, rfl, h, by omega, rfl, rfl⟩

theorem exists_done (t : ι) (hcapacity : 0 < capacity) (h : Idle capacity loopSize s) :
    ∃ acts u, run (step capacity loopSize) s acts = some u ∧ Done loopSize u ∧ u.full = s.full := by
  generalize hm : loopSize - s.n = m
  induction m generalizing s with
  | zero =>
      obtain ⟨acts, u, hu, hidle, hqueue, hn, hfull⟩ := exists_drained capacity loopSize t h
      have hle := h.n
      exact ⟨acts, u, hu, ⟨by omega, hqueue, hidle.worker⟩, hfull⟩
  | succ m ih =>
      obtain ⟨acts, u, hu, hidle, hqueue, hn, hfull⟩ := exists_drained capacity loopSize t h
      have hoffer : step capacity loopSize u .offer = some { u with n := u.n + 1, queue := 1 } := by
        have hlt : u.n < loopSize := by omega
        simp [step, hlt, hqueue, hcapacity, hcapacity.ne]
      obtain ⟨acts', v, hv, hdone, hfull'⟩ := ih
        (s := { u with n := u.n + 1, queue := 1 }) ⟨hidle.worker, hcapacity, by dsimp only; omega⟩
        (by dsimp only; omega)
      refine ⟨acts ++ .offer :: acts', v, run_append.mpr ⟨u, hu, ?_⟩, hdone, hfull'.trans hfull⟩
      exact run_cons.mpr ⟨_, hoffer, hv⟩

theorem run_offers (k : Nat) (hn : s.n + k ≤ loopSize) (hqueue : s.queue + k ≤ capacity) :
    run (step capacity loopSize) s (List.replicate k .offer) =
      some { s with n := s.n + k, queue := s.queue + k } := by
  induction k generalizing s with
  | zero => rfl
  | succ k ih =>
      have hoffer : step capacity loopSize s .offer =
          some { s with n := s.n + 1, queue := s.queue + 1 } := by
        have hlt : s.n < loopSize := by omega
        have hroom : s.queue < capacity := by omega
        simp [step, hlt, hroom, hroom.ne]
      rw [List.replicate_succ]
      refine run_cons.mpr ⟨_, hoffer, ?_⟩
      rw [ih (by dsimp only; omega) (by dsimp only; omega)]
      simp only [Nat.add_assoc, Nat.add_comm 1 k]

end Runs

/-- The queue is full once: 1249999 calls are made, but 1249998 are expected. -/
theorem expected_rounded_down :
    ∃ (acts : List (Act (Fin 6))) (s : State (Fin 6)),
      run (step 1300 1000000) initial acts = some s ∧ Done 1000000 s ∧ s.full = 1 ∧
        s.count ≠ expected 1000000 s.full := by
  have hfill := run_offers 1300 1000000 (s := (initial : State (Fin 6))) 1300 (by decide) (by decide)
  have hfull : step 1300 1000000 { (initial : State (Fin 6)) with n := 1300, queue := 1300 } .offer =
      some { (initial : State (Fin 6)) with n := 1301, queue := 1300, full := 1 } := rfl
  obtain ⟨acts, s, hs, hdone, hone⟩ := exists_done 1300 1000000 0 (by decide)
    (s := { (initial : State (Fin 6)) with n := 1301, queue := 1300, full := 1 })
    ⟨fun _ => rfl, le_rfl, by decide⟩
  have hrun := run_append.mpr ⟨_, hfill, run_cons.mpr ⟨_, hfull, hs⟩⟩
  have hinv := invariant (fun _ _ _ h hs => Inv.step h hs) (inv_initial 1300 1000000) hrun
  have hcount := hinv.count_eq hdone
  refine ⟨_, s, hrun, hdone, hone, ?_⟩
  rw [hcount, hone]
  decide

end ThreadPool
