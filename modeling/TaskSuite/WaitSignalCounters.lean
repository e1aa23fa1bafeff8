import Mathlib.Algebra.Group.Nat.Defs
import Mathlib.Data.Fintype.Basic
import Mathlib.Data.Fin.VecNotation
import Mathlib.Tactic.FinCases

/-! The four counters of `wait_signal_test2.cxx` and the graph that its main
builds from them. Indices 0 and 1 are normal conditions, 2 and 3 required ones. -/
namespace WaitSignal

namespace Counter

/-- The new value and the result; `none` stands for the exception NotAllowed. -/
def signal (isIdle : Bool) (value : Nat) : Option (Nat × Bool) :=
  if isIdle = true ∧ value ≠ 0 then none
  else if value = 2 then some (value, false)
  else some (value + 1, value + 1 = 1)

def wait (value : Nat) : Option (Nat × Bool) :=
  if value = 0 then none else some (value - 1, value - 1 = 1)

end Counter

abbrev Index := Fin 4

def isRequired (i : Index) : Bool := i.val > 1

abbrev Task := Index → Nat

namespace Task

def setState (st : Nat) : Task := fun i => st / 3 ^ i.val % 3

def state (t : Task) : Nat := t 0 + 3 * t 1 + 9 * t 2 + 27 * t 3

/-- The loop that `wait` and `signal` share: `op` on each counter in the mask,
and whether it returned true for one that is not required. -/
def eachBit (op : Nat → Option (Nat × Bool)) (mask : Nat) :
    List Index → Task → Bool → Option (Task × Bool)
  | [], t, woke => some (t, woke)
  | i :: is, t, woke =>
      if mask.testBit i then
        (op (t i)).bind fun p =>
          eachBit op mask is (Function.update t i p.1) (woke || (p.2 && !isRequired i))
      else eachBit op mask is t woke

def wait (t : Task) (mask : Nat) : Option (Task × Bool) :=
  eachBit Counter.wait mask (List.finRange 4) t false

def signal (t : Task) (mask : Nat) (isIdle : Bool) : Option (Task × Bool) :=
  eachBit (Counter.signal isIdle) mask (List.finRange 4) t false

def reset : Task := fun _ => 1

def resetORCounters (t : Task) : Task :=
  fun i => if isRequired i = false ∧ t i = 0 then 1 else t i

def requiredIsIdle (t : Task) : Bool := t 2 = 0 || t 3 = 0

def hasIdleCounter (t : Task) : Bool := t 0 = 0 || t 1 = 0 || t 2 = 0 || t 3 = 0

/-- What main does with `counters2` for one signal: the resulting counters and
`woken_up`. The value that `print_on` returns is that of `has_idle_counter`. -/
def signalEdge (t : Task) (mask : Nat) : Option (Task × Bool) :=
  (t.signal mask t.hasIdleCounter).map fun p =>
    let wokenUp := t.hasIdleCounter && !p.1.requiredIsIdle && (p.2 || !p.1.hasIdleCounter)
    (if wokenUp then reset else if p.2 then p.1.resetORCounters else p.1, wokenUp)

def waitEdge (t : Task) (mask : Nat) : Option (Task × Bool) :=
  (t.wait mask).map fun p =>
    let wokenUp := !p.1.requiredIsIdle && p.2
    (if wokenUp then reset else if p.2 then p.1.resetORCounters else p.1, wokenUp)

end Task

abbrev Mask := { m : Nat // 1 ≤ m ∧ m ≤ 15 }

inductive Operation where
  | wait (mask : Mask)
  | signal (mask : Mask)
  deriving DecidableEq

def Operation.code : Operation → Nat
  | .wait m => m
  | .signal m => 16 + m

def notAllowedMagic : Nat := 81

def edge (t : Task) (operation : Nat) : Option (Task × Bool) :=
  if operation % 16 = 0 ∨ 32 ≤ operation then none
  else if operation < 16 then t.waitEdge operation
  else t.signalEdge (operation - 16)

def graph (s operation : Nat) : Nat :=
  match edge (.setState s) operation with
  | some p => p.1.state
  | none => notAllowedMagic

/-- The variables that main carries from one operation of a sequence to the next. -/
structure Sim where
  task : Task
  running : Bool

def Sim.initial : Sim := ⟨.setState 40, true⟩

/-- One operation of a sequence; `none` is the branch "not allowed". -/
def Sim.step (s : Sim) (op : Operation) : Option Sim :=
  let next := graph s.task.state op.code
  match op with
  | .wait _ =>
      if next = notAllowedMagic ∨ s.running = false then none
      else if (Task.setState next).hasIdleCounter then some ⟨.setState next, false⟩
      else some ⟨.setState 40, true⟩
  | .signal _ =>
      if next = notAllowedMagic then none
      else some ⟨.setState next, !(Task.setState next).hasIdleCounter⟩

/-! ### What the loops compute -/

def bits (mask : Nat) : Finset Index := Finset.univ.filter fun i => mask.testBit i

@[simp] theorem mem_bits {mask : Nat} {i : Index} : i ∈ bits mask ↔ mask.testBit i = true := by
  simp [bits]

namespace Task

section EachBit
variable {op : Nat → Option (Nat × Bool)} {mask : Nat} {is : List Index}

theorem visited_cons {i : Index} (hi : i ∉ is) (f : Nat → Nat) {t t' : Task}
    (hself : t' i = if i ∈ bits mask then f (t i) else t i) (hother : ∀ j, j ≠ i → t' j = t j) :
    (fun j => if j ∈ is ∧ j ∈ bits mask then f (t' j) else t' j) =
      fun j => if j ∈ i :: is ∧ j ∈ bits mask then f (t j) else t j := by
  funext j
  by_cases hji : j = i
  · subst hji
    simp [hi, hself]
  · simp [hji, hother j hji]

/-- Each index is visited once, so the loop acts on every selected counter by itself. -/
theorem eachBit_of_some (hnd : is.Nodup) (f : Nat → Nat) (g : Nat → Bool) (t : Task)
    (hop : ∀ i ∈ is, i ∈ bits mask → op (t i) = some (f (t i), g (t i))) (woke : Bool) :
    ∃ woke', eachBit op mask is t woke =
        some (fun i => if i ∈ is ∧ i ∈ bits mask then f (t i) else t i, woke') ∧
      (woke' = true ↔ woke = true ∨
        ∃ i ∈ is, i ∈ bits mask ∧ g (t i) = true ∧ isRequired i = false) := by
  induction is generalizing t woke with
  | nil => exact ⟨woke, by simp [eachBit], by simp⟩
  | cons i is ih =>
      obtain ⟨hi, hnd⟩ := List.nodup_cons.mp hnd
      have hne : ∀ j ∈ is, j ≠ i := by
        rintro j hj rfl
        exact hi hj
      by_cases hbit : mask.testBit i = true
      · have hopi := hop i (by simp) (by simpa using hbit)
        -- The counter just written is not visited again.
        have hrest : ∀ j ∈ is, Function.update t i (f (t i)) j = t j :=
          fun j hj => Function.update_of_ne (hne j hj) _ _
        obtain ⟨woke', heq, hwoke⟩ := ih hnd (Function.update t i (f (t i)))
          (fun j hj hb => by rw [hrest j hj]; exact hop j (List.mem_cons_of_mem i hj) hb)
          (woke || (g (t i) && !isRequired i))
        refine ⟨woke', ?_, ?_⟩
        · simp only [eachBit, hbit, if_true, hopi, Option.bind_some, heq, Option.some.injEq,
            Prod.mk.injEq, and_true]
          apply visited_cons hi f
          · simp [hbit]
          · intro j hji
            exact Function.update_of_ne hji _ _
        · rw [hwoke]
          simp only [Bool.or_eq_true, Bool.and_eq_true, Bool.not_eq_true', List.mem_cons,
            exists_eq_or_imp, mem_bits, hbit, true_and, or_assoc]
          refine or_congr_right (or_congr_right ?_)
          constructor <;> rintro ⟨j, hj, hb, hg, hq⟩
          · exact ⟨j, hj, hb, by rwa [hrest j hj] at hg, hq⟩
          · exact ⟨j, hj, hb, by rwa [hrest j hj], hq⟩
      · obtain ⟨woke', heq, hwoke⟩ :=
          ih hnd t (fun j hj hb => hop j (List.mem_cons_of_mem i hj) hb) woke
        refine ⟨woke', ?_, ?_⟩
        · simp only [eachBit, hbit, if_false, Bool.false_eq_true, heq, Option.some.injEq,
            Prod.mk.injEq, and_true]
          apply visited_cons hi f
          · simp [hbit]
          · intro j _
            rfl
        · rw [hwoke]
          simp [hbit]

theorem eachBit_of_none (hnd : is.Nodup) (t : Task)
    (hop : ∃ i ∈ is, i ∈ bits mask ∧ op (t i) = none) (woke : Bool) :
    eachBit op mask is t woke = none := by
  induction is generalizing t woke with
  | nil => simp at hop
  | cons i is ih =>
      obtain ⟨hi, hnd⟩ := List.nodup_cons.mp hnd
      obtain ⟨j, hj, hb, hnone⟩ := hop
      simp only [eachBit]
      rcases List.mem_cons.mp hj with hji | hj
      · subst hji
        rw [if_pos (mem_bits.mp hb), hnone, Option.bind_none]
      · have hji : j ≠ i := by
          intro hji
          exact hi (hji ▸ hj)
        split_ifs with hbit
        · cases hopi : op (t i) with
          | none => rfl
          | some p =>
              rw [Option.bind_some]
              exact ih hnd _ ⟨j, hj, hb, by rwa [Function.update_of_ne hji]⟩ _
        · exact ih hnd t ⟨j, hj, hb, hnone⟩ woke

end EachBit

/-- A wait that no selected counter refuses takes one off each of them; a
normal counter wakes up when it held a signal. -/
theorem wait_of_busy (t : Task) (mask : Nat) (h : ∀ i ∈ bits mask, t i ≠ 0) :
    ∃ woke, t.wait mask = some (fun i => if i ∈ bits mask then t i - 1 else t i, woke) ∧
      (woke = true ↔ ∃ i ∈ bits mask, t i = 2 ∧ isRequired i = false) := by
  have hop : ∀ i ∈ List.finRange 4, i ∈ bits mask →
      Counter.wait (t i) = some (t i - 1, decide (t i = 2)) := by
    intro i _ hi
    have hiff : t i - 1 = 1 ↔ t i = 2 := by have := h i hi; omega
    simp only [Counter.wait, if_neg (h i hi), hiff]
  obtain ⟨woke, heq, hwoke⟩ := eachBit_of_some (List.nodup_finRange 4) (fun v => v - 1)
    (fun v => decide (v = 2)) t hop false
  refine ⟨woke, by simpa [wait] using heq, ?_⟩
  rw [hwoke]
  simp

theorem signal_of_running (t : Task) (mask : Nat) (h : ∀ i, t i = 1 ∨ t i = 2) :
    t.signal mask false = some (fun i => if i ∈ bits mask then 2 else t i, false) := by
  have hop : ∀ i ∈ List.finRange 4, i ∈ bits mask →
      Counter.signal false (t i) = some (2, false) := by
    intro i _ _
    rcases h i with h1 | h2
    · simp [Counter.signal, h1]
    · simp [Counter.signal, h2]
  obtain ⟨woke, heq, hwoke⟩ := eachBit_of_some (List.nodup_finRange 4) (fun _ => 2)
    (fun _ => false) t hop false
  have hno : woke = false := by
    rw [Bool.eq_false_iff, ne_eq, hwoke]
    simp
  subst hno
  simpa [signal] using heq

theorem signal_of_idle (t : Task) (mask : Nat) (h : ∀ i ∈ bits mask, t i = 0) :
    ∃ woke, t.signal mask true = some (fun i => if i ∈ bits mask then 1 else t i, woke) ∧
      (woke = true ↔ ∃ i ∈ bits mask, isRequired i = false) := by
  have hop : ∀ i ∈ List.finRange 4, i ∈ bits mask →
      Counter.signal true (t i) = some (1, true) := by
    intro i _ hi
    simp [Counter.signal, h i hi]
  obtain ⟨woke, heq, hwoke⟩ := eachBit_of_some (List.nodup_finRange 4) (fun _ => 1)
    (fun _ => true) t hop false
  refine ⟨woke, by simpa [signal] using heq, ?_⟩
  rw [hwoke]
  simp

theorem signal_of_not_idle (t : Task) (mask : Nat) (h : ∃ i ∈ bits mask, t i ≠ 0) :
    t.signal mask true = none := by
  obtain ⟨i, hi, hne⟩ := h
  refine eachBit_of_none (List.nodup_finRange 4) t ⟨i, List.mem_finRange i, hi, ?_⟩ false
  simp [Counter.signal, hne]

theorem hasIdleCounter_iff {t : Task} : t.hasIdleCounter = true ↔ ∃ i, t i = 0 := by
  simp [hasIdleCounter, Fin.exists_fin_succ, or_assoc]

theorem requiredIsIdle_iff {t : Task} :
    t.requiredIsIdle = true ↔ ∃ i, isRequired i = true ∧ t i = 0 := by
  simp [requiredIsIdle, isRequired, Fin.exists_fin_succ]

/-- A counter holds 0, 1 or 2, which is what one ternary digit encodes. -/
def Ternary (t : Task) : Prop := ∀ i, t i ≤ 2

theorem setState_state {t : Task} (h : t.Ternary) : setState t.state = t := by
  have h0 := h 0
  have h1 := h 1
  have h2 := h 2
  have h3 := h 3
  funext i
  fin_cases i <;> simp [setState, state] <;> omega

theorem state_lt {t : Task} (h : t.Ternary) : t.state < 81 := by
  have h0 := h 0
  have h1 := h 1
  have h2 := h 2
  have h3 := h 3
  simp only [state]
  omega

theorem eachBit_ternary {op : Nat → Option (Nat × Bool)} {mask : Nat}
    (hop : ∀ v p, v ≤ 2 → op v = some p → p.1 ≤ 2) {is : List Index} {t : Task} {woke : Bool}
    {p : Task × Bool} (ht : t.Ternary) (h : eachBit op mask is t woke = some p) :
    p.1.Ternary := by
  induction is generalizing t woke with
  | nil =>
      cases h
      exact ht
  | cons i is ih =>
      simp only [eachBit] at h
      split_ifs at h with hbit
      · obtain ⟨q, hq, h⟩ := Option.bind_eq_some_iff.mp h
        refine ih (fun j => ?_) h
        by_cases hji : j = i
        · subst hji
          rw [Function.update_self]
          exact hop _ q (ht j) hq
        · rw [Function.update_of_ne hji]
          exact ht j
      · exact ih ht h

theorem reset_ternary : reset.Ternary := fun _ => Nat.le_succ 1

theorem resetORCounters_ternary {t : Task} (h : t.Ternary) : t.resetORCounters.Ternary := by
  intro i
  simp only [resetORCounters]
  split_ifs
  · decide
  · exact h i

theorem signalEdge_ternary {t : Task} {mask : Nat} {p : Task × Bool} (ht : t.Ternary)
    (h : t.signalEdge mask = some p) : p.1.Ternary := by
  obtain ⟨q, hq, rfl⟩ := Option.map_eq_some_iff.mp h
  have hq' : q.1.Ternary := by
    refine eachBit_ternary (fun v p hv hp => ?_) ht hq
    simp only [Counter.signal] at hp
    split_ifs at hp <;> cases hp <;> dsimp only <;> omega
  dsimp only
  split_ifs
  · exact reset_ternary
  · exact resetORCounters_ternary hq'
  · exact hq'

theorem signalEdge_wokenUp {t : Task} {mask : Nat} {p : Task × Bool}
    (h : t.signalEdge mask = some p) (hp : p.2 = true) : p.1 = reset := by
  obtain ⟨q, -, rfl⟩ := Option.map_eq_some_iff.mp h
  exact if_pos hp

theorem waitEdge_ternary {t : Task} {mask : Nat} {p : Task × Bool} (ht : t.Ternary)
    (h : t.waitEdge mask = some p) : p.1.Ternary := by
  obtain ⟨q, hq, rfl⟩ := Option.map_eq_some_iff.mp h
  have hq' : q.1.Ternary := by
    refine eachBit_ternary (fun v p hv hp => ?_) ht hq
    simp only [Counter.wait] at hp
    split_ifs at hp
    cases hp
    dsimp only
    omega
  dsimp only
  split_ifs
  · exact reset_ternary
  · exact resetORCounters_ternary hq'
  · exact hq'

end Task

/-! ### A sequence on the graph is a sequence on the counters -/

theorem graph_signal {t : Task} (ht : t.Ternary) (m : Mask) :
    graph t.state (Operation.signal m).code =
      match t.signalEdge m with
      | some p => p.1.state
      | none => notAllowedMagic := by
  have hm := m.2
  have hcode : ¬ ((16 + m.1) % 16 = 0 ∨ 32 ≤ 16 + m.1) := by omega
  simp only [graph, edge, Operation.code, Task.setState_state ht, if_neg hcode,
    if_neg (show ¬ 16 + m.1 < 16 by omega), Nat.add_sub_cancel_left]

theorem graph_wait {t : Task} (ht : t.Ternary) (m : Mask) :
    graph t.state (Operation.wait m).code =
      match t.waitEdge m with
      | some p => p.1.state
      | none => notAllowedMagic := by
  have hm := m.2
  have hcode : ¬ (m.1 % 16 = 0 ∨ 32 ≤ m.1) := by omega
  simp only [graph, edge, Operation.code, Task.setState_state ht, if_neg hcode,
    if_pos (show m.1 < 16 by omega)]

theorem Sim.step_signal {s : Sim} (ht : s.task.Ternary) (m : Mask) :
    s.step (.signal m) =
      (s.task.signalEdge m).map fun p => ⟨p.1, !p.1.hasIdleCounter⟩ := by
  simp only [Sim.step, graph_signal ht]
  cases he : s.task.signalEdge m with
  | none => simp
  | some p =>
      have hp := Task.signalEdge_ternary ht he
      have hlt := Task.state_lt hp
      simp only [Task.setState_state hp, Option.map_some]
      rw [if_neg (by unfold notAllowedMagic; omega)]

theorem Task.setState_forty : Task.setState 40 = Task.reset := by decide

theorem Sim.step_wait {s : Sim} (ht : s.task.Ternary) (hrun : s.running = true) (m : Mask) :
    s.step (.wait m) =
      (s.task.waitEdge m).map fun p =>
        if p.1.hasIdleCounter then ⟨p.1, false⟩ else ⟨.reset, true⟩ := by
  simp only [Sim.step, graph_wait ht, hrun, Bool.true_eq_false, or_false, Task.setState_forty]
  cases he : s.task.waitEdge m with
  | none => simp
  | some p =>
      have hp := Task.waitEdge_ternary ht he
      have hlt := Task.state_lt hp
      simp only [Task.setState_state hp, Option.map_some]
      rw [if_neg (by unfold notAllowedMagic; omega)]
      split_ifs <;> rfl

end WaitSignal
