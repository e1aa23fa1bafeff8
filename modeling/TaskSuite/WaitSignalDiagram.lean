import TaskSuite.TaskCondition
import TaskSuite.Tracking
import TaskSuite.WaitSignalRefinement

/-! The repository has two accounts of `wait` and `signal`. The diagram in
`wait_signal_test.cxx` moves each condition bit by itself; the counters of
`wait_signal_test2.cxx` are reset together when the task wakes up. -/
namespace WaitSignal.Diagram
open Machine Refinement

inductive BitOperation where
  | wait (i : Index)
  | signal (i : Index)
  deriving DecidableEq

/-! ### The diagram -/

/-- `result` is what the last signal has returned. -/
structure Bits where
  conditions : Index → Condition
  result : Bool

def Bits.Waiting (b : Bits) : Prop := ∃ i, b.conditions i = .idle

instance (b : Bits) : Decidable b.Waiting := inferInstanceAs (Decidable (∃ i, b.conditions i = .idle))

/-- A task that waits for one condition is not allowed to wait for another. -/
def step (b : Bits) : BitOperation → Option Bits
  | .wait i =>
      if b.Waiting then none
      else (b.conditions i).wait.map fun c => { b with conditions := Function.update b.conditions i c }
  | .signal i =>
      some ⟨Function.update b.conditions i (b.conditions i).signal, decide (b.conditions i = .idle)⟩

/-! ### The counters -/

structure Counters where
  sim : Sim
  result : Bool

def Counters.initial : Counters := ⟨.initial, false⟩

def oneBit (i : Index) : Mask := ⟨2 ^ i.val, by fin_cases i <;> decide⟩

def Counters.step (s : Counters) : BitOperation → Option Counters
  | .wait i => (s.sim.step (.wait (oneBit i))).map fun t => { s with sim := t }
  | .signal i => (s.sim.step (.signal (oneBit i))).map fun t => ⟨t, wokenUp s.sim.task (oneBit i)⟩

/-- The value of a counter is the number of steps to the right that its bit has made. -/
def condition (value : ℕ) : Condition :=
  if value = 0 then .idle else if value = 1 then .running else .skipWait

def view (s : Counters) : Bits := ⟨fun i => condition (s.sim.task i), s.result⟩

def Bits.NoOther (b : Bits) (i : Index) : Prop := ∀ j, b.conditions j = .skipWait → j = i

/-- The task gets no signal for a condition that it does not wait for while it waits, and
keeps no signal for another condition when a wait returns at once or is woken up. -/
def Alike (s : Counters) : BitOperation → Prop
  | .wait i => ¬ (view s).Waiting → (view s).conditions i = .skipWait → (view s).NoOther i
  | .signal i => (view s).Waiting → (view s).conditions i = .idle ∧ (view s).NoOther i

/-! ### One operation on the counters -/

/-- What is true of a task that waits for one condition at a time. -/
structure Inv (s : Counters) : Prop where
  ternary : s.sim.task.Ternary
  running : s.sim.running = !s.sim.task.hasIdleCounter
  oneIdle : ∀ i j, s.sim.task i = 0 → s.sim.task j = 0 → i = j

theorem bits_oneBit (i : Index) : bits (oneBit i).1 = {i} := by
  fin_cases i <;> decide

theorem condition_eq_idle {v : ℕ} : condition v = .idle ↔ v = 0 := by
  unfold condition
  split_ifs with hzero hone <;> simp [hzero]

theorem condition_eq_skipWait {v : ℕ} (hv : v ≤ 2) : condition v = .skipWait ↔ v = 2 := by
  unfold condition
  split_ifs with hzero hone
  · simp [hzero]
  · simp [hone]
  · simp only [true_iff]
    omega

theorem waiting_iff {s : Counters} : (view s).Waiting ↔ s.sim.task.hasIdleCounter = true := by
  rw [Task.hasIdleCounter_iff]
  exact exists_congr fun i => condition_eq_idle

section Steps
variable {s s' : Counters} {i : Index}

theorem inv_reset (result : Bool) : Inv ⟨⟨.reset, true⟩, result⟩ where
  ternary := Task.reset_ternary
  running := rfl
  oneIdle := by
    intro i j hi
    cases hi

theorem inv_initial : Inv .initial := by
  unfold Counters.initial Sim.initial
  rw [Task.setState_forty]
  exact inv_reset false

theorem Inv.busy (h : Inv s) (hrun : ¬ (view s).Waiting) (j : Index) :
    s.sim.task j = 1 ∨ s.sim.task j = 2 := by
  have hle := h.ternary j
  have hne : s.sim.task j ≠ 0 := fun hzero => hrun ⟨j, condition_eq_idle.mpr hzero⟩
  omega

theorem Inv.isRunning (h : Inv s) (hrun : ¬ (view s).Waiting) : s.sim.running = true := by
  rw [h.running, Bool.not_eq_true', Bool.eq_false_iff]
  exact fun hidle => hrun (waiting_iff.mpr hidle)

theorem not_hasIdle_of_ne_zero {t : Task} (h : ∀ j, t j ≠ 0) : t.hasIdleCounter = false := by
  rw [Bool.eq_false_iff, ne_eq, Task.hasIdleCounter_iff]
  rintro ⟨j, hj⟩
  exact h j hj

theorem not_requiredIsIdle_of_ne_zero {t : Task} (h : ∀ j, t j ≠ 0) : t.requiredIsIdle = false := by
  rw [Bool.eq_false_iff, ne_eq, Task.requiredIsIdle_iff]
  rintro ⟨j, -, hj⟩
  exact h j hj

theorem Inv.step_wait_waiting (h : Inv s) (hwait : (view s).Waiting) : s.step (.wait i) = none := by
  have hoff : s.sim.running = false := by
    rw [h.running, waiting_iff.mp hwait]
    rfl
  simp [Counters.step, Sim.step, hoff]

theorem Inv.step_wait_one (h : Inv s) (hrun : ¬ (view s).Waiting) (hone : s.sim.task i = 1) :
    s.step (.wait i) = some ⟨⟨Function.update s.sim.task i 0, false⟩, s.result⟩ := by
  have hbusy := h.busy hrun
  obtain ⟨woke, hwait, hwoke⟩ := Task.wait_of_busy s.sim.task (oneBit i).1 fun j _ => by
    have hj := hbusy j
    omega
  simp only [bits_oneBit, Finset.mem_singleton] at hwait hwoke
  have hno : woke = false := by
    rw [Bool.eq_false_iff, ne_eq, hwoke]
    rintro ⟨_, rfl, htwo, -⟩
    omega
  have hnew : (fun j => if j = i then s.sim.task j - 1 else s.sim.task j) =
      Function.update s.sim.task i 0 := by
    funext j
    by_cases hj : j = i
    · subst hj
      simp [hone]
    · simp [hj]
  have hidle : Task.hasIdleCounter (Function.update s.sim.task i 0) = true :=
    Task.hasIdleCounter_iff.mpr ⟨i, Function.update_self i 0 _⟩
  rw [hnew, hno] at hwait
  simp [Counters.step, Sim.step_wait h.ternary (h.isRunning hrun), Task.waitEdge, hwait, hidle]

/-- The wait is for a condition that was signalled: main starts over. -/
theorem Inv.step_wait_two (h : Inv s) (hrun : ¬ (view s).Waiting) (htwo : s.sim.task i = 2) :
    s.step (.wait i) = some ⟨⟨.reset, true⟩, s.result⟩ := by
  have hbusy := h.busy hrun
  obtain ⟨woke, hwait, hwoke⟩ := Task.wait_of_busy s.sim.task (oneBit i).1 fun j _ => by
    have hj := hbusy j
    omega
  simp only [bits_oneBit, Finset.mem_singleton] at hwait hwoke
  have hne : ∀ j, (if j = i then s.sim.task j - 1 else s.sim.task j) ≠ 0 := by
    intro j
    have hj := hbusy j
    split_ifs with heq
    · subst heq
      omega
    · omega
  have hreset : Task.hasIdleCounter .reset = false := rfl
  rw [Counters.step, Sim.step_wait h.ternary (h.isRunning hrun), Task.waitEdge, hwait]
  cases woke with
  | true => simp [not_requiredIsIdle_of_ne_zero hne, hreset]
  | false => simp [not_hasIdle_of_ne_zero hne]

theorem Inv.step_signal_running (h : Inv s) (hrun : ¬ (view s).Waiting) :
    s.step (.signal i) = some ⟨⟨Function.update s.sim.task i 2, true⟩, false⟩ := by
  have hbusy := h.busy hrun
  have hidle : s.sim.task.hasIdleCounter = false := by
    rw [Bool.eq_false_iff]
    exact fun hidle => hrun (waiting_iff.mpr hidle)
  have hsignal := Task.signal_of_running s.sim.task (oneBit i).1 hbusy
  have hnew : (fun j => if j ∈ bits (oneBit i).1 then 2 else s.sim.task j) =
      Function.update s.sim.task i 2 := by
    funext j
    by_cases hj : j = i
    · subst hj
      simp [bits_oneBit]
    · simp [bits_oneBit, hj]
  have hstill : Task.hasIdleCounter (Function.update s.sim.task i 2) = false := by
    apply not_hasIdle_of_ne_zero
    intro j
    have hj := hbusy j
    by_cases heq : j = i
    · subst heq
      simp
    · rw [Function.update_of_ne heq]
      omega
  rw [hnew] at hsignal
  simp [Counters.step, Sim.step_signal h.ternary, wokenUp, Task.signalEdge, hidle, hsignal, hstill]

theorem Inv.step_signal_idle (h : Inv s) (hidle : s.sim.task i = 0) :
    s.step (.signal i) = some ⟨⟨.reset, true⟩, true⟩ := by
  have hhas : s.sim.task.hasIdleCounter = true := Task.hasIdleCounter_iff.mpr ⟨i, hidle⟩
  have hbits : ∀ j ∈ bits (oneBit i).1, s.sim.task j = 0 := by
    intro j hj
    rw [bits_oneBit, Finset.mem_singleton] at hj
    rw [hj, hidle]
  obtain ⟨t, woke, hsignal, hne⟩ : ∃ (t : Task) (woke : Bool),
      s.sim.task.signal (oneBit i).1 true = some (t, woke) ∧ ∀ j, t j ≠ 0 := by
    obtain ⟨woke, hsignal, -⟩ := Task.signal_of_idle s.sim.task (oneBit i).1 hbits
    refine ⟨_, woke, hsignal, ?_⟩
    intro j
    split_ifs with hj
    · decide
    · intro hzero
      apply hj
      rw [bits_oneBit, Finset.mem_singleton]
      exact h.oneIdle j i hzero hidle
  have hreset : Task.hasIdleCounter .reset = false := rfl
  simp [Counters.step, Sim.step_signal h.ternary, wokenUp, Task.signalEdge, hhas, hsignal,
    not_requiredIsIdle_of_ne_zero hne, not_hasIdle_of_ne_zero hne, hreset]

theorem Inv.step_signal_other (h : Inv s) (hwait : (view s).Waiting) (hbusy : s.sim.task i ≠ 0) :
    s.step (.signal i) = none := by
  have hrefused := Task.signal_of_not_idle s.sim.task (oneBit i).1 ⟨i, by simp [bits_oneBit], hbusy⟩
  simp [Counters.step, Sim.step_signal h.ternary, Task.signalEdge, waiting_iff.mp hwait, hrefused]

/-! ### Both of them -/

theorem view_reset (result : Bool) : view ⟨⟨.reset, true⟩, result⟩ = ⟨fun _ => .running, result⟩ := rfl

theorem view_update (t : Task) (running result : Bool) (v : ℕ) :
    view ⟨⟨Function.update t i v, running⟩, result⟩ =
      ⟨Function.update (fun j => condition (t j)) i (condition v), result⟩ := by
  unfold view
  congr 1
  funext j
  by_cases hj : j = i
  · subst hj
    simp
  · simp [hj]

/-- To start over with the bit `i` running is to move that bit alone exactly if no other
one is anything but running. -/
theorem update_eq_all_running {conditions : Index → Condition} :
    (fun _ => Condition.running) = Function.update conditions i .running ↔
      ∀ j, j ≠ i → conditions j = .running := by
  constructor
  · intro heq j hj
    have hthere := congrFun heq j
    rw [Function.update_of_ne hj] at hthere
    exact hthere.symm
  · intro hall
    funext j
    by_cases hj : j = i
    · rw [hj, Function.update_self]
    · rw [Function.update_of_ne hj, hall j hj]

theorem Inv.others_running_iff (h : Inv s) (hothers : ∀ j, s.sim.task j = 0 → j = i) :
    (∀ j, j ≠ i → (view s).conditions j = .running) ↔ (view s).NoOther i := by
  constructor
  · intro hall j hskip
    by_contra hj
    rw [hall j hj] at hskip
    cases hskip
  · intro hno j hj
    have hle := h.ternary j
    have hzero : s.sim.task j ≠ 0 := fun hzero => hj (hothers j hzero)
    have htwo : s.sim.task j ≠ 2 := fun htwo => hj (hno j ((condition_eq_skipWait hle).mpr htwo))
    obtain hone : s.sim.task j = 1 := by omega
    simp only [view, hone]
    rfl

/-- A wait that returns at once, or a signal that wakes the task up, is seen as such by
both; what is left of the other conditions is the same if nothing was kept for them. -/
theorem Inv.starts_over_iff (h : Inv s) (hothers : ∀ j, s.sim.task j = 0 → j = i) (result : Bool) :
    view ⟨⟨.reset, true⟩, result⟩ =
        ⟨Function.update (view s).conditions i .running, result⟩ ↔ (view s).NoOther i := by
  rw [view_reset, Bits.mk.injEq, update_eq_all_running, h.others_running_iff hothers]
  exact and_iff_left rfl

theorem Inv.wait_alike_iff (h : Inv s) :
    (s.step (.wait i)).map view = step (view s) (.wait i) ↔ Alike s (.wait i) := by
  by_cases hwait : (view s).Waiting
  · simp [h.step_wait_waiting hwait, step, Alike, hwait]
  · rcases h.busy hwait i with hone | htwo
    · have hrunning : (view s).conditions i = .running := by
        simp only [view, hone]
        rfl
      have hmoved : (s.step (.wait i)).map view = step (view s) (.wait i) := by
        rw [h.step_wait_one hwait hone, Option.map_some, view_update, step, if_neg hwait, hrunning]
        rfl
      simp [hmoved, Alike, hrunning]
    · have hskip : (view s).conditions i = .skipWait := by
        simp only [view, htwo]
        rfl
      have hnone : ∀ j, s.sim.task j = 0 → j = i := by
        intro j hzero
        exact absurd ⟨j, condition_eq_idle.mpr hzero⟩ hwait
      rw [h.step_wait_two hwait htwo, Option.map_some, step, if_neg hwait, hskip]
      simp only [Condition.wait, Option.map_some, Option.some.injEq, Alike, hwait, hskip,
        not_false_eq_true, true_imp_iff]
      exact h.starts_over_iff hnone s.result

theorem Inv.signal_alike_iff (h : Inv s) :
    (s.step (.signal i)).map view = step (view s) (.signal i) ↔ Alike s (.signal i) := by
  by_cases hwait : (view s).Waiting
  · by_cases hidle : s.sim.task i = 0
    · have hcondition : (view s).conditions i = .idle := condition_eq_idle.mpr hidle
      rw [h.step_signal_idle hidle, Option.map_some, step, hcondition]
      simp only [Condition.signal, decide_true, Option.some.injEq, Alike, hwait, hcondition,
        true_imp_iff, true_and]
      exact h.starts_over_iff (fun j hzero => h.oneIdle j i hzero hidle) true
    · have hcondition : (view s).conditions i ≠ .idle := mt condition_eq_idle.mp hidle
      simp [h.step_signal_other hwait hidle, step, Alike, hwait, hcondition]
  · have hcondition : (view s).conditions i ≠ .idle := fun hidle => hwait ⟨i, hidle⟩
    have hkept : ((view s).conditions i).signal = .skipWait := by
      cases hi : (view s).conditions i with
      | idle => exact absurd hi hcondition
      | running | skipWait => rfl
    have hmoved : (s.step (.signal i)).map view = step (view s) (.signal i) := by
      rw [h.step_signal_running hwait, Option.map_some, view_update, step, hkept,
        decide_eq_false hcondition]
      rfl
    simp [hmoved, Alike, hwait]

theorem step_inv (h : Inv s) {a : BitOperation} (hs : s.step a = some s') : Inv s' := by
  cases a with
  | wait i =>
      by_cases hwait : (view s).Waiting
      · rw [h.step_wait_waiting hwait] at hs
        cases hs
      · have hbusy := h.busy hwait
        rcases hbusy i with hone | htwo
        · rw [h.step_wait_one hwait hone] at hs
          cases hs
          refine ⟨?_, ?_, ?_⟩
          · intro j
            by_cases hj : j = i
            · simp [hj]
            · simpa [hj] using h.ternary j
          · have hidle : Task.hasIdleCounter (Function.update s.sim.task i 0) = true :=
              Task.hasIdleCounter_iff.mpr ⟨i, Function.update_self i 0 _⟩
            dsimp only
            rw [hidle]
            rfl
          · have honly : ∀ j, Function.update s.sim.task i 0 j = 0 → j = i := by
              intro j hzero
              by_contra hj
              rw [Function.update_of_ne hj] at hzero
              exact hwait ⟨j, condition_eq_idle.mpr hzero⟩
            intro j k hj hk
            rw [honly j hj, honly k hk]
        · rw [h.step_wait_two hwait htwo] at hs
          cases hs
          exact inv_reset _
  | signal i =>
      by_cases hwait : (view s).Waiting
      · by_cases hidle : s.sim.task i = 0
        · rw [h.step_signal_idle hidle] at hs
          cases hs
          exact inv_reset _
        · rw [h.step_signal_other hwait hidle] at hs
          cases hs
      · have hne : ∀ j, Function.update s.sim.task i 2 j ≠ 0 := by
          intro j hzero
          by_cases hj : j = i
          · subst hj
            rw [Function.update_self] at hzero
            cases hzero
          · rw [Function.update_of_ne hj] at hzero
            exact hwait ⟨j, condition_eq_idle.mpr hzero⟩
        rw [h.step_signal_running hwait] at hs
        cases hs
        refine ⟨?_, ?_, ?_⟩
        · intro j
          by_cases hj : j = i
          · simp [hj]
          · simpa [hj] using h.ternary j
        · dsimp only
          rw [not_hasIdle_of_ne_zero hne]
          rfl
        · intro j k hj
          exact absurd hj (hne j)

theorem step_alike_iff (h : Inv s) (a : BitOperation) :
    (s.step a).map view = step (view s) a ↔ Alike s a := by
  cases a with
  | wait i => exact h.wait_alike_iff
  | signal i => exact h.signal_alike_iff

end Steps

/-- For conditions that are waited for one at a time the two accounts agree, on what is
allowed, on which condition is in which state and on what each signal returns, exactly as
long as a waiting task gets no other signal and never starts over with a signal that is
kept for another condition. -/
theorem counters_follow_diagram_iff (operations : List BitOperation) :
    Tracks Counters.step step view .initial operations ↔
      Along Counters.step Alike .initial operations :=
  tracks_iff_along (I := Inv) (fun _ _ _ h _ hs => step_inv h hs)
    (fun _ a h hg => (step_alike_iff h a).mpr hg) (fun _ a h hg => mt (step_alike_iff h a).mp hg)
    inv_initial

/-- The test in which RUNNING would have been OK too. -/
example : ¬ Tracks Counters.step step view .initial [.signal 1, .signal 0, .wait 1] := by
  intro h
  have hend := h _ (List.prefix_refl _)
  have hzero := congrArg (Option.map fun b => b.conditions 0) hend
  revert hzero
  decide

end WaitSignal.Diagram
