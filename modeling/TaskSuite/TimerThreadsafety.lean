import TaskSuite.Completion
import Mathlib.Data.Int.Order.Basic
import Mathlib.Tactic.Linarith

/-! `timer_threadsafety_test.cxx`: the main thread starts and stops one timer over and over,
with a delay in between that is tuned until the timer expires at about the same time.
`threadpool::Timer` is not part of the repository; what the test relies on is a
parameter. -/
namespace TimerThreadsafety
open Machine

/-- `expiring` is a timer whose callback is being called. -/
inductive Status where
  | idle
  | running
  | expiring
  deriving DecidableEq, Repr

/-- A timer. `stop` returns true if the callback is not going to be called any more; a
thread of the pool calls `expire`, then the callback, and then `finish`. -/
structure Timer where
  Carrier : Type
  new : Carrier
  status : Carrier → Status
  start : Carrier → Carrier
  stop : Carrier → Carrier × Bool
  expire : Carrier → Carrier
  finish : Carrier → Carrier
  status_new : status new = .idle
  status_start {t : Carrier} : status t = .idle → status (start t) = .running
  stop_of_running {t : Carrier} : status t = .running → (stop t).2 = true ∧ status (stop t).1 = .idle
  stop_of_not_running {t : Carrier} : status t ≠ .running →
    (stop t).2 = false ∧ status (stop t).1 = status t
  status_expire {t : Carrier} : status t = .running → status (expire t) = .expiring
  status_finish {t : Carrier} : status t = .expiring → status (finish t) = .idle

/-- The places in the loop of `main`, with its variable `i`, and in the functions of
`Test` that it calls. -/
inductive MainPc where
  /-- `m_count.store(0)`, behind the condition of the loop -/
  | store (i : ℕ)
  /-- `m_timer.start(m_interval)` -/
  | start (i : ℕ)
  /-- `m_stopped = false` -/
  | clear (i : ℕ)
  /-- the loop that counts down from `l` -/
  | delay (i : ℕ)
  /-- `m_timer.stop()` -/
  | stop (i : ℕ)
  /-- `m_count.fetch_add(1)` in `stop` -/
  | count (i : ℕ)
  /-- `m_stopped = true` -/
  | flag (i : ℕ)
  /-- `gate.open()` in `stop` -/
  | gate (i : ℕ)
  /-- `m_timer.wait_for_possible_expire_to_finish()` -/
  | wait (i : ℕ)
  /-- `ASSERT(m_count.load() == 1)` -/
  | check (i : ℕ)
  /-- `++l` or `--l` -/
  | adjust (i : ℕ)
  /-- `gate.wait()` -/
  | gateWait
  | done
  deriving DecidableEq, Repr

/-- The places of the thread that calls the callback. -/
inductive Callback where
  | none
  /-- `m_count.fetch_add(1)` in `callback` -/
  | count
  /-- `gate.open()` in `callback` -/
  | gate
  | finish
  deriving DecidableEq, Repr

/-- `failed` is set by an ASSERT that does not hold, and by counting down from a negative
number, which would only end with an overflow. -/
structure State (T : Timer) where
  timer : T.Carrier
  count : ℕ
  stopped : Bool
  gate : Bool
  l : ℤ
  failed : Bool
  main : MainPc
  callback : Callback

inductive Label where
  | main
  /-- the timer expires -/
  | expire
  | callback
  deriving DecidableEq, Repr

variable {T : Timer}

def initial (l : ℤ) : State T := ⟨T.new, 0, false, false, l, false, .store 0, .none⟩

/-- `rounds` is the bound of the loop. -/
def stepMain (rounds : ℕ) (s : State T) : Option (State T) :=
  match s.main with
  | .store i =>
      if i < rounds then some { s with count := 0, main := .start i } else some { s with main := .gateWait }
  | .start i => some { s with timer := T.start s.timer, main := .clear i }
  | .clear i => some { s with stopped := false, main := .delay i }
  | .delay i => some { s with failed := s.failed || s.l < 0, main := .stop i }
  | .stop i =>
      some { s with
        timer := (T.stop s.timer).1
        main := if (T.stop s.timer).2 then .count i else .wait i }
  | .count i => some { s with count := s.count + 1, failed := s.failed || s.count ≠ 0, main := .flag i }
  | .flag i => some { s with stopped := true, main := .gate i }
  | .gate i => some { s with gate := true, main := .wait i }
  | .wait i => if T.status s.timer = .expiring then none else some { s with main := .check i }
  | .check i => some { s with failed := s.failed || s.count ≠ 1, main := .adjust i }
  | .adjust i => some { s with l := if s.stopped then s.l + 1 else s.l - 1, main := .store (i + 1) }
  | .gateWait => if s.gate then some { s with main := .done } else none
  | .done => none

def stepCallback (s : State T) : Option (State T) :=
  match s.callback with
  | .none => none
  | .count => some { s with count := s.count + 1, failed := s.failed || s.count ≠ 0, callback := .gate }
  | .gate => some { s with gate := true, callback := .finish }
  | .finish => some { s with timer := T.finish s.timer, callback := .none }

def step (rounds : ℕ) (s : State T) : Label → Option (State T)
  | .main => stepMain rounds s
  | .expire =>
      if T.status s.timer = .running then
        some { s with timer := T.expire s.timer, callback := .count }
      else none
  | .callback => stepCallback s

/-! ### What is known at each place -/

/-- How the timer, the count and the gate fit together between the start of the timer and
the moment when it is known to have been stopped or to have expired. -/
def Racing (s : State T) : Prop :=
  match T.status s.timer, s.callback with
  | .running, .none => s.count = 0
  | .expiring, .count => s.count = 0
  | .expiring, .gate => s.count = 1
  | .expiring, .finish => s.count = 1 ∧ s.gate = true
  | .idle, .none => s.count = 1 ∧ s.gate = true
  | _, _ => False

/-- Nothing is going to happen unless the main thread does it. -/
def Quiet (s : State T) : Prop := T.status s.timer = .idle ∧ s.callback = .none

/-- The state at the place of the main thread. -/
def Located (rounds : ℕ) (s : State T) : Prop :=
  match s.main with
  | .store i => Quiet s ∧ i ≤ rounds ∧ (0 < i → s.gate = true)
  | .start i => Quiet s ∧ i < rounds ∧ s.count = 0
  | .clear i => Racing s ∧ i < rounds
  | .delay i | .stop i => Racing s ∧ i < rounds ∧ s.stopped = false
  | .count i => Quiet s ∧ i < rounds ∧ s.count = 0
  | .flag i => Quiet s ∧ i < rounds ∧ s.count = 1
  | .gate i => Quiet s ∧ i < rounds ∧ s.count = 1 ∧ s.stopped = true
  | .wait i => Racing s ∧ T.status s.timer ≠ .running ∧ i < rounds
  | .check i => Quiet s ∧ i < rounds ∧ s.count = 1 ∧ s.gate = true
  | .adjust i => Quiet s ∧ i < rounds ∧ s.gate = true
  | .gateWait => Quiet s ∧ (0 < rounds → s.gate = true)
  | .done => Quiet s ∧ s.gate = true

def MainPc.round (rounds : ℕ) : MainPc → ℕ
  | .store i | .start i | .clear i | .delay i | .stop i | .count i | .flag i | .gate i | .wait i
  | .check i | .adjust i => i
  | .gateWait | .done => rounds

/-- `l` has changed by one in each round. -/
structure Inv (rounds : ℕ) (l : ℤ) (s : State T) : Prop where
  located : Located rounds s
  low : l ≤ s.l + s.main.round rounds
  high : s.l ≤ l + s.main.round rounds
  sound : s.failed = false

theorem inv_initial (rounds : ℕ) (l : ℤ) : Inv rounds l (initial l : State T) where
  located := ⟨⟨T.status_new, rfl⟩, Nat.zero_le _, fun h => absurd h (Nat.lt_irrefl 0)⟩
  low := by simp [initial, MainPc.round]
  high := by simp [initial, MainPc.round]
  sound := rfl

section Steps
variable {rounds : ℕ} {l : ℤ} {s s' : State T}

theorem racing_of_quiet (h : Quiet s) (hcount : s.count = 1) (hgate : s.gate = true) : Racing s := by
  unfold Racing
  rw [h.1, h.2]
  exact ⟨hcount, hgate⟩

theorem Racing.quiet (h : Racing s) (hrunning : T.status s.timer ≠ .running)
    (hexpiring : T.status s.timer ≠ .expiring) : Quiet s ∧ s.count = 1 ∧ s.gate = true := by
  unfold Racing at h
  unfold Quiet
  cases hstatus : T.status s.timer <;> cases hcallback : s.callback <;>
    simp only [hstatus, hcallback, ne_eq, not_true] at h hrunning hexpiring
  exact ⟨⟨rfl, rfl⟩, h⟩

theorem Racing.running (h : Racing s) (hrunning : T.status s.timer = .running) :
    s.callback = .none ∧ s.count = 0 := by
  unfold Racing at h
  rw [hrunning] at h
  cases hcallback : s.callback <;> simp only [hcallback] at h
  exact ⟨rfl, h⟩

/-- A step of the pool, which there is only while the main thread leaves the timer alone. -/
theorem Located.pool (h : Located rounds s) (hquiet : ¬ Quiet s) (hmain : s'.main = s.main)
    (hstopped : s'.stopped = s.stopped) (hracing : Racing s → Racing s')
    (hstatus : T.status s'.timer ≠ .running) : Located rounds s' := by
  unfold Located at *
  rw [hmain]
  cases hpc : s.main with
  | store i | start i | count i | flag i | gate i | check i | adjust i | gateWait | done =>
      simp only [hpc] at h
      exact absurd h.1 hquiet
  | clear i =>
      simp only [hpc] at h
      exact ⟨hracing h.1, h.2⟩
  | delay i | stop i =>
      simp only [hpc] at h
      exact ⟨hracing h.1, h.2.1, hstopped ▸ h.2.2⟩
  | wait i =>
      simp only [hpc] at h
      exact ⟨hracing h.1, hstatus, h.2.2⟩

theorem Located.racing (h : Located rounds s) (hquiet : ¬ Quiet s) : Racing s := by
  unfold Located at h
  cases hpc : s.main <;> simp only [hpc] at h <;> first | exact h.1 | exact absurd h.1 hquiet

theorem expire_inv (h : Inv rounds l s) (hrunning : T.status s.timer = .running) :
    Inv rounds l { s with timer := T.expire s.timer, callback := .count } where
  located := by
    have hquiet : ¬ Quiet s := by
      intro hq
      rw [hq.1] at hrunning
      cases hrunning
    have hexpiring := T.status_expire hrunning
    refine h.located.pool hquiet rfl rfl ?_ ?_
    · intro hracing
      unfold Racing
      simp only [hexpiring]
      exact (hracing.running hrunning).2
    · dsimp only
      rw [hexpiring]
      decide
  low := h.low
  high := h.high
  sound := h.sound

theorem stepCallback_inv (h : Inv rounds l s) (hs : stepCallback s = some s') : Inv rounds l s' := by
  have hquiet : ¬ Quiet s := by
    intro hq
    simp [stepCallback, hq.2] at hs
  have hracing := h.located.racing hquiet
  unfold Racing at hracing
  cases hcallback : s.callback with
  | none => simp [stepCallback, hcallback] at hs
  | count =>
      simp only [stepCallback, hcallback, Option.some.injEq] at hs
      subst hs
      cases hstatus : T.status s.timer <;> simp only [hstatus, hcallback] at hracing
      refine ⟨h.located.pool hquiet rfl rfl (fun _ => ?_) ?_, h.low, h.high, ?_⟩
      · unfold Racing
        simp only [hstatus, hracing]
      · simp [hstatus]
      · simp [h.sound, hracing]
  | gate =>
      simp only [stepCallback, hcallback, Option.some.injEq] at hs
      subst hs
      cases hstatus : T.status s.timer <;> simp only [hstatus, hcallback] at hracing
      refine ⟨h.located.pool hquiet rfl rfl (fun _ => ?_) ?_, h.low, h.high, h.sound⟩
      · unfold Racing
        simp only [hstatus, hracing, and_self]
      · simp [hstatus]
  | finish =>
      simp only [stepCallback, hcallback, Option.some.injEq] at hs
      subst hs
      cases hstatus : T.status s.timer <;> simp only [hstatus, hcallback] at hracing
      have hidle := T.status_finish hstatus
      refine ⟨h.located.pool hquiet rfl rfl (fun _ => ?_) ?_, h.low, h.high, h.sound⟩
      · unfold Racing
        simp only [hidle]
        exact hracing
      · simp [hidle]

theorem Inv.store (h : Inv rounds l s) {i : ℕ} (hpc : s.main = .store i)
    (hs : stepMain rounds s = some s') : Inv rounds l s' := by
  obtain ⟨hlocated, hlow, hhigh, hsound⟩ := h
  unfold Located at hlocated
  simp only [hpc, MainPc.round] at hlocated hlow hhigh
  simp only [stepMain, hpc] at hs
  split_ifs at hs with hi
  · cases hs
    exact ⟨⟨hlocated.1, hi, rfl⟩, hlow, hhigh, hsound⟩
  · cases hs
    obtain ⟨hquiet, hle, hgate⟩ := hlocated
    obtain rfl : i = rounds := le_antisymm hle (not_lt.mp hi)
    exact ⟨⟨hquiet, hgate⟩, hlow, hhigh, hsound⟩

theorem Inv.start (h : Inv rounds l s) {i : ℕ} (hpc : s.main = .start i)
    (hs : stepMain rounds s = some s') : Inv rounds l s' := by
  obtain ⟨hlocated, hlow, hhigh, hsound⟩ := h
  unfold Located at hlocated
  simp only [hpc, MainPc.round] at hlocated hlow hhigh
  simp only [stepMain, hpc, Option.some.injEq] at hs
  subst hs
  obtain ⟨hquiet, hi, hcount⟩ := hlocated
  have hrunning := T.status_start hquiet.1
  refine ⟨⟨?_, hi⟩, hlow, hhigh, hsound⟩
  unfold Racing
  simp only [hrunning, hquiet.2]
  exact hcount

theorem Inv.clear (h : Inv rounds l s) {i : ℕ} (hpc : s.main = .clear i)
    (hs : stepMain rounds s = some s') : Inv rounds l s' := by
  obtain ⟨hlocated, hlow, hhigh, hsound⟩ := h
  unfold Located at hlocated
  simp only [hpc, MainPc.round] at hlocated hlow hhigh
  simp only [stepMain, hpc, Option.some.injEq] at hs
  subst hs
  exact ⟨⟨hlocated.1, hlocated.2, rfl⟩, hlow, hhigh, hsound⟩

theorem Inv.delay (hl : (rounds : ℤ) ≤ l + 1) (h : Inv rounds l s) {i : ℕ} (hpc : s.main = .delay i)
    (hs : stepMain rounds s = some s') : Inv rounds l s' := by
  obtain ⟨hlocated, hlow, hhigh, hsound⟩ := h
  unfold Located at hlocated
  simp only [hpc, MainPc.round] at hlocated hlow hhigh
  simp only [stepMain, hpc, Option.some.injEq] at hs
  subst hs
  refine ⟨hlocated, hlow, hhigh, ?_⟩
  -- In `i` rounds `l` has lost no more than `i`.
  have hi := hlocated.2.1
  have hpos : ¬ s.l < 0 := by omega
  simp [hsound, hpos]

theorem Inv.stop (h : Inv rounds l s) {i : ℕ} (hpc : s.main = .stop i)
    (hs : stepMain rounds s = some s') : Inv rounds l s' := by
  obtain ⟨hlocated, hlow, hhigh, hsound⟩ := h
  unfold Located at hlocated
  simp only [hpc, MainPc.round] at hlocated hlow hhigh
  simp only [stepMain, hpc, Option.some.injEq] at hs
  subst hs
  obtain ⟨hracing, hi, hstopped⟩ := hlocated
  by_cases hrunning : T.status s.timer = .running
  · obtain ⟨htrue, hidle⟩ := T.stop_of_running hrunning
    obtain ⟨hnone, hcount⟩ := hracing.running hrunning
    simp only [htrue, if_true]
    exact ⟨⟨⟨hidle, hnone⟩, hi, hcount⟩, hlow, hhigh, hsound⟩
  · obtain ⟨hfalse, hsame⟩ := T.stop_of_not_running hrunning
    simp only [hfalse, Bool.false_eq_true, if_false]
    refine ⟨⟨?_, ?_, hi⟩, hlow, hhigh, hsound⟩
    · unfold Racing at hracing ⊢
      dsimp only
      rw [hsame]
      exact hracing
    · dsimp only
      rw [hsame]
      exact hrunning

theorem Inv.count (h : Inv rounds l s) {i : ℕ} (hpc : s.main = .count i)
    (hs : stepMain rounds s = some s') : Inv rounds l s' := by
  obtain ⟨hlocated, hlow, hhigh, hsound⟩ := h
  unfold Located at hlocated
  simp only [hpc, MainPc.round] at hlocated hlow hhigh
  simp only [stepMain, hpc, Option.some.injEq] at hs
  subst hs
  obtain ⟨hquiet, hi, hcount⟩ := hlocated
  exact ⟨⟨hquiet, hi, by dsimp only; rw [hcount]⟩, hlow, hhigh, by simp [hsound, hcount]⟩

theorem Inv.flag (h : Inv rounds l s) {i : ℕ} (hpc : s.main = .flag i)
    (hs : stepMain rounds s = some s') : Inv rounds l s' := by
  obtain ⟨hlocated, hlow, hhigh, hsound⟩ := h
  unfold Located at hlocated
  simp only [hpc, MainPc.round] at hlocated hlow hhigh
  simp only [stepMain, hpc, Option.some.injEq] at hs
  subst hs
  obtain ⟨hquiet, hi, hcount⟩ := hlocated
  exact ⟨⟨hquiet, hi, hcount, rfl⟩, hlow, hhigh, hsound⟩

theorem Inv.gate (h : Inv rounds l s) {i : ℕ} (hpc : s.main = .gate i)
    (hs : stepMain rounds s = some s') : Inv rounds l s' := by
  obtain ⟨hlocated, hlow, hhigh, hsound⟩ := h
  unfold Located at hlocated
  simp only [hpc, MainPc.round] at hlocated hlow hhigh
  simp only [stepMain, hpc, Option.some.injEq] at hs
  subst hs
  obtain ⟨hquiet, hi, hcount, hstopped⟩ := hlocated
  refine ⟨⟨racing_of_quiet hquiet hcount rfl, ?_, hi⟩, hlow, hhigh, hsound⟩
  dsimp only
  rw [hquiet.1]
  decide

theorem Inv.wait (h : Inv rounds l s) {i : ℕ} (hpc : s.main = .wait i)
    (hs : stepMain rounds s = some s') : Inv rounds l s' := by
  obtain ⟨hlocated, hlow, hhigh, hsound⟩ := h
  unfold Located at hlocated
  simp only [hpc, MainPc.round] at hlocated hlow hhigh
  simp only [stepMain, hpc] at hs
  split_ifs at hs with hexpiring
  cases hs
  obtain ⟨hracing, hrunning, hi⟩ := hlocated
  obtain ⟨hquiet, hcount, hgate⟩ := hracing.quiet hrunning hexpiring
  exact ⟨⟨hquiet, hi, hcount, hgate⟩, hlow, hhigh, hsound⟩

theorem Inv.check (h : Inv rounds l s) {i : ℕ} (hpc : s.main = .check i)
    (hs : stepMain rounds s = some s') : Inv rounds l s' := by
  obtain ⟨hlocated, hlow, hhigh, hsound⟩ := h
  unfold Located at hlocated
  simp only [hpc, MainPc.round] at hlocated hlow hhigh
  simp only [stepMain, hpc, Option.some.injEq] at hs
  subst hs
  obtain ⟨hquiet, hi, hcount, hgate⟩ := hlocated
  exact ⟨⟨hquiet, hi, hgate⟩, hlow, hhigh, by simp [hsound, hcount]⟩

theorem Inv.adjust (h : Inv rounds l s) {i : ℕ} (hpc : s.main = .adjust i)
    (hs : stepMain rounds s = some s') : Inv rounds l s' := by
  obtain ⟨hlocated, hlow, hhigh, hsound⟩ := h
  unfold Located at hlocated
  simp only [hpc, MainPc.round] at hlocated hlow hhigh
  simp only [stepMain, hpc, Option.some.injEq] at hs
  subst hs
  obtain ⟨hquiet, hi, hgate⟩ := hlocated
  refine ⟨⟨hquiet, hi, fun _ => hgate⟩, ?_, ?_, hsound⟩
  · simp only [MainPc.round]
    split_ifs <;> push_cast <;> omega
  · simp only [MainPc.round]
    split_ifs <;> push_cast <;> omega

theorem Inv.gateWait (h : Inv rounds l s) (hpc : s.main = .gateWait)
    (hs : stepMain rounds s = some s') : Inv rounds l s' := by
  obtain ⟨hlocated, hlow, hhigh, hsound⟩ := h
  unfold Located at hlocated
  simp only [hpc, MainPc.round] at hlocated hlow hhigh
  simp only [stepMain, hpc] at hs
  split_ifs at hs with hgate
  cases hs
  exact ⟨⟨hlocated.1, hgate⟩, hlow, hhigh, hsound⟩

theorem stepMain_inv (hl : (rounds : ℤ) ≤ l + 1) (h : Inv rounds l s) (hs : stepMain rounds s = some s') :
    Inv rounds l s' := by
  cases hpc : s.main with
  | store i => exact h.store hpc hs
  | start i => exact h.start hpc hs
  | clear i => exact h.clear hpc hs
  | delay i => exact Inv.delay hl h hpc hs
  | stop i => exact h.stop hpc hs
  | count i => exact h.count hpc hs
  | flag i => exact h.flag hpc hs
  | gate i => exact h.gate hpc hs
  | wait i => exact h.wait hpc hs
  | check i => exact h.check hpc hs
  | adjust i => exact h.adjust hpc hs
  | gateWait => exact h.gateWait hpc hs
  | done => simp [stepMain, hpc] at hs

theorem step_inv (hl : (rounds : ℤ) ≤ l + 1) (h : Inv rounds l s) {a : Label}
    (hs : step rounds s a = some s') : Inv rounds l s' := by
  cases a with
  | main => exact stepMain_inv hl h hs
  | expire =>
      simp only [step] at hs
      split_ifs at hs with hrunning
      cases hs
      exact expire_inv h hrunning
  | callback => exact stepCallback_inv h hs

end Steps

/-! ### Whole runs -/

def MainPc.left (rounds : ℕ) : MainPc → ℕ
  | .store i => 12 * (rounds - i) + 2
  | .start i => 12 * (rounds - i) + 1
  | .clear i => 12 * (rounds - i)
  | .delay i => 12 * (rounds - i) - 1
  | .stop i => 12 * (rounds - i) - 2
  | .count i => 12 * (rounds - i) - 3
  | .flag i => 12 * (rounds - i) - 4
  | .gate i => 12 * (rounds - i) - 5
  | .wait i => 12 * (rounds - i) - 6
  | .check i => 12 * (rounds - i) - 7
  | .adjust i => 12 * (rounds - i) - 8
  | .gateWait => 1
  | .done => 0

def poolLeft : Status → Callback → ℕ
  | _, .count => 3
  | _, .gate => 2
  | _, .finish => 1
  | .running, .none => 4
  | _, .none => 0

def State.measure (rounds : ℕ) (s : State T) : ℕ :=
  5 * s.main.left rounds + poolLeft (T.status s.timer) s.callback

section Runs
variable {rounds : ℕ} {l : ℤ} {s s' : State T}

theorem poolLeft_le (x : Status) (y : Callback) : poolLeft x y ≤ 4 := by
  cases x <;> cases y <;> decide

theorem measure_lt_of_main (hless : s'.main.left rounds < s.main.left rounds) :
    s'.measure rounds < s.measure rounds := by
  have hpool := poolLeft_le (T.status s'.timer) s'.callback
  unfold State.measure
  omega

theorem stepMain_measure (h : Inv rounds l s) (hs : stepMain rounds s = some s') :
    s'.measure rounds < s.measure rounds := by
  have hlocated := h.located
  unfold Located at hlocated
  apply measure_lt_of_main
  cases hpc : s.main with
  | store i =>
      simp only [stepMain, hpc] at hs
      split_ifs at hs <;> cases hs <;> simp only [MainPc.left] <;> omega
  | start i | clear i | delay i | count i | flag i | gate i | check i | adjust i =>
      simp only [hpc] at hlocated
      simp only [stepMain, hpc, Option.some.injEq] at hs
      subst hs
      simp only [MainPc.left]
      omega
  | stop i =>
      simp only [hpc] at hlocated
      simp only [stepMain, hpc, Option.some.injEq] at hs
      subst hs
      dsimp only
      split_ifs <;> simp only [MainPc.left] <;> omega
  | wait i =>
      simp only [hpc] at hlocated
      simp only [stepMain, hpc] at hs
      split_ifs at hs
      cases hs
      simp only [MainPc.left]
      omega
  | gateWait =>
      simp only [stepMain, hpc] at hs
      split_ifs at hs
      cases hs
      simp only [MainPc.left]
      omega
  | done => simp [stepMain, hpc] at hs

theorem step_measure (h : Inv rounds l s) {a : Label} (hs : step rounds s a = some s') :
    s'.measure rounds < s.measure rounds := by
  cases a with
  | main => exact stepMain_measure h hs
  | expire =>
      simp only [step] at hs
      split_ifs at hs with hrunning
      cases hs
      have hquiet : ¬ Quiet s := by
        intro hq
        rw [hq.1] at hrunning
        cases hrunning
      obtain ⟨hnone, -⟩ := (h.located.racing hquiet).running hrunning
      simp only [State.measure, hrunning, hnone, poolLeft]
      omega
  | callback =>
      simp only [step] at hs
      have hquiet : ¬ Quiet s := by
        intro hq
        simp [stepCallback, hq.2] at hs
      have hracing := h.located.racing hquiet
      unfold Racing at hracing
      cases hcallback : s.callback <;> simp only [stepCallback, hcallback, reduceCtorEq, Option.some.injEq] at hs <;>
        cases hstatus : T.status s.timer <;> simp only [hstatus, hcallback] at hracing <;> subst hs
      · simp only [State.measure, hcallback, poolLeft]
        omega
      · simp only [State.measure, hcallback, poolLeft]
        omega
      · simp only [State.measure, hcallback, T.status_finish hstatus, poolLeft]
        omega

/-- How `main` ends: no ASSERT has failed, the gate is open, and `l` is off by no more than
the number of rounds. -/
structure Ended (rounds : ℕ) (l : ℤ) (s : State T) : Prop where
  main : s.main = .done
  quiet : Quiet s
  sound : s.failed = false
  low : l ≤ s.l + rounds
  high : s.l ≤ l + rounds

theorem exists_step (hrounds : 0 < rounds) (h : Inv rounds l s) (hended : ¬ Ended rounds l s) :
    ∃ a s', step rounds s a = some s' := by
  obtain ⟨hlocated, hlow, hhigh, hsound⟩ := h
  unfold Located at hlocated
  cases hpc : s.main with
  | store i =>
      refine ⟨.main, ?_⟩
      simp only [step, stepMain, hpc]
      split_ifs <;> exact ⟨_, rfl⟩
  | start i | clear i | delay i | stop i | count i | flag i | gate i | check i | adjust i =>
      refine ⟨.main, ?_⟩
      simp only [step, stepMain, hpc]
      exact ⟨_, rfl⟩
  | wait i =>
      simp only [hpc] at hlocated
      by_cases hexpiring : T.status s.timer = .expiring
      · -- The main thread waits for the callback, which has steps to do.
        refine ⟨.callback, ?_⟩
        have hracing := hlocated.1
        unfold Racing at hracing
        cases hcallback : s.callback <;> simp only [hexpiring, hcallback] at hracing <;>
          simp only [step, stepCallback, hcallback] <;> exact ⟨_, rfl⟩
      · refine ⟨.main, ?_⟩
        simp only [step, stepMain, hpc, if_neg hexpiring]
        exact ⟨_, rfl⟩
  | gateWait =>
      simp only [hpc] at hlocated
      refine ⟨.main, ?_⟩
      simp only [step, stepMain, hpc, if_pos (hlocated.2 hrounds)]
      exact ⟨_, rfl⟩
  | done =>
      simp only [hpc, MainPc.round] at hlocated hlow hhigh
      exact absurd ⟨hpc, hlocated.1, hsound, hlow, hhigh⟩ hended

end Runs

/-- Wherever the timer expires, each time that it is started it is counted exactly once,
as stopped or as expired: no ASSERT fails, and `main` comes to its end. The loop that
counts down from `l` needs `l` not to become negative. -/
theorem counted_once (T : Timer) (rounds : ℕ) (l : ℤ) (hrounds : 0 < rounds) (hl : (rounds : ℤ) ≤ l + 1) :
    Completes (step rounds) (Ended rounds l) (initial l : State T) ∧
      ∀ labels s, run (step rounds) (initial l : State T) labels = some s → s.failed = false :=
  ⟨completes (I := Inv rounds l) (fun _ _ _ hu hs => step_inv hl hu hs) (fun _ _ _ hu hs => step_measure hu hs)
    (fun _ hu hended => exists_step hrounds hu hended) (inv_initial rounds l),
   fun _ _ hrun => (invariant (I := Inv rounds l) (fun _ _ _ hu hs => step_inv hl hu hs)
    (inv_initial rounds l) hrun).sound⟩

def Timer.plain : Timer where
  Carrier := Status
  new := .idle
  status := id
  start _ := .running
  stop t := if t = .running then (.idle, true) else (t, false)
  expire _ := .expiring
  finish _ := .idle
  status_new := rfl
  status_start _ := rfl
  stop_of_running := by
    intro t ht
    rw [id] at ht
    rw [if_pos ht]
    exact ⟨rfl, rfl⟩
  stop_of_not_running := by
    intro t ht
    rw [id] at ht
    rw [if_neg ht]
    exact ⟨rfl, rfl⟩
  status_expire _ := rfl
  status_finish _ := rfl

/-- The numbers of the source: interval 7, and 100000 rounds. -/
theorem counted_once_source :
    Completes (step 100000) (Ended 100000 503000) (initial 503000 : State .plain) ∧
      ∀ labels s, run (step 100000) (initial 503000 : State .plain) labels = some s → s.failed = false :=
  counted_once .plain 100000 503000 (by decide) (by decide)

end TimerThreadsafety
