import TaskSuite.Machine
import TaskSuite.TaskCondition
import Mathlib.Tactic.SplitIfs

/-! The two tasks of `helloworld.cxx`, which wake each other up through plain
pointers. A label names the task that does its next step; `bump()` takes two. -/
namespace HelloWorld
open Machine

inductive Who where
  | helloWorld
  | bumper
  deriving DecidableEq, Repr

inductive Pc where
  | start
  /-- `m_bumped = true` in the `bump()` of the other task -/
  | setBumped
  /-- `signal(1)` in the `bump()` of the other task -/
  | signal
  /-- `if (!m_bumped)` -/
  | wait
  /-- `wait(1)` -/
  | callWait
  | done
  | finish
  | finished
  deriving DecidableEq, Repr

/-- `HelloWorld::multiplex_impl`: where the task goes from a place, apart from
the test of `m_bumped`. It bumps in its last state. -/
def helloWorldNext : Pc → Pc
  | .start => .wait
  | .done => .setBumped
  | .setBumped => .signal
  | .signal => .finish
  | .callWait => .wait
  | .finish => .finished
  | pc => pc

/-- `Bumper::multiplex_impl`: it bumps in its first state. -/
def bumperNext : Pc → Pc
  | .start => .setBumped
  | .setBumped => .signal
  | .signal => .wait
  | .callWait => .wait
  | .done => .finish
  | .finish => .finished
  | pc => pc

def Who.next : Who → Pc → Pc
  | .helloWorld => helloWorldNext
  | .bumper => bumperNext

structure Task where
  pc : Pc
  bumped : Bool
  cond : Condition
  deriving DecidableEq, Repr

/-- One step of the task `self`, which may act on `other`. An idle task does not
run, and a finished one does not either. -/
def Who.multiplexImpl (who : Who) (self other : Task) : Option (Task × Task) :=
  if self.cond = .idle then none
  else
    let self' := { self with pc := who.next self.pc }
    match self.pc with
    | .setBumped => some (self', { other with bumped := true })
    | .signal => some (self', { other with cond := other.cond.signal })
    | .wait => some ({ self with pc := if self.bumped then .done else .callWait }, other)
    | .callWait => self.cond.wait.map fun cond => ({ self' with cond }, other)
    | .start | .done | .finish => some (self', other)
    | .finished => none

structure System where
  helloWorld : Task
  bumper : Task
  deriving DecidableEq, Repr

def initial : System := ⟨⟨.start, false, .running⟩, ⟨.start, false, .running⟩⟩

def step (σ : System) : Who → Option System
  | .helloWorld =>
      (Who.helloWorld.multiplexImpl σ.helloWorld σ.bumper).map fun p => ⟨p.1, p.2⟩
  | .bumper => (Who.bumper.multiplexImpl σ.bumper σ.helloWorld).map fun p => ⟨p.2, p.1⟩

def System.self (σ : System) : Who → Task
  | .helloWorld => σ.helloWorld
  | .bumper => σ.bumper

def System.other (σ : System) : Who → Task
  | .helloWorld => σ.bumper
  | .bumper => σ.helloWorld

/-- No step that can be done next is a step of `bump()` on a task that has finished. -/
def BumpsLiveTasks (σ : System) : Prop :=
  ∀ who, (step σ who).isSome → (σ.self who).pc = .setBumped ∨ (σ.self who).pc = .signal →
    (σ.other who).pc ≠ .finished

/-- The step is a `finish()` between the two steps of a `bump()` of that task. -/
def FinishesInsideBump (σ : System) (who : Who) : Prop :=
  (σ.self who).pc = .finish ∧ (σ.other who).pc = .signal

def Who.told : Who → List Pc
  | .helloWorld => [.signal, .finish, .finished]
  | .bumper => [.signal, .wait, .callWait, .done, .finish, .finished]

def Who.heard : Who → List Pc
  | .helloWorld => [.done, .setBumped, .signal, .finish, .finished]
  | .bumper => [.done, .finish, .finished]

/-- What holds of a task and the one that it bumps. -/
structure Side (who : Who) (t u : Task) : Prop where
  told : u.bumped = true ↔ t.pc ∈ who.told
  heard : t.pc ∈ who.heard → t.bumped = true
  alive : t.pc = .signal → u.pc ≠ .finished
  awake : t.cond = .idle → t.pc = .wait

def Who.flip : Who → Who
  | .helloWorld => .bumper
  | .bumper => .helloWorld

section Step
variable {who : Who} {self other self' other' : Task}

/-- What a step does, place by place. -/
theorem multiplexImpl_cases (hs : who.multiplexImpl self other = some (self', other')) :
    self.cond ≠ .idle ∧
    ((self.pc = .setBumped ∧ self' = { self with pc := who.next self.pc } ∧
        other' = { other with bumped := true }) ∨
      (self.pc = .signal ∧ self' = { self with pc := who.next self.pc } ∧
        other' = { other with cond := other.cond.signal }) ∨
      (self.pc = .wait ∧ self' = { self with pc := if self.bumped then .done else .callWait } ∧
        other' = other) ∨
      (self.pc = .callWait ∧ (∃ cond, self' = { self with pc := who.next self.pc, cond }) ∧
        other' = other) ∨
      (self.pc ∈ [.start, .done, .finish] ∧ self' = { self with pc := who.next self.pc } ∧
        other' = other)) := by
  have hidle : self.cond ≠ .idle := fun h => by simp [Who.multiplexImpl, h] at hs
  rw [Who.multiplexImpl, if_neg hidle] at hs
  refine ⟨hidle, ?_⟩
  cases hpc : self.pc with
  | setBumped =>
      simp only [hpc, Option.some.injEq, Prod.mk.injEq] at hs
      exact .inl ⟨rfl, hs.1.symm, hs.2.symm⟩
  | signal =>
      simp only [hpc, Option.some.injEq, Prod.mk.injEq] at hs
      exact .inr (.inl ⟨rfl, hs.1.symm, hs.2.symm⟩)
  | wait =>
      simp only [hpc, Option.some.injEq, Prod.mk.injEq] at hs
      exact .inr (.inr (.inl ⟨rfl, hs.1.symm, hs.2.symm⟩))
  | callWait =>
      simp only [hpc, Option.map_eq_some_iff, Prod.mk.injEq] at hs
      obtain ⟨cond, -, hself, hother⟩ := hs
      exact .inr (.inr (.inr (.inl ⟨rfl, ⟨cond, hself.symm⟩, hother.symm⟩)))
  | start | done | finish =>
      simp only [hpc, Option.some.injEq, Prod.mk.injEq] at hs
      exact .inr (.inr (.inr (.inr ⟨by simp, hs.1.symm, hs.2.symm⟩)))
  | finished => simp [hpc] at hs

theorem Side.bumped_of_finished (h : Side who self other) (hfin : self.pc = .finished) :
    self.bumped = true := by
  apply h.heard
  rw [hfin]
  cases who <;> decide

theorem next_mem_heard {pc : Pc} (hwait : pc ≠ .wait) (h : who.next pc ∈ who.heard) :
    pc ∈ who.heard := by
  revert h
  cases who <;> cases pc <;> simp_all [Who.next, helloWorldNext, bumperNext, Who.heard]

theorem next_mem_told {pc : Pc} (hwait : pc ≠ .wait) (hset : pc ≠ .setBumped) :
    who.next pc ∈ who.told ↔ pc ∈ who.told := by
  cases who <;> cases pc <;> simp_all [Who.next, helloWorldNext, bumperNext, Who.told]

theorem next_ne_signal {pc : Pc} (hset : pc ≠ .setBumped) : who.next pc ≠ .signal := by
  cases who <;> cases pc <;> simp_all [Who.next, helloWorldNext, bumperNext]

/-- A task sets `m_bumped` of the other one before that one can finish. -/
theorem Side.live_of_setBumped (hself : Side who self other) (hother : Side who.flip other self)
    (hpc : self.pc = .setBumped) : other.pc ≠ .finished := by
  intro hfin
  have htold := hself.told.mp (hother.bumped_of_finished hfin)
  rw [hpc] at htold
  cases who <;> simp [Who.told] at htold

theorem Side.advance {cond : Condition} (h : Side who self other) (hwait : self.pc ≠ .wait)
    (hset : self.pc ≠ .setBumped) (hbumped : other'.bumped = other.bumped)
    (hcond : cond = .idle → self.pc = .callWait) :
    Side who { self with pc := who.next self.pc, cond } other' where
  told := by rw [hbumped, h.told, next_mem_told hwait hset]
  heard hmem := h.heard (next_mem_heard hwait hmem)
  alive hsignal := absurd hsignal (next_ne_signal hset)
  awake hidle := by
    rw [hcond hidle]
    cases who <;> rfl

theorem Side.step (hself : Side who self other) (hother : Side who.flip other self)
    (hs : who.multiplexImpl self other = some (self', other')) : Side who self' other' := by
  obtain ⟨hrun, hcase⟩ := multiplexImpl_cases hs
  obtain ⟨hpc, rfl, rfl⟩ | ⟨hpc, rfl, rfl⟩ | ⟨hpc, rfl, rfl⟩ | ⟨hpc, ⟨cond, rfl⟩, rfl⟩ |
    ⟨hpc, rfl, rfl⟩ := hcase
  · have hwait : self.pc ≠ .wait := by simp [hpc]
    refine ⟨?_, fun h => hself.heard (next_mem_heard hwait h), fun _ =>
      hself.live_of_setBumped hother hpc, fun h => absurd h hrun⟩
    rw [hpc]
    cases who <;> simp [Who.next, helloWorldNext, bumperNext, Who.told]
  · exact hself.advance (by simp [hpc]) (by simp [hpc]) rfl fun h => absurd h hrun
  · -- behind the test, `m_bumped` has been seen
    refine ⟨?_, ?_, ?_, fun h => absurd h hrun⟩
    · have htold := hself.told
      rw [hpc] at htold
      cases who <;> cases hb : self.bumped <;> simpa [Who.told] using htold
    · cases who <;> cases hb : self.bumped <;> simp [Who.heard]
    · cases hb : self.bumped <;> simp
  · exact hself.advance (by simp [hpc]) (by simp [hpc]) rfl fun _ => hpc
  · refine hself.advance ?_ ?_ rfl fun h => absurd h hrun
    · rintro h
      simp [h] at hpc
    · rintro h
      simp [h] at hpc

/-- A step keeps what holds of the other task, if it is no `finish()` inside of
a `bump()` by that task. -/
theorem Side.step_other (hs : who.multiplexImpl self other = some (self', other'))
    (hother : Side who.flip other self) (hg : ¬ (self.pc = .finish ∧ other.pc = .signal)) :
    Side who.flip other' self' := by
  have hfinish : other.pc = .signal → who.next self.pc ≠ .finished := by
    intro hsignal hnext
    have hfin : self.pc = .finish ∨ self.pc = .finished := by
      revert hnext
      cases who <;> cases self.pc <;> simp [Who.next, helloWorldNext, bumperNext]
    exact hfin.elim (fun h => hg ⟨h, hsignal⟩) (hother.alive hsignal)
  obtain ⟨-, hcase⟩ := multiplexImpl_cases hs
  obtain ⟨hpc, rfl, rfl⟩ | ⟨hpc, rfl, rfl⟩ | ⟨hpc, rfl, rfl⟩ | ⟨hpc, ⟨cond, rfl⟩, rfl⟩ |
    ⟨hpc, rfl, rfl⟩ := hcase
  · exact ⟨hother.told, fun _ => rfl, hfinish, hother.awake⟩
  · exact ⟨hother.told, hother.heard, hfinish, fun h => absurd h (Condition.signal_ne_idle _)⟩
  · refine ⟨hother.told, hother.heard, fun _ => ?_, hother.awake⟩
    cases hb : self.bumped <;> simp
  · exact ⟨hother.told, hother.heard, hfinish, hother.awake⟩
  · exact ⟨hother.told, hother.heard, hfinish, hother.awake⟩

theorem Side.not_idle (h : Side who self other) (hpc : self.pc ≠ .wait) : self.cond ≠ .idle :=
  fun hidle => hpc (h.awake hidle)

theorem multiplexImpl_finish (h : Side who self other) (hpc : self.pc = .finish) :
    who.multiplexImpl self other = some ({ self with pc := .finished }, other) := by
  rw [Who.multiplexImpl, if_neg (h.not_idle (by simp [hpc]))]
  simp only [hpc]
  cases who <;> rfl

theorem multiplexImpl_signal (h : Side who self other) (hpc : self.pc = .signal) :
    (who.multiplexImpl self other').isSome := by
  rw [Who.multiplexImpl, if_neg (h.not_idle (by simp [hpc]))]
  simp only [hpc, Option.isSome_some]

end Step

structure Inv (σ : System) : Prop where
  helloWorld : Side .helloWorld σ.helloWorld σ.bumper
  bumper : Side .bumper σ.bumper σ.helloWorld

theorem inv_initial : Inv initial where
  helloWorld := ⟨by decide, by decide, nofun, nofun⟩
  bumper := ⟨by decide, by decide, nofun, nofun⟩

theorem Inv.bumpsLiveTasks {σ : System} (h : Inv σ) : BumpsLiveTasks σ := by
  intro who _ hpc
  cases who with
  | helloWorld => exact hpc.elim (h.helloWorld.live_of_setBumped h.bumper) h.helloWorld.alive
  | bumper => exact hpc.elim (h.bumper.live_of_setBumped h.helloWorld) h.bumper.alive

theorem step_inv {σ τ : System} {who : Who} (h : Inv σ) (hg : ¬ FinishesInsideBump σ who)
    (hs : step σ who = some τ) : Inv τ := by
  cases who with
  | helloWorld =>
      obtain ⟨⟨self', other'⟩, hm, rfl⟩ := Option.map_eq_some_iff.mp hs
      exact ⟨h.helloWorld.step h.bumper hm, Side.step_other hm h.bumper hg⟩
  | bumper =>
      obtain ⟨⟨self', other'⟩, hm, rfl⟩ := Option.map_eq_some_iff.mp hs
      exact ⟨Side.step_other hm h.helloWorld hg, h.bumper.step h.helloWorld hm⟩

/-- Behind a `finish()` inside of a `bump()`, the `signal(1)` of the latter comes too late. -/
theorem step_breaks {σ : System} {who : Who} (h : Inv σ) (hg : FinishesInsideBump σ who) :
    ∃ τ, step σ who = some τ ∧ ¬ BumpsLiveTasks τ := by
  obtain ⟨hfinish, hsignal⟩ := hg
  cases who with
  | helloWorld =>
      refine ⟨⟨{ σ.helloWorld with pc := .finished }, σ.bumper⟩, ?_, fun hlive => ?_⟩
      · rw [step, multiplexImpl_finish h.helloWorld hfinish]
        rfl
      · refine hlive .bumper ?_ (.inr hsignal) rfl
        rw [step, Option.isSome_map]
        exact multiplexImpl_signal h.bumper hsignal
  | bumper =>
      refine ⟨⟨σ.helloWorld, { σ.bumper with pc := .finished }⟩, ?_, fun hlive => ?_⟩
      · rw [step, multiplexImpl_finish h.bumper hfinish]
        rfl
      · refine hlive .helloWorld ?_ (.inr hsignal) rfl
        rw [step, Option.isSome_map]
        exact multiplexImpl_signal h.helloWorld hsignal

/-- In a run, `bump()` only touches live tasks exactly when no task finishes
between the two steps of a `bump()` on it. -/
theorem bumps_live_iff (schedule : List Who) :
    Throughout step BumpsLiveTasks initial schedule ↔
      Along step (fun σ who => ¬ FinishesInsideBump σ who) initial schedule :=
  throughout_iff_along (I := Inv) (fun _ h => h.bumpsLiveTasks)
    (fun _ _ _ h hg hs => step_inv h hg hs) (fun _ _ h hg => step_breaks h (not_not.mp hg))
    inv_initial schedule

/-- `hello_world` sees its `m_bumped` and runs to its end before `bumper` has
called `signal(1)` on it. -/
theorem signal_after_finish :
    ∃ σ, run step initial
        [.bumper, .bumper, .helloWorld, .helloWorld, .helloWorld, .helloWorld, .helloWorld,
          .helloWorld] = some σ ∧
      σ.helloWorld.pc = .finished ∧ σ.bumper.pc = .signal ∧ ¬ BumpsLiveTasks σ := by
  refine ⟨_, rfl, rfl, rfl, fun hlive => ?_⟩
  exact hlive .bumper (by decide) (.inr rfl) rfl

end HelloWorld
