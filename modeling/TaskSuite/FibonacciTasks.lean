import TaskSuite.Machine
import TaskSuite.TaskCondition
import Mathlib.Data.Nat.Fib.Basic
import Mathlib.Logic.Function.Basic

/-! The tree of tasks of `fibonacci.cxx`. A label names the task that does its
next step; a step does at most one thing that another task can see. -/
namespace FibonacciTasks
open Machine

inductive Sub where
  | largest
  | smallest
  deriving DecidableEq, Repr

/-- What is taken off `m_index` for a subtask. -/
def Sub.less : Sub → ℕ
  | .largest => 1
  | .smallest => 2

/-- A task is named by the way from it up to the root. -/
abbrev Path := List Sub

/-- The states of `multiplex_impl`, and the places inside of them. -/
inductive Pc where
  /-- not run yet -/
  | created
  | start
  /-- `m_largest->run(high_priority_queue, this, 1)` -/
  | runLargest
  /-- `m_smallest->run(high_priority_queue, this, 1)` -/
  | runSmallest
  /-- `m_largest->finished()`, at the start of `Fibonacci_wait` -/
  | testLargest
  /-- `m_smallest->finished()` -/
  | testSmallest
  /-- `wait(1)` -/
  | callWait
  /-- `m_largest->value()`, in `Fibonacci_math` -/
  | readLargest
  /-- `+ m_smallest->value()`, with the first summand -/
  | readSmallest (sum : ℤ)
  /-- `finish()` -/
  | done
  /-- finished, with the signal to the parent still to be delivered -/
  | finishing
  | signalled
  deriving DecidableEq, Repr

structure Task where
  index : ℕ
  value : ℤ
  pc : Pc
  cond : Condition
  deriving DecidableEq, Repr

def Task.new (n : ℕ) : Task := ⟨n, 0, .created, .running⟩

def Task.finished (t : Task) : Bool := t.pc = .finishing || t.pc = .signalled

/-- The tasks that exist. -/
abbrev Tree := Path → Option Task

def Tree.set (σ : Tree) (p : Path) (t : Task) : Tree := Function.update σ p (some t)

def initial (n : ℕ) : Tree := Tree.set (fun _ => none) [] { Task.new n with pc := .start }

/-- The signal that a task gives when it has finished; the root has no parent. -/
def Tree.signalParent (σ : Tree) : Path → Tree
  | [] => σ
  | _ :: q =>
      match σ q with
      | some t => σ.set q { t with cond := t.cond.signal }
      | none => σ

/-- The next step of the task `p`. An idle task does not run. -/
def multiplexImpl (σ : Tree) (p : Path) (t : Task) : Option Tree :=
  match t.pc with
  | .created | .signalled => none
  | .start =>
      if t.index < 2 then some (σ.set p { t with value := 1, pc := .done })
      else
        some (((σ.set p { t with pc := .runLargest }).set (.largest :: p)
          (.new (t.index - 1))).set (.smallest :: p) (.new (t.index - 2)))
  | .runLargest => (σ (.largest :: p)).map fun u =>
      (σ.set p { t with pc := .runSmallest }).set (.largest :: p) { u with pc := .start }
  | .runSmallest => (σ (.smallest :: p)).map fun u =>
      (σ.set p { t with pc := .testLargest }).set (.smallest :: p) { u with pc := .start }
  | .testLargest => (σ (.largest :: p)).map fun u =>
      σ.set p { t with pc := if u.finished then .testSmallest else .callWait }
  | .testSmallest => (σ (.smallest :: p)).map fun u =>
      σ.set p { t with pc := if u.finished then .readLargest else .callWait }
  | .callWait => t.cond.wait.map fun cond => σ.set p { t with pc := .testLargest, cond }
  | .readLargest => (σ (.largest :: p)).map fun u =>
      σ.set p { t with pc := .readSmallest u.value }
  | .readSmallest sum => (σ (.smallest :: p)).map fun u =>
      σ.set p { t with value := sum + u.value, pc := .done }
  | .done => some (σ.set p { t with pc := .finishing })
  | .finishing => some ((σ.signalParent p).set p { t with pc := .signalled })

def step (σ : Tree) (p : Path) : Option Tree :=
  (σ p).bind fun t => if t.cond = .idle then none else multiplexImpl σ p t

/-! ### What holds of a task and its subtasks -/

def fibonacci (n : ℕ) : ℤ := Nat.fib (n + 1)

theorem fibonacci_of_lt {n : ℕ} (h : n < 2) : fibonacci n = 1 := by
  obtain rfl | rfl : n = 0 ∨ n = 1 := by omega
  · rfl
  · rfl

theorem fibonacci_of_le {n : ℕ} (h : 2 ≤ n) :
    fibonacci n = fibonacci (n - 1) + fibonacci (n - 2) := by
  obtain ⟨m, rfl⟩ := Nat.exists_eq_add_of_le' h
  simp only [fibonacci, Nat.add_sub_cancel, show m + 2 - 1 = m + 1 from rfl]
  rw [Nat.fib_add_two, add_comm]
  push_cast
  rfl

def Pc.Inside (pc : Pc) : Prop := pc ∉ [.created, .start, .done, .finishing, .signalled]

def Task.Awaits (t : Task) (d : Sub) : Prop :=
  t.pc = .runLargest ∨ (t.pc = .runSmallest ∧ d = .smallest)

/-- Some subtask still has to give its signal. -/
def Owed (child : Sub → Option Task) : Prop := ∃ d u, child d = some u ∧ u.pc ≠ .signalled

structure Family (t : Task) (child : Sub → Option Task) : Prop where
  single : t.pc = .created ∨ t.pc = .start → ∀ d, child d = none
  leaf : t.index < 2 → t.pc ∈ [.created, .start, .done, .finishing, .signalled]
  both : 2 ≤ t.index → t.pc ≠ .created → t.pc ≠ .start → ∀ d, (child d).isSome
  index : ∀ d u, child d = some u → u.index = t.index - d.less
  value : t.pc ∈ [.done, .finishing, .signalled] → t.value = fibonacci t.index
  unrun : ∀ d, t.Awaits d → ∀ u, child d = some u → u.pc = .created
  largest : t.pc ∈ [.testSmallest, .readLargest] ∨ (∃ n, t.pc = .readSmallest n) →
    ∀ u, child .largest = some u → u.finished
  smallest : t.pc = .readLargest ∨ (∃ n, t.pc = .readSmallest n) →
    ∀ u, child .smallest = some u → u.finished
  sum : ∀ n, t.pc = .readSmallest n → n = fibonacci (t.index - 1)
  pending : t.pc = .callWait → t.cond = .skipWait ∨ Owed child
  idle : t.cond = .idle → t.pc = .testLargest ∧ Owed child

structure Inv (n : ℕ) (σ : Tree) : Prop where
  family : ∀ p t, σ p = some t → Family t fun d => σ (d :: p)
  rooted : ∀ p d, σ p = none → σ (d :: p) = none
  root : ∃ t, σ [] = some t ∧ t.index = n

section Lookup
variable {σ : Tree} {p q : Path} {t : Task} {d : Sub}

theorem cons_cons_ne_self (d e : Sub) (p : Path) : d :: e :: p ≠ p := by
  intro h
  have := congrArg List.length h
  simp only [List.length_cons] at this
  omega

@[simp] theorem Tree.set_self : (σ.set p t) p = some t := Function.update_self ..

theorem Tree.set_of_ne (h : q ≠ p) : (σ.set p t) q = σ q := Function.update_of_ne h ..

theorem Tree.set_above : (σ.set (d :: p) t) p = σ p :=
  Tree.set_of_ne (List.cons_ne_self d p).symm

theorem Tree.set_below : (σ.set p t) (d :: p) = σ (d :: p) := Tree.set_of_ne (List.cons_ne_self d p)

theorem Tree.set_siblings :
    (fun e => (σ.set (d :: p) t) (e :: p)) = Function.update (fun e => σ (e :: p)) d (some t) := by
  funext e
  by_cases he : e = d
  · subst he
    simp
  · rw [Function.update_of_ne he, Tree.set_of_ne (by simp [he])]

theorem Tree.set_subtasks (h : ∀ e, e :: q ≠ p) :
    (fun e => (σ.set p t) (e :: q)) = fun e => σ (e :: q) :=
  funext fun e => Tree.set_of_ne (h e)

end Lookup

/-- A change of one task keeps the invariant, if it fits with the subtasks and
with the parent. -/
theorem Inv.set {n : ℕ} {σ : Tree} (h : Inv n σ) {p : Path} {t t' : Task} (ht : σ p = some t)
    (hindex : t'.index = t.index) (hown : Family t' fun d => σ (d :: p))
    (hparent : ∀ d q u, p = d :: q → σ q = some u →
      Family u (Function.update (fun e => σ (e :: q)) d (some t'))) :
    Inv n (σ.set p t') where
  family q u hu := by
    by_cases hq : q = p
    · subst hq
      rw [Tree.set_self] at hu
      cases hu
      simpa only [Tree.set_below] using hown
    · rw [Tree.set_of_ne hq] at hu
      by_cases hd : ∃ d, d :: q = p
      · obtain ⟨d, rfl⟩ := hd
        rw [Tree.set_siblings]
        exact hparent d q u rfl hu
      · rw [Tree.set_subtasks fun e he => hd ⟨e, he⟩]
        exact h.family q u hu
  rooted q d hq := by
    have hqp : q ≠ p := by
      rintro rfl
      simp at hq
    rw [Tree.set_of_ne hqp] at hq
    have hdq : d :: q ≠ p := by
      rintro rfl
      rw [h.rooted q d hq] at ht
      cases ht
    rw [Tree.set_of_ne hdq]
    exact h.rooted q d hq
  root := by
    obtain ⟨u, hu, hn⟩ := h.root
    by_cases hp : [] = p
    · subst hp
      rw [ht] at hu
      cases hu
      exact ⟨t', Tree.set_self, hindex.trans hn⟩
    · exact ⟨u, (Tree.set_of_ne hp).trans hu, hn⟩

theorem Task.finished_iff {t : Task} : t.finished = true ↔ t.pc = .finishing ∨ t.pc = .signalled := by
  simp [Task.finished]

section Subtask
variable {t u u' : Task} {child : Sub → Option Task} {d : Sub}

theorem forall_subtask {P : Sub → Task → Prop} (h : ∀ e v, child e = some v → P e v) (hd : P d u')
    (e : Sub) (v : Task) (hv : Function.update child d (some u') e = some v) : P e v := by
  by_cases he : e = d
  · subst he
    rw [Function.update_self] at hv
    cases hv
    exact hd
  · rw [Function.update_of_ne he] at hv
    exact h e v hv

theorem Owed.update (h : Owed child) (hu : child d = some u)
    (hsignal : u'.pc = .signalled → u.pc = .signalled) :
    Owed (Function.update child d (some u')) := by
  by_cases hpc : u'.pc = .signalled
  · obtain ⟨e, v, hv, hne⟩ := h
    have he : e ≠ d := by
      rintro rfl
      rw [hu] at hv
      cases hv
      exact hne (hsignal hpc)
    exact ⟨e, v, (Function.update_of_ne he ..).trans hv, hne⟩
  · exact ⟨d, u', Function.update_self .., hpc⟩

/-- A subtask that goes on keeps what its parent relies on: a finished one stays
so, one that is not run yet does not go on by itself, and it gives its signal to
a parent that is not going to miss it. -/
theorem Family.subtask (h : Family t child) (hu : child d = some u) (hindex : u'.index = u.index)
    (hfin : u.finished = true → u'.finished = true) (hrun : ¬ t.Awaits d)
    (howed : (u'.pc = .signalled → u.pc = .signalled) ∨
      (t.cond ≠ .idle ∧ (t.pc = .callWait → t.cond = .skipWait))) :
    Family t (Function.update child d (some u')) where
  single hpc := by
    rw [h.single hpc d] at hu
    cases hu
  leaf := h.leaf
  both h2 hc hs := forall_update (P := fun v : Option Task => v.isSome = true) rfl (h.both h2 hc hs)
  index := forall_subtask h.index (hindex ▸ h.index d u hu)
  value := h.value
  unrun e hw v hv := by
    refine forall_subtask (P := fun e v => t.Awaits e → v.pc = .created)
      (fun e v hv hw => h.unrun e hw v hv) (fun hw => absurd hw hrun) e v hv hw
  largest hpc v hv := by
    refine forall_subtask (P := fun e v => e = .largest → v.finished = true) ?_ ?_ .largest v hv rfl
    · rintro e v hv rfl
      exact h.largest hpc v hv
    · rintro rfl
      exact hfin (h.largest hpc u hu)
  smallest hpc v hv := by
    refine forall_subtask (P := fun e v => e = .smallest → v.finished = true) ?_ ?_ .smallest v hv rfl
    · rintro e v hv rfl
      exact h.smallest hpc v hv
    · rintro rfl
      exact hfin (h.smallest hpc u hu)
  sum := h.sum
  pending hpc := by
    rcases howed with hsignal | ⟨-, hskip⟩
    · exact (h.pending hpc).imp_right fun ho => ho.update hu hsignal
    · exact .inl (hskip hpc)
  idle hidle := by
    rcases howed with hsignal | ⟨hawake, -⟩
    · exact (h.idle hidle).imp_right fun ho => ho.update hu hsignal
    · exact absurd hidle hawake

/-- A task that is past its start and not done has subtasks. -/
theorem Family.two_le (h : Family t child)
    (hpc : t.pc.Inside) : 2 ≤ t.index := by
  by_contra hlt
  exact hpc (h.leaf (by omega))

theorem Family.within {pc : Pc} {cond : Condition} (h : Family t child)
    (hold : t.pc.Inside) (hnew : pc.Inside) (unrun : ∀ d, { t with pc, cond }.Awaits d → t.Awaits d)
    (largest : pc ∈ [.testSmallest, .readLargest] ∨ (∃ n, pc = .readSmallest n) →
      ∀ u, child .largest = some u → u.finished)
    (smallest : pc = .readLargest ∨ (∃ n, pc = .readSmallest n) →
      ∀ u, child .smallest = some u → u.finished)
    (sum : ∀ n, pc = .readSmallest n → n = fibonacci (t.index - 1))
    (pending : pc = .callWait → cond = .skipWait ∨ Owed child)
    (idle : cond = .idle → pc = .testLargest ∧ Owed child) :
    Family { t with pc, cond } child where
  single hpc := by
    rcases hpc with rfl | rfl <;> simp [Pc.Inside] at hnew
  leaf hlt := absurd (h.two_le hold) (Nat.not_le.mpr hlt)
  both h2 _ _ := h.both h2 (fun hc => hold (by simp [hc])) (fun hs => hold (by simp [hs]))
  index := h.index
  value hpc := by
    simp only [List.mem_cons, List.not_mem_nil, or_false] at hpc
    rcases hpc with rfl | rfl | rfl <;> simp [Pc.Inside] at hnew
  unrun d hw := h.unrun d (unrun d hw)
  largest := largest
  smallest := smallest
  sum := sum
  pending := pending
  idle := idle

theorem Family.ends {pc : Pc} {value : ℤ} (h : Family t child)
    (hold : t.index < 2 ∨ (t.pc ≠ .created ∧ t.pc ≠ .start))
    (hnew : pc ∈ [.done, .finishing, .signalled]) (hcond : t.cond ≠ .idle)
    (hvalue : value = fibonacci t.index) : Family { t with value, pc } child := by
  simp only [List.mem_cons, List.not_mem_nil, or_false] at hnew
  refine ⟨?_, ?_, ?_, h.index, fun _ => hvalue, ?_, ?_, ?_, ?_, ?_, fun hidle => absurd hidle hcond⟩
  · rintro (rfl | rfl) <;> simp at hnew
  · intro _
    rcases hnew with rfl | rfl | rfl <;> simp
  · intro h2 _ _
    obtain ⟨hc, hs⟩ := hold.resolve_left (Nat.not_lt.mpr h2)
    exact h.both h2 hc hs
  · rintro d (hw | ⟨hw, -⟩) <;> rcases hnew with rfl | rfl | rfl <;> cases hw
  · rintro (hpc | ⟨n, hpc⟩) <;> rcases hnew with rfl | rfl | rfl <;> simp at hpc
  · rintro (hpc | ⟨n, hpc⟩) <;> rcases hnew with rfl | rfl | rfl <;> simp at hpc
  · intro n hpc
    rcases hnew with rfl | rfl | rfl <;> cases hpc
  · intro hpc
    rcases hnew with rfl | rfl | rfl <;> cases hpc

/-- A signal between the tests and the wait lets the wait be skipped. -/
theorem Family.skips (h : Family t child) (hpc : t.pc = .callWait) : t.cond.signal = .skipWait := by
  cases hcond : t.cond with
  | idle =>
      have := (h.idle hcond).1
      rw [hpc] at this
      cases this
  | running | skipWait => rfl

theorem Family.run (h : Family u child) (hpc : u.pc = .created) :
    Family { u with pc := .start } child where
  single _ := h.single (.inl hpc)
  leaf _ := by simp
  both _ _ hs := absurd rfl hs
  index := h.index
  value hend := by simp at hend
  unrun d hw := by rcases hw with hw | ⟨hw, -⟩ <;> cases hw
  largest hin := by rcases hin with hin | ⟨n, hin⟩ <;> simp at hin
  smallest hin := by rcases hin with hin | ⟨n, hin⟩ <;> cases hin
  sum n hin := by cases hin
  pending hin := by cases hin
  idle hidle := by
    have := (h.idle hidle).1
    rw [hpc] at this
    cases this

theorem Family.create (hle : 2 ≤ t.index) (hcond : t.cond ≠ .idle) :
    Family { t with pc := .runLargest } fun d => some (.new (t.index - d.less)) where
  single hpc := by rcases hpc with hpc | hpc <;> cases hpc
  leaf hlt := absurd hle (Nat.not_le.mpr hlt)
  both _ _ _ _ := rfl
  index d u hu := by
    cases hu
    rfl
  value hend := by simp at hend
  unrun d _ u hu := by
    cases hu
    rfl
  largest hin := by rcases hin with hin | ⟨n, hin⟩ <;> simp at hin
  smallest hin := by rcases hin with hin | ⟨n, hin⟩ <;> cases hin
  sum n hin := by cases hin
  pending hin := by cases hin
  idle hidle := absurd hidle hcond

theorem Family.new (n : ℕ) (h : ∀ d, child d = none) : Family (.new n) child where
  single _ := h
  leaf _ := by simp [Task.new]
  both _ hc _ := absurd rfl hc
  index d u hu := by simp [h] at hu
  value hend := by simp [Task.new] at hend
  unrun d hw := by rcases hw with hw | ⟨hw, -⟩ <;> cases hw
  largest hin := by rcases hin with hin | ⟨n, hin⟩ <;> simp [Task.new] at hin
  smallest hin := by rcases hin with hin | ⟨n, hin⟩ <;> cases hin
  sum n hin := by cases hin
  pending hin := by cases hin
  idle hidle := by cases hidle

end Subtask

section Step
variable {n : ℕ} {σ τ : Tree} {p : Path} {t : Task}

theorem Inv.advance {t' : Task} (h : Inv n σ) (ht : σ p = some t) (hindex : t'.index = t.index)
    (hcreated : t.pc ≠ .created) (hfin : t.finished = true → t'.finished = true)
    (hsignal : t'.pc ≠ .signalled) (hown : Family t' fun d => σ (d :: p)) : Inv n (σ.set p t') := by
  refine h.set ht hindex hown ?_
  rintro d q u rfl hu
  have hfam := h.family q u hu
  exact hfam.subtask ht hindex hfin (fun hw => hcreated (hfam.unrun d hw t ht))
    (.inl fun hpc => absurd hpc hsignal)

/-- A subtask that has not finished owes its signal. -/
theorem owed_of_not_finished {child : Sub → Option Task} {d : Sub} {u : Task}
    (hu : child d = some u) (hfin : u.finished = false) : Owed child := by
  refine ⟨d, u, hu, fun hpc => ?_⟩
  simp [Task.finished, hpc] at hfin

theorem Inv.within {pc : Pc} {cond : Condition} (h : Inv n σ) (ht : σ p = some t)
    (hold : t.pc.Inside) (hnew : pc.Inside) (hrun : pc ≠ .runLargest ∧ pc ≠ .runSmallest)
    (largest : pc ∈ [.testSmallest, .readLargest] ∨ (∃ n, pc = .readSmallest n) →
      ∀ u, σ (.largest :: p) = some u → u.finished)
    (smallest : pc = .readLargest ∨ (∃ n, pc = .readSmallest n) →
      ∀ u, σ (.smallest :: p) = some u → u.finished)
    (sum : ∀ n, pc = .readSmallest n → n = fibonacci (t.index - 1))
    (pending : pc = .callWait → cond = .skipWait ∨ Owed fun d => σ (d :: p))
    (idle : cond = .idle → pc = .testLargest ∧ Owed fun d => σ (d :: p)) :
    Inv n (σ.set p { t with pc, cond }) := by
  refine h.advance ht rfl (fun hc => hold (by simp [hc])) (fun hfin => ?_) ?_
    ((h.family p t ht).within hold hnew ?_ largest smallest sum pending idle)
  · rcases Task.finished_iff.mp hfin with hpc | hpc <;> exact absurd (by simp [hpc]) hold
  · rintro rfl
    simp [Pc.Inside] at hnew
  · rintro d (hw | ⟨hw, -⟩)
    · exact absurd hw hrun.1
    · exact absurd hw hrun.2

/-- The tree behind the creation of the two subtasks, place by place. -/
structure Creates (σ τ : Tree) (p : Path) (t : Task) : Prop where
  self : τ p = some { t with pc := .runLargest }
  child : ∀ d, τ (d :: p) = some (.new (t.index - d.less))
  other : ∀ q, q ≠ p → (∀ d, q ≠ d :: p) → τ q = σ q

theorem creates_set (σ : Tree) (p : Path) (t : Task) :
    Creates σ (((σ.set p { t with pc := .runLargest }).set (.largest :: p)
      (.new (t.index - 1))).set (.smallest :: p) (.new (t.index - 2))) p t where
  self := by rw [Tree.set_above, Tree.set_above, Tree.set_self]
  child := by
    rintro (_ | _)
    · rw [Tree.set_of_ne (by simp), Tree.set_self]
      rfl
    · rw [Tree.set_self]
      rfl
  other q hq hd := by rw [Tree.set_of_ne (hd _), Tree.set_of_ne (hd _), Tree.set_of_ne hq]

section Place
variable {u : Task} (h : Inv n σ) (ht : σ p = some t) (hcond : t.cond ≠ .idle)
include h ht hcond

theorem Inv.testLargest (hpc : t.pc = .testLargest) (hu : σ (.largest :: p) = some u) :
    Inv n (σ.set p { t with pc := if u.finished then .testSmallest else .callWait }) := by
  have hold : t.pc.Inside := by simp [Pc.Inside, hpc]
  cases hfin : u.finished with
  | false =>
      exact h.within ht hold (by simp [Pc.Inside]) (by simp) (by simp) (by simp) (by simp)
        (fun _ => .inr (owed_of_not_finished hu hfin)) (fun hidle => absurd hidle hcond)
  | true =>
      refine h.within ht hold (by simp [Pc.Inside]) (by simp) (fun _ v hv => ?_) (by simp) (by simp)
        (by simp) (fun hidle => absurd hidle hcond)
      rw [hu] at hv
      cases hv
      exact hfin

theorem Inv.testSmallest (hpc : t.pc = .testSmallest) (hu : σ (.smallest :: p) = some u) :
    Inv n (σ.set p { t with pc := if u.finished then .readLargest else .callWait }) := by
  have hold : t.pc.Inside := by simp [Pc.Inside, hpc]
  cases hfin : u.finished with
  | false =>
      exact h.within ht hold (by simp [Pc.Inside]) (by simp) (by simp) (by simp) (by simp)
        (fun _ => .inr (owed_of_not_finished hu hfin)) (fun hidle => absurd hidle hcond)
  | true =>
      have hlargest := (h.family p t ht).largest (by simp [hpc])
      refine h.within ht hold (by simp [Pc.Inside]) (by simp) (fun _ => hlargest) (fun _ v hv => ?_)
        (by simp) (by simp) (fun hidle => absurd hidle hcond)
      rw [hu] at hv
      cases hv
      exact hfin

omit hcond in
/-- `wait` makes the task idle only if no signal came since its tests. -/
theorem Inv.callWait {cond : Condition} (hpc : t.pc = .callWait) (hwait : t.cond.wait = some cond) :
    Inv n (σ.set p { t with pc := .testLargest, cond }) := by
  refine h.within ht (by simp [Pc.Inside, hpc]) (by simp [Pc.Inside]) (by simp) (by simp) (by simp)
    (by simp) (by simp) ?_
  rintro rfl
  have hrunning := Condition.wait_eq_idle hwait
  refine ⟨rfl, ((h.family p t ht).pending hpc).resolve_left fun hskip => ?_⟩
  rw [hrunning] at hskip
  cases hskip

theorem Inv.readLargest (hpc : t.pc = .readLargest) (hu : σ (.largest :: p) = some u) :
    Inv n (σ.set p { t with pc := .readSmallest u.value }) := by
  have hfam := h.family p t ht
  have hlargest := hfam.largest (by simp [hpc])
  have hvalue : u.value = fibonacci u.index := by
    refine (h.family _ u hu).value ?_
    rcases Task.finished_iff.mp (hlargest u hu) with hf | hf <;> simp [hf]
  refine h.within ht (by simp [Pc.Inside, hpc]) (by simp [Pc.Inside]) (by simp) (fun _ => hlargest)
    (fun _ => hfam.smallest (.inl hpc)) ?_ (by simp) (fun hidle => absurd hidle hcond)
  rintro m ⟨⟩
  rw [hvalue, hfam.index .largest u hu]
  rfl

theorem Inv.readSmallest {sum : ℤ} (hpc : t.pc = .readSmallest sum) (hu : σ (.smallest :: p) = some u) :
    Inv n (σ.set p { t with value := sum + u.value, pc := .done }) := by
  have hfam := h.family p t ht
  have hold : t.pc.Inside := by simp [Pc.Inside, hpc]
  have hvalue : u.value = fibonacci u.index := by
    refine (h.family _ u hu).value ?_
    rcases Task.finished_iff.mp (hfam.smallest (.inr ⟨sum, hpc⟩) u hu) with hf | hf <;> simp [hf]
  refine h.advance ht rfl (by simp [hpc]) (fun hfin => ?_) (by simp) (hfam.ends (.inr ?_) (by simp) hcond ?_)
  · simp [Task.finished, hpc] at hfin
  · simp [hpc]
  · rw [fibonacci_of_le (hfam.two_le hold), hfam.sum sum hpc, hvalue, hfam.index .smallest u hu]
    rfl

theorem Inv.done (hpc : t.pc = .done) : Inv n (σ.set p { t with pc := .finishing }) := by
  have hfam := h.family p t ht
  exact h.advance ht rfl (by simp [hpc]) (fun _ => by simp [Task.finished]) (by simp)
    (hfam.ends (.inr (by simp [hpc])) (by simp) hcond (hfam.value (by simp [hpc])))

theorem Inv.leaf (hpc : t.pc = .start) (hlt : t.index < 2) :
    Inv n (σ.set p { t with value := 1, pc := .done }) := by
  refine h.advance ht rfl (by simp [hpc]) (fun hfin => ?_) (by simp)
    ((h.family p t ht).ends (.inl hlt) (by simp) hcond (fibonacci_of_lt hlt).symm)
  simp [Task.finished, hpc] at hfin

omit hcond in
/-- A signal to the task. -/
theorem Inv.signalled (hpc : t.pc ≠ .created) : Inv n (σ.set p { t with cond := t.cond.signal }) := by
  have hfam := h.family p t ht
  refine h.set ht rfl ?_ ?_
  · exact { hfam with
      pending := fun hwait => .inl (hfam.skips hwait)
      idle := fun hidle => absurd hidle (Condition.signal_ne_idle _) }
  · rintro d q u rfl hu
    have hfam' := h.family q u hu
    exact hfam'.subtask ht rfl (fun hfin => hfin) (fun hw => hpc (hfam'.unrun d hw t ht)) (.inl id)

theorem Inv.run {d : Sub} {next : Pc} (hu : σ (d :: p) = some u)
    (hpc : (t.pc = .runLargest ∧ d = .largest ∧ next = .runSmallest) ∨
      (t.pc = .runSmallest ∧ d = .smallest ∧ next = .testLargest)) :
    Inv n ((σ.set p { t with pc := next }).set (d :: p) { u with pc := .start }) := by
  have hfam := h.family p t ht
  have hcreated : u.pc = .created := by
    refine hfam.unrun d ?_ u hu
    rcases hpc with ⟨hpc, -⟩ | ⟨hpc, rfl, -⟩
    · exact .inl hpc
    · exact .inr ⟨hpc, rfl⟩
  have hgone : Inv n (σ.set p { t with pc := next }) := by
    refine h.advance ht rfl ?_ (fun hfin => ?_) ?_ (hfam.within ?_ ?_ ?_ ?_ ?_ ?_ ?_
      (fun hidle => absurd hidle hcond))
    · rcases hpc with ⟨hpc, -⟩ | ⟨hpc, -⟩ <;> simp [hpc]
    · rcases hpc with ⟨hpc, -⟩ | ⟨hpc, -⟩ <;> simp [Task.finished, hpc] at hfin
    · rcases hpc with ⟨-, -, rfl⟩ | ⟨-, -, rfl⟩ <;> simp
    · rcases hpc with ⟨hpc, -⟩ | ⟨hpc, -⟩ <;> simp [Pc.Inside, hpc]
    · rcases hpc with ⟨-, -, rfl⟩ | ⟨-, -, rfl⟩ <;> simp [Pc.Inside]
    · rcases hpc with ⟨hpc, -, rfl⟩ | ⟨-, -, rfl⟩ <;> simp [Task.Awaits, *]
    all_goals rcases hpc with ⟨-, -, rfl⟩ | ⟨-, -, rfl⟩ <;> simp
  have hu' : (σ.set p { t with pc := next }) (d :: p) = some u := Tree.set_below.trans hu
  refine hgone.set hu' rfl ((hgone.family _ u hu').run hcreated) ?_
  rintro e q v ⟨⟩ hv
  rw [Tree.set_self] at hv
  cases hv
  refine (hgone.family _ _ Tree.set_self).subtask hu' rfl (fun hfin => ?_) ?_ (.inl (by simp))
  · simp [Task.finished, hcreated] at hfin
  · rcases hpc with ⟨-, rfl, rfl⟩ | ⟨-, rfl, rfl⟩ <;> simp [Task.Awaits]

omit hcond in
/-- Only the parent of the task sees a change outside of the family: that of its place. -/
theorem Inv.create_outside {q : Path} (hτ : Creates σ τ p t) (hpc : t.pc = .start) (hq : q ≠ p)
    (hu : σ q = some u) : Family u fun d => τ (d :: q) := by
  have hfam := h.family q u hu
  have hsame : ∀ e, e :: q ≠ p → τ (e :: q) = σ (e :: q) := fun e he =>
    hτ.other _ he (by simp [hq])
  by_cases hp : ∃ d, d :: q = p
  · obtain ⟨d, rfl⟩ := hp
    have hsub : (fun e => τ (e :: q)) =
        Function.update (fun e => σ (e :: q)) d (some { t with pc := .runLargest }) := by
      funext e
      by_cases he : e = d
      · subst he
        rw [Function.update_self, hτ.self]
      · rw [Function.update_of_ne he, hsame e (by simp [he])]
    rw [hsub]
    refine hfam.subtask ht rfl (fun hfin => ?_) (fun hw => ?_) (.inl (by simp))
    · simp [Task.finished, hpc] at hfin
    · have hcreated := hfam.unrun d hw t ht
      rw [hpc] at hcreated
      cases hcreated
  · have hsub : (fun e => τ (e :: q)) = fun e => σ (e :: q) :=
      funext fun e => hsame e fun he => hp ⟨e, he⟩
    rw [hsub]
    exact hfam

omit hcond in
theorem Inv.create_rooted {q : Path} (hτ : Creates σ τ p t) (hq : τ q = none) (d : Sub) :
    τ (d :: q) = none := by
  have hqp : q ≠ p := by
    rintro rfl
    rw [hτ.self] at hq
    cases hq
  have hqd : ∀ e, q ≠ e :: p := by
    rintro e rfl
    rw [hτ.child] at hq
    cases hq
  have hσ : σ (d :: q) = none := h.rooted q d ((hτ.other q hqp hqd).symm.trans hq)
  rw [hτ.other _ ?_ (by simp [hqp]), hσ]
  rintro rfl
  rw [ht] at hσ
  cases hσ

theorem Inv.create (hpc : t.pc = .start) (hle : 2 ≤ t.index) :
    Inv n (((σ.set p { t with pc := .runLargest }).set (.largest :: p)
      (.new (t.index - 1))).set (.smallest :: p) (.new (t.index - 2))) := by
  have hnone : ∀ d, σ (d :: p) = none := (h.family p t ht).single (.inr hpc)
  have hτ := creates_set σ p t
  refine ⟨fun q u hu => ?_, fun q d hq => h.create_rooted ht hτ hq d, ?_⟩
  · by_cases hq : q = p
    · subst hq
      rw [hτ.self] at hu
      cases hu
      simpa only [hτ.child] using Family.create hle hcond
    · by_cases hd : ∃ d, q = d :: p
      · obtain ⟨d, rfl⟩ := hd
        rw [hτ.child] at hu
        cases hu
        refine Family.new _ fun e => ?_
        rw [hτ.other _ (cons_cons_ne_self e d p) (by simp)]
        exact h.rooted _ e (hnone d)
      · have hu' := (hτ.other q hq fun d he => hd ⟨d, he⟩).symm.trans hu
        exact h.create_outside ht hτ hpc hq hu'
  · obtain ⟨u, hu, hn⟩ := h.root
    by_cases hp : [] = p
    · subst hp
      rw [ht] at hu
      cases hu
      exact ⟨_, hτ.self, hn⟩
    · exact ⟨u, (hτ.other [] hp (by simp)).trans hu, hn⟩

theorem Inv.signal (hpc : t.pc = .finishing) :
    Inv n ((σ.signalParent p).set p { t with pc := .signalled }) := by
  have hfam := h.family p t ht
  have hown : Family { t with pc := .signalled } fun d => σ (d :: p) :=
    hfam.ends (.inr (by simp [hpc])) (by simp) hcond (hfam.value (by simp [hpc]))
  cases p with
  | nil => exact h.set ht rfl hown (by simp)
  | cons d q =>
      obtain ⟨u, hu⟩ : ∃ u, σ q = some u := by
        cases hq : σ q with
        | none =>
            rw [h.rooted q d hq] at ht
            cases ht
        | some u => exact ⟨u, rfl⟩
      have hold : u.pc ≠ .created := by
        intro hc
        have := (h.family q u hu).single (.inl hc) d
        rw [ht] at this
        cases this
      have hparent := h.signalled hu hold
      have ht' : (σ.set q { u with cond := u.cond.signal }) (d :: q) = some t :=
        Tree.set_below.trans ht
      have hsignal : σ.signalParent (d :: q) = σ.set q { u with cond := u.cond.signal } := by
        simp only [Tree.signalParent, hu]
      rw [hsignal]
      refine hparent.set ht' rfl ?_ ?_
      · rwa [Tree.set_subtasks fun e => cons_cons_ne_self e d q]
      · rintro e r v ⟨⟩ hv
        rw [Tree.set_self] at hv
        cases hv
        have hfam' := hparent.family _ _ Tree.set_self
        refine hfam'.subtask ht' rfl (fun _ => by simp [Task.finished]) (fun hw => ?_)
          (.inr ⟨Condition.signal_ne_idle _, fun hwait => (h.family q u hu).skips hwait⟩)
        have := hfam'.unrun d hw t ht'
        rw [hpc] at this
        cases this

end Place

theorem multiplexImpl_inv (h : Inv n σ) (ht : σ p = some t) (hcond : t.cond ≠ .idle)
    (hs : multiplexImpl σ p t = some τ) : Inv n τ := by
  cases hpc : t.pc with
  | created | signalled => simp [multiplexImpl, hpc] at hs
  | start =>
      simp only [multiplexImpl, hpc] at hs
      split_ifs at hs with hlt
      · cases hs
        exact h.leaf ht hcond hpc hlt
      · cases hs
        exact h.create ht hcond hpc (Nat.not_lt.mp hlt)
  | runLargest =>
      simp only [multiplexImpl, hpc] at hs
      obtain ⟨u, hu, rfl⟩ := Option.map_eq_some_iff.mp hs
      exact h.run ht hcond hu (.inl ⟨hpc, rfl, rfl⟩)
  | runSmallest =>
      simp only [multiplexImpl, hpc] at hs
      obtain ⟨u, hu, rfl⟩ := Option.map_eq_some_iff.mp hs
      exact h.run ht hcond hu (.inr ⟨hpc, rfl, rfl⟩)
  | testLargest =>
      simp only [multiplexImpl, hpc] at hs
      obtain ⟨u, hu, rfl⟩ := Option.map_eq_some_iff.mp hs
      exact h.testLargest ht hcond hpc hu
  | testSmallest =>
      simp only [multiplexImpl, hpc] at hs
      obtain ⟨u, hu, rfl⟩ := Option.map_eq_some_iff.mp hs
      exact h.testSmallest ht hcond hpc hu
  | callWait =>
      simp only [multiplexImpl, hpc] at hs
      obtain ⟨cond, hwait, rfl⟩ := Option.map_eq_some_iff.mp hs
      exact h.callWait ht hpc hwait
  | readLargest =>
      simp only [multiplexImpl, hpc] at hs
      obtain ⟨u, hu, rfl⟩ := Option.map_eq_some_iff.mp hs
      exact h.readLargest ht hcond hpc hu
  | readSmallest sum =>
      simp only [multiplexImpl, hpc] at hs
      obtain ⟨u, hu, rfl⟩ := Option.map_eq_some_iff.mp hs
      exact h.readSmallest ht hcond hpc hu
  | done =>
      simp only [multiplexImpl, hpc] at hs
      cases hs
      exact h.done ht hcond hpc
  | finishing =>
      simp only [multiplexImpl, hpc] at hs
      cases hs
      exact h.signal ht hcond hpc

theorem step_inv (h : Inv n σ) (hs : step σ p = some τ) : Inv n τ := by
  obtain ⟨t, ht, hs⟩ := Option.bind_eq_some_iff.mp hs
  split_ifs at hs with hcond
  exact multiplexImpl_inv h ht hcond hs

theorem inv_initial (n : ℕ) : Inv n (initial n) where
  family p t ht := by
    by_cases hp : p = []
    · subst hp
      rw [initial, Tree.set_self] at ht
      cases ht
      exact (Family.new n fun d => Tree.set_below).run rfl
    · rw [initial, Tree.set_of_ne hp] at ht
      cases ht
  rooted p d _ := Tree.set_of_ne (List.cons_ne_nil d p)
  root := ⟨_, Tree.set_self, rfl⟩

end Step

/-- Under every schedule of the tasks below the root with index `n`, a finished
task has its Fibonacci number, and no task stays idle once both of its subtasks
have given their signals. -/
theorem fibonacci_tasks {n : ℕ} {schedule : List Path} {σ : Tree}
    (hr : run step (initial n) schedule = some σ) :
    (∃ t, σ [] = some t ∧ t.index = n) ∧
    (∀ p t, σ p = some t → t.finished = true → t.value = fibonacci t.index) ∧
    ∀ p t, σ p = some t → t.cond = .idle →
      ¬ ∀ d, ∃ u, σ (d :: p) = some u ∧ u.finished = true ∧ u.pc = .signalled := by
  have h : Inv n σ := invariant (fun _ _ _ h hs => step_inv h hs) (inv_initial n) hr
  refine ⟨h.root, fun p t ht hfin => (h.family p t ht).value ?_, fun p t ht hidle hall => ?_⟩
  · rcases Task.finished_iff.mp hfin with hpc | hpc <;> simp [hpc]
  · obtain ⟨-, d, u, hu, hne⟩ := (h.family p t ht).idle hidle
    obtain ⟨v, hv, -, hsignalled⟩ := hall d
    obtain rfl : u = v := Option.some.inj (hu.symm.trans hv)
    exact hne hsignalled

/-- The larger subtask signals a root that is still running, and the smaller one
wakes it up. -/
theorem fibonacci_tasks_two :
    ∃ σ t, run step (initial 2)
        [[], [], [], [.largest], [.largest], [.largest], [], [], [], [], [], [], [.smallest],
          [.smallest], [.smallest], [], [], [], [], []] = some σ ∧
      σ [] = some t ∧ t.finished = true ∧ t.value = 2 := by
  have hend : (run step (initial 2)
      [[], [], [], [.largest], [.largest], [.largest], [], [], [], [], [], [], [.smallest],
        [.smallest], [.smallest], [], [], [], [], []]).any
      (fun σ => (σ []).any Task.finished) = true := by decide
  obtain ⟨σ, hr, hroot⟩ := Option.any_eq_true .. |>.mp hend
  obtain ⟨t, ht, hfin⟩ := Option.any_eq_true .. |>.mp hroot
  obtain ⟨⟨u, hu, hindex⟩, hvalue, -⟩ := fibonacci_tasks hr
  obtain rfl : t = u := Option.some.inj (ht.symm.trans hu)
  refine ⟨σ, t, hr, ht, hfin, ?_⟩
  rw [hvalue [] t ht hfin, hindex]
  rfl

end FibonacciTasks
