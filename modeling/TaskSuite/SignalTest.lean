import TaskSuite.Machine
import TaskSuite.Tally
import Mathlib.Tactic.FinCases

/-! The signal handlers and the worker threads of `signal_test.cxx`, one label
for each atomic operation. The handlers run at any time, on any thread and on
top of each other, so their invocations are only counted by how far they are. -/
namespace SignalTest
open Machine Tally

inductive Sig where
  | sig34
  | sig35
  deriving DecidableEq, Repr

def Sig.ofNr (nr : Int) : Sig := if nr = 34 then .sig34 else .sig35

/-- Where a worker is inside `while (running)`. The value of `cnt` is kept
between the load and the exchange. -/
inductive Pc where
  | load (g : Sig)
  | exchange (g : Sig) (cnt : Int)
  | wasHere (g : Sig)
  | semWait
  deriving DecidableEq, Repr

/-- Where a worker goes when the counter of `g` is drained. -/
def Pc.drained : Sig → Pc
  | .sig34 => .load .sig35
  | .sig35 => .semWait

structure State (ι : Type*) where
  count : Sig → Int
  wasHere : Sig → Int
  tasks : Nat
  pc : ι → Pc
  /-- Invocations of the handler before its `fetch_add`. -/
  entered : Sig → Nat
  /-- Invocations between `fetch_add` and `sem_post`. -/
  counted : Sig → Nat
  completed : Sig → Nat

variable {ι : Type*}

def initial : State ι where
  count _ := 0
  wasHere _ := 0
  tasks := 0
  pc _ := .load .sig34
  entered _ := 0
  counted _ := 0
  completed _ := 0

inductive Label (ι : Type*) where
  /-- The next operation of a worker. `early` makes compare_exchange_weak fail
  spuriously and lets sem_wait return on an interruption. -/
  | worker (i : ι) (early : Bool)
  | enter (nr : Int)
  | fetchAdd (g : Sig)
  | semPost (g : Sig)
  deriving DecidableEq, Repr

variable [DecidableEq ι]

/-- `none` for a worker that blocks in sem_wait. -/
def workerStep (s : State ι) (i : ι) (early : Bool) : Option (State ι) :=
  match s.pc i with
  | .load g =>
      some { s with pc := Function.update s.pc i
                      (if s.count g > 0 then .exchange g (s.count g) else .drained g) }
  | .exchange g cnt =>
      if early = false ∧ s.count g = cnt then
        some { s with count := Function.update s.count g (cnt - 1)
                      pc := Function.update s.pc i (.wasHere g) }
      else some { s with pc := Function.update s.pc i (.load g) }
  | .wasHere g =>
      some { s with wasHere := Function.update s.wasHere g (s.wasHere g + 1)
                    pc := Function.update s.pc i (.load g) }
  | .semWait =>
      if early then some { s with pc := Function.update s.pc i (.load .sig34) }
      else if 0 < s.tasks then
        some { s with tasks := s.tasks - 1, pc := Function.update s.pc i (.load .sig34) }
      else none

def step (s : State ι) : Label ι → Option (State ι)
  | .worker i early => workerStep s i early
  | .enter nr =>
      some { s with entered := Function.update s.entered (.ofNr nr) (s.entered (.ofNr nr) + 1) }
  | .fetchAdd g =>
      if 0 < s.entered g then
        some { s with count := Function.update s.count g (s.count g + 1)
                      entered := Function.update s.entered g (s.entered g - 1)
                      counted := Function.update s.counted g (s.counted g + 1) }
      else none
  | .semPost g =>
      if 0 < s.counted g then
        some { s with tasks := s.tasks + 1
                      counted := Function.update s.counted g (s.counted g - 1)
                      completed := Function.update s.completed g (s.completed g + 1) }
      else none

/-- Before it can block, a worker at this place still loads the counter of `g`. -/
def Pc.willLoad (g : Sig) : Pc → Prop
  | .load h | .exchange h _ | .wasHere h => h = g ∨ h = .sig34
  | .semWait => False

/-- A decrement that is not yet reported in `was_here`. -/
def Pc.owes (g : Sig) : Pc → ℤ
  | .wasHere h => if h = g then 1 else 0
  | _ => 0

/-- Someone will look at a counter that is not zero: a post is or will be there
to be taken, or a worker is on its way to load it. -/
def Noticed (s : State ι) (g : Sig) : Prop :=
  s.count g = 0 ∨ 0 < s.tasks ∨ 0 < s.counted g ∨ ∃ i, (s.pc i).willLoad g

structure Inv [Fintype ι] (s : State ι) : Prop where
  nonneg : ∀ g, 0 ≤ s.count g
  loaded : ∀ i g cnt, s.pc i = .exchange g cnt → 0 < cnt
  balance : ∀ g, s.count g + tally (Pc.owes g) s.pc + s.wasHere g = s.counted g + s.completed g
  noticed : ∀ g, Noticed s g

omit [DecidableEq ι] in
theorem inv_initial [Fintype ι] : Inv (initial : State ι) where
  nonneg _ := le_rfl
  loaded _ _ _ h := by cases h
  balance g := by
    rw [show tally (Pc.owes g) (initial : State ι).pc = 0 from tally_const _ _ rfl]
    rfl
  noticed _ := .inl rfl

/-- A worker that moves keeps someone on the way to the counter of `g`, unless
it was the one and left. -/
theorem willLoad_update {pc : ι → Pc} {g : Sig} {i : ι} {p : Pc}
    (h : ∃ k, (pc k).willLoad g) (hp : (pc i).willLoad g → p.willLoad g) :
    ∃ k, (Function.update pc i p k).willLoad g := by
  obtain ⟨k, hk⟩ := h
  by_cases hki : k = i
  · subst hki
    exact ⟨k, by rw [Function.update_self]; exact hp hk⟩
  · exact ⟨k, by rw [Function.update_of_ne hki]; exact hk⟩

theorem loaded_update {pc : ι → Pc} {i : ι} {p : Pc}
    (h : ∀ k g cnt, pc k = .exchange g cnt → 0 < cnt)
    (hp : ∀ g cnt, p = .exchange g cnt → 0 < cnt) :
    ∀ k g cnt, Function.update pc i p k = .exchange g cnt → 0 < cnt := by
  intro k g cnt hk
  by_cases hki : k = i
  · subst hki
    rw [Function.update_self] at hk
    exact hp g cnt hk
  · rw [Function.update_of_ne hki] at hk
    exact h k g cnt hk

section Steps
variable [Fintype ι] {s t : State ι} {i : ι} (h : Inv s)
include h

/-- A load that sees zero lets its worker pass on; any other load holds it here. -/
theorem load_inv {g : Sig} (hpc : s.pc i = .load g) :
    Inv { s with pc := Function.update s.pc i
                  (if s.count g > 0 then .exchange g (s.count g) else .drained g) } where
  nonneg := h.nonneg
  loaded := by
    apply loaded_update h.loaded
    intro k cnt hk
    split_ifs at hk with hc
    · cases hk; exact hc
    · cases g <;> cases hk
  balance k := by
    rw [tally_update, hpc]
    have howes : Pc.owes k (if s.count g > 0 then .exchange g (s.count g) else .drained g) = 0 := by
      split_ifs
      · rfl
      · cases g <;> rfl
    rw [howes]
    simpa [Pc.owes] using h.balance k
  noticed k := by
    by_cases hc : s.count g > 0
    · rcases h.noticed k with hz | ht | hq | hw
      · exact .inl hz
      · exact .inr (.inl ht)
      · exact .inr (.inr (.inl hq))
      · refine .inr (.inr (.inr (willLoad_update hw ?_)))
        intro hwill
        rw [hpc] at hwill
        rw [if_pos hc]
        exact hwill
    · -- The counter of `g` is zero, so leaving its loop loses nothing.
      have hz : s.count g = 0 := le_antisymm (not_lt.mp hc) (h.nonneg g)
      by_cases hkg : k = g
      · subst hkg; exact .inl hz
      · rcases h.noticed k with hz' | ht | hq | hw
        · exact .inl hz'
        · exact .inr (.inl ht)
        · exact .inr (.inr (.inl hq))
        · refine .inr (.inr (.inr (willLoad_update hw ?_)))
          intro hwill
          rw [hpc] at hwill
          cases g <;> cases k <;> simp_all [Pc.willLoad, Pc.drained]

theorem exchange_inv {g : Sig} {cnt : Int} (hpc : s.pc i = .exchange g cnt)
    (hc : s.count g = cnt) :
    Inv { s with count := Function.update s.count g (cnt - 1)
                 pc := Function.update s.pc i (.wasHere g) } where
  nonneg k := by
    have hpos := h.loaded i g cnt hpc
    by_cases hkg : k = g
    · subst hkg
      simp only [Function.update_self]
      omega
    · simpa only [Function.update_of_ne hkg] using h.nonneg k
  loaded := loaded_update h.loaded fun _ _ hk => by cases hk
  balance k := by
    have hbal := h.balance k
    dsimp only
    rw [tally_update, hpc]
    by_cases hkg : k = g
    · subst hkg
      simp only [Function.update_self, Pc.owes, if_true]
      omega
    · simp only [Function.update_of_ne hkg, Pc.owes, if_neg (Ne.symm hkg)]
      omega
  noticed k := by
    by_cases hkg : k = g
    · subst hkg
      exact .inr (.inr (.inr ⟨i, by simp [Pc.willLoad]⟩))
    · rcases h.noticed k with hz | ht | hq | hw
      · exact .inl (by simpa only [Function.update_of_ne hkg] using hz)
      · exact .inr (.inl ht)
      · exact .inr (.inr (.inl hq))
      · refine .inr (.inr (.inr (willLoad_update hw ?_)))
        rw [hpc]
        exact id

theorem reload_inv {g : Sig} {d : Int} (hg : ∀ k, (s.pc i).willLoad k → (Pc.load g).willLoad k)
    (howes : ∀ k, (s.pc i).owes k = if k = g then d else 0) :
    Inv { s with wasHere := Function.update s.wasHere g (s.wasHere g + d)
                 pc := Function.update s.pc i (.load g) } where
  nonneg := h.nonneg
  loaded := loaded_update h.loaded fun _ _ hk => by cases hk
  balance k := by
    have hbal := h.balance k
    dsimp only
    rw [tally_update, howes]
    by_cases hkg : k = g
    · subst hkg
      simp only [Function.update_self, Pc.owes, if_true]
      omega
    · simp only [Function.update_of_ne hkg, Pc.owes, if_neg hkg]
      omega
  noticed k := by
    rcases h.noticed k with hz | ht | hq | hw
    · exact .inl hz
    · exact .inr (.inl ht)
    · exact .inr (.inr (.inl hq))
    · exact .inr (.inr (.inr (willLoad_update hw (hg k))))

theorem wakeup_inv (hpc : s.pc i = .semWait) (n : Nat) :
    Inv { s with tasks := n, pc := Function.update s.pc i (.load .sig34) } where
  nonneg := h.nonneg
  loaded := loaded_update h.loaded fun _ _ hk => by cases hk
  balance k := by
    have hbal := h.balance k
    dsimp only
    rw [tally_update, hpc]
    simpa [Pc.owes] using hbal
  noticed k := .inr (.inr (.inr ⟨i, by simp [Pc.willLoad]⟩))

theorem workerStep_inv {early : Bool} (hs : workerStep s i early = some t) : Inv t := by
  unfold workerStep at hs
  cases hpc : s.pc i with
  | load g =>
      simp only [hpc, Option.some.injEq] at hs
      subst hs
      exact load_inv h hpc
  | exchange g cnt =>
      simp only [hpc] at hs
      split at hs
      next hc =>
        cases hs
        exact exchange_inv h hpc hc.2
      next hc =>
        cases hs
        have hback := reload_inv h (i := i) (g := g) (d := 0) (by rw [hpc]; exact fun _ => id)
          (by rw [hpc]; intro k; simp [Pc.owes])
        simpa only [add_zero, Function.update_eq_self] using hback
  | wasHere g =>
      simp only [hpc, Option.some.injEq] at hs
      subst hs
      refine reload_inv h (by rw [hpc]; exact fun _ => id) ?_
      rw [hpc]
      intro k
      simp only [Pc.owes, eq_comm]
  | semWait =>
      simp only [hpc] at hs
      split_ifs at hs
      · cases hs
        exact wakeup_inv h hpc s.tasks
      · cases hs
        exact wakeup_inv h hpc _

theorem step_inv {l : Label ι} (hs : step s l = some t) : Inv t := by
  cases l with
  | worker i early => exact workerStep_inv h hs
  | enter nr =>
      cases hs
      exact ⟨h.nonneg, h.loaded, h.balance, h.noticed⟩
  | fetchAdd g =>
      simp only [step] at hs
      split at hs
      next hent =>
        cases hs
        refine ⟨?_, h.loaded, ?_, ?_⟩ <;> intro k <;> by_cases hkg : k = g
        · subst hkg
          have hn := h.nonneg k
          simp only [Function.update_self]
          omega
        · simpa only [Function.update_of_ne hkg] using h.nonneg k
        · subst hkg
          have hbal := h.balance k
          simp only [Function.update_self, Nat.cast_add, Nat.cast_one]
          omega
        · simpa only [Function.update_of_ne hkg] using h.balance k
        · subst hkg
          exact .inr (.inr (.inl (by simp)))
        · simpa only [Noticed, Function.update_of_ne hkg] using h.noticed k
      next hnone => cases hs
  | semPost g =>
      simp only [step] at hs
      split at hs
      next hcnt =>
        cases hs
        refine ⟨h.nonneg, h.loaded, ?_, fun k => .inr (.inl (Nat.succ_pos _))⟩
        intro k
        by_cases hkg : k = g
        · subst hkg
          have hbal := h.balance k
          simp only [Function.update_self]
          omega
        · simpa only [Function.update_of_ne hkg] using h.balance k
      next hnone => cases hs

end Steps

/-- When all workers sleep on a semaphore that is zero and no handler is under
way, both counters are drained and every invocation has been reported. -/
theorem no_signal_lost [Fintype ι] (acts : List (Label ι)) (s : State ι)
    (hr : run step initial acts = some s) (hsleep : ∀ i, s.pc i = .semWait)
    (htasks : s.tasks = 0) (hidle : ∀ g, s.entered g = 0 ∧ s.counted g = 0) :
    ∀ g, s.count g = 0 ∧ s.wasHere g = s.completed g := by
  have h : Inv s := invariant (fun _ _ _ h hs => step_inv h hs) inv_initial hr
  intro g
  have hz : s.count g = 0 := by
    rcases h.noticed g with hz | ht | hq | ⟨i, hw⟩
    · exact hz
    · omega
    · have := (hidle g).2
      omega
    · rw [hsleep i] at hw
      exact hw.elim
  have hnone : tally (Pc.owes g) s.pc = 0 :=
    Finset.sum_eq_zero fun i _ => by rw [hsleep i]; rfl
  have hbal := h.balance g
  have hq := (hidle g).2
  refine ⟨hz, ?_⟩
  omega

/-- Worker 0 passes its test of `count34` just before both handlers strike. The
first post wakes up worker 1, which drains both counters. -/
def missedIncrement : List (Label (Fin 2)) :=
  [.worker 1 false, .worker 1 false, .worker 0 false, .enter 34, .fetchAdd .sig34,
    .enter 35, .fetchAdd .sig35, .semPost .sig35, .worker 1 false, .worker 1 false,
    .worker 1 true, .worker 1 false, .worker 1 false, .worker 1 false, .worker 1 false,
    .worker 1 false, .worker 1 false, .worker 1 false, .worker 1 false, .worker 0 false,
    .semPost .sig34, .worker 0 false, .worker 0 false, .worker 0 false]

theorem no_signal_lost_missedIncrement :
    ∃ s, run step initial missedIncrement = some s ∧
      ∀ g, s.count g = 0 ∧ s.wasHere g = s.completed g := by
  have hend : (run step initial missedIncrement).map (fun s => ((s.pc 0, s.pc 1), s.tasks,
      (s.entered .sig34, s.entered .sig35), s.counted .sig34, s.counted .sig35)) =
        some ((.semWait, .semWait), 0, (0, 0), 0, 0) := by decide
  obtain ⟨s, hr, hs⟩ := Option.map_eq_some_iff.mp hend
  simp only [Prod.mk.injEq] at hs
  obtain ⟨⟨h0, h1⟩, htasks, ⟨he4, he5⟩, hc4, hc5⟩ := hs
  refine ⟨s, hr, no_signal_lost missedIncrement s hr ?_ htasks ?_⟩
  · intro i
    fin_cases i
    · exact h0
    · exact h1
  · intro g
    cases g with
    | sig34 => exact ⟨he4, hc4⟩
    | sig35 => exact ⟨he5, hc5⟩

end SignalTest
