import TaskSuite.Machine
import TaskSuite.Tally
import TaskSuite.RwSpinLock

/-! Any number of threads that take turns on one lock state. Blocked threads
stay blocked: nothing in the source wakes them up, so the states after a
release with waiters are states of the run as well. -/
namespace RwSpinLock.Threads
open Machine Tally

inductive Role where
  | idle
  | reader
  | writer
  | blockedWriter
  | blockedConverter
  deriving DecidableEq, Repr

def Role.permits : Role → Transition → Bool
  | .idle, .rdlock | .idle, .wrlock => true
  | .reader, .rdunlock | .reader, .rd2wrlock => true
  | .writer, .wrunlock | .writer, .wr2rdlock => true
  | _, _ => false

def Role.after (t f : Transition) : Role :=
  if isBlocking f then
    match f with
    | .failedWrlock => .blockedWriter
    | .failedRd2wrlock => .blockedConverter
    | _ => .idle
  else
    match t with
    | .rdlock | .wr2rdlock => .reader
    | .wrlock | .rd2wrlock => .writer
    | _ => .idle

structure System (ι : Type*) where
  lock : State
  role : ι → Role

variable {ι : Type*}

def initial : System ι := ⟨.unlocked, fun _ => .idle⟩

/-- One thread takes a turn. A `must_throw` gives no next state: it ends the run. -/
def step [DecidableEq ι] (σ : System ι) (a : ι × Transition) : Option (System ι) :=
  if (σ.role a.1).permits a.2 then
    (turn a.2 σ.lock).map fun p => ⟨p.2, Function.update σ.role a.1 (Role.after a.2 p.1)⟩
  else none

/-- At most one writer, and beside a writer no other thread holds a read lock. -/
def Exclusive (σ : System ι) : Prop :=
  (∀ i j, σ.role i = .writer → σ.role j = .writer → i = j) ∧
  ∀ i j, σ.role i = .writer → σ.role j ≠ .reader ∧ σ.role j ≠ .blockedConverter

/-- The wrlock attempt that `follow_up` does not refuse although a read lock is
held: every holder of a read lock is a blocked converter. -/
def OnlyConvertersHold (σ : System ι) (a : ι × Transition) : Prop :=
  σ.role a.1 = .idle ∧ a.2 = .wrlock ∧ 0 < σ.lock.c ∧ σ.lock.r = σ.lock.c

/-! Each counter is the tally of what the roles contribute to it. -/

def Role.inC : Role → ℤ
  | .blockedConverter => 1
  | _ => 0

def Role.inW : Role → ℤ
  | .writer => 1
  | _ => 0

def Role.inV : Role → ℤ
  | .writer | .blockedWriter | .blockedConverter => 1
  | _ => 0

def Role.inR : Role → ℤ
  | .reader | .blockedConverter => 1
  | _ => 0

theorem Role.inC_nonneg (x : Role) : 0 ≤ x.inC := by cases x <;> decide
theorem Role.inW_nonneg (x : Role) : 0 ≤ x.inW := by cases x <;> decide
theorem Role.inR_nonneg (x : Role) : 0 ≤ x.inR := by cases x <;> decide
theorem Role.inV_bounds (x : Role) : x.inC ≤ x.inV ∧ x.inW ≤ x.inV ∧ x.inC ≤ x.inR ∧
    x.inW + x.inC ≤ x.inV := by cases x <;> decide

variable [Fintype ι]

structure Counts (s : State) (role : ι → Role) : Prop where
  c : s.c = tally Role.inC role
  w : s.w = tally Role.inW role
  v : s.v = tally Role.inV role
  r : s.r = tally Role.inR role

theorem Counts.move [DecidableEq ι] {s : State} {role : ι → Role} (h : Counts s role) (i : ι) (x : Role) :
    Counts ⟨s.c - (role i).inC + x.inC, s.w - (role i).inW + x.inW,
      s.v - (role i).inV + x.inV, s.r - (role i).inR + x.inR⟩ (Function.update role i x) where
  c := by rw [tally_update, h.c]
  w := by rw [tally_update, h.w]
  v := by rw [tally_update, h.v]
  r := by rw [tally_update, h.r]

/-- The counters describe the roles, and the holders they describe exclude each other. -/
structure Consistent (σ : System ι) : Prop where
  counts : Counts σ.lock σ.role
  oneWriter : σ.lock.w ≤ 1
  oneConverter : σ.lock.c ≤ 1
  writerAlone : σ.lock.w = 1 → σ.lock.r = 0

theorem consistent_initial : Consistent (initial : System ι) where
  counts := by
    constructor <;> exact (tally_const _ _ rfl).symm
  oneWriter := Int.zero_le_ofNat 1
  oneConverter := Int.zero_le_ofNat 1
  writerAlone := fun _ => rfl

namespace Consistent
variable {σ : System ι} (h : Consistent σ)
include h

theorem w_bounds : 0 ≤ σ.lock.w ∧ 0 ≤ σ.lock.c ∧ 0 ≤ σ.lock.r := by
  rw [h.counts.w, h.counts.c, h.counts.r]
  exact ⟨tally_nonneg Role.inW_nonneg _, tally_nonneg Role.inC_nonneg _,
    tally_nonneg Role.inR_nonneg _⟩

theorem counter_order : σ.lock.c ≤ σ.lock.r ∧ σ.lock.w + σ.lock.c ≤ σ.lock.v := by
  rw [h.counts.c, h.counts.r, h.counts.w, h.counts.v]
  constructor
  · exact tally_le fun x => x.inV_bounds.2.2.1
  · rw [← tally_add]
    exact tally_le fun x => x.inV_bounds.2.2.2

theorem legal : σ.lock.isIllegal = false := by
  obtain ⟨hw, hc, -⟩ := h.w_bounds
  obtain ⟨hcr, hv⟩ := h.counter_order
  exact State.isIllegal_eq_false.mpr (by omega)

theorem exclusive : Exclusive σ := by
  classical
  constructor
  · intro i j hi hj
    by_contra hij
    have htwo := two_weights_le_tally Role.inW_nonneg σ.role hij
    have hw := h.oneWriter
    rw [h.counts.w] at hw
    rw [hi, hj] at htwo
    simp only [Role.inW] at htwo
    omega
  · intro i j hi
    have hwi := weight_le_tally Role.inW_nonneg σ.role i
    rw [hi, ← h.counts.w] at hwi
    have hr : σ.lock.r = 0 := h.writerAlone (le_antisymm h.oneWriter hwi)
    have hrj := weight_le_tally Role.inR_nonneg σ.role j
    rw [← h.counts.r, hr] at hrj
    constructor <;> intro hj <;> rw [hj] at hrj <;> exact absurd hrj (by decide)

end Consistent

variable [DecidableEq ι]

omit [Fintype ι] in
/-- The six turns that roles permit, each with the holders it asks for. -/
theorem step_cases {σ τ : System ι} {i : ι} {t : Transition} (h : step σ (i, t) = some τ) :
    ∃ f s, turn t σ.lock = some (f, s) ∧
      τ = ⟨s, Function.update σ.role i (Role.after t f)⟩ ∧
      (σ.role i = .idle ∧ (t = .rdlock ∨ t = .wrlock) ∨
        σ.role i = .reader ∧ (t = .rdunlock ∨ t = .rd2wrlock) ∨
        σ.role i = .writer ∧ (t = .wrunlock ∨ t = .wr2rdlock)) := by
  simp only [step] at h
  split at h
  next hp =>
    obtain ⟨⟨f, s⟩, hturn, rfl⟩ := Option.map_eq_some_iff.mp h
    refine ⟨f, s, hturn, rfl, ?_⟩
    cases hr : σ.role i <;> cases t <;> simp_all [Role.permits]
  next hn => cases h

section Preservation
variable {σ τ : System ι} {i : ι} {f : Transition} {s : State} (h : Consistent σ)
include h

theorem consistent_of_turn {t : Transition} {x : Role} (hx : Role.after t f = x)
    (hs : s = ⟨σ.lock.c - (σ.role i).inC + x.inC, σ.lock.w - (σ.role i).inW + x.inW,
      σ.lock.v - (σ.role i).inV + x.inV, σ.lock.r - (σ.role i).inR + x.inR⟩)
    (hexcl : s.w ≤ 1 ∧ s.c ≤ 1 ∧ (s.w = 1 → s.r = 0)) :
    Consistent ⟨s, Function.update σ.role i (Role.after t f)⟩ := by
  subst hx
  refine ⟨?_, hexcl.1, hexcl.2.1, hexcl.2.2⟩
  dsimp only
  rw [hs]
  exact h.counts.move i (Role.after t f)

theorem rdlock_consistent (hi : σ.role i = .idle) (hturn : turn .rdlock σ.lock = some (f, s)) :
    Consistent ⟨s, Function.update σ.role i (Role.after .rdlock f)⟩ := by
  have hw := h.oneWriter
  have halone := h.writerAlone
  have hcv := h.counter_order.2
  have hc0 := h.w_bounds.2.1
  by_cases hv : 0 < σ.lock.v
  · rw [turn_rdlock_blocked h.legal hv] at hturn
    obtain ⟨rfl, rfl⟩ := Prod.mk.inj (Option.some.inj hturn)
    exact consistent_of_turn h (x := .idle) rfl (by simp [hi]) ⟨hw, h.oneConverter, halone⟩
  · rw [turn_rdlock_granted h.legal (by omega)] at hturn
    obtain ⟨rfl, rfl⟩ := Prod.mk.inj (Option.some.inj hturn)
    refine consistent_of_turn h (x := .reader) rfl
      (by simp [hi, Role.inC, Role.inW, Role.inV, Role.inR]) ⟨hw, h.oneConverter, ?_⟩
    dsimp only
    omega

/-- The guard is needed here only: without it the lock may be granted beside a converter. -/
theorem wrlock_consistent (hi : σ.role i = .idle) (hg : ¬ OnlyConvertersHold σ (i, .wrlock))
    (hturn : turn .wrlock σ.lock = some (f, s)) :
    Consistent ⟨s, Function.update σ.role i (Role.after .wrlock f)⟩ := by
  have hw := h.oneWriter
  have hcr := h.counter_order.1
  obtain ⟨hw0, hc0, -⟩ := h.w_bounds
  by_cases hh : σ.lock.c < σ.lock.r ∨ 0 < σ.lock.w
  · rw [turn_wrlock_blocked h.legal hh] at hturn
    obtain ⟨rfl, rfl⟩ := Prod.mk.inj (Option.some.inj hturn)
    exact consistent_of_turn h (x := .blockedWriter) rfl
      (by simp [hi, Role.inC, Role.inW, Role.inV, Role.inR]) ⟨hw, h.oneConverter, h.writerAlone⟩
  · have hnone : ¬ 0 < σ.lock.c := fun hc => hg ⟨hi, rfl, hc, by omega⟩
    rw [turn_wrlock_granted h.legal (by omega) (by omega)] at hturn
    obtain ⟨rfl, rfl⟩ := Prod.mk.inj (Option.some.inj hturn)
    refine consistent_of_turn h (x := .writer) rfl
      (by simp [hi, Role.inC, Role.inW, Role.inV, Role.inR]) ⟨?_, h.oneConverter, ?_⟩ <;>
      dsimp only <;> omega

omit [DecidableEq ι] in
/-- A reader's lock is not the one a blocked converter keeps, and excludes a writer. -/
theorem reader_counts (hi : σ.role i = .reader) : σ.lock.c < σ.lock.r ∧ σ.lock.w = 0 := by
  have hmine : (σ.role i).inR - (σ.role i).inC ≤ tally (fun x => x.inR - x.inC) σ.role :=
    weight_le_tally (fun x => sub_nonneg.mpr x.inV_bounds.2.2.1) σ.role i
  rw [tally_sub, ← h.counts.r, ← h.counts.c, hi] at hmine
  simp only [Role.inR, Role.inC] at hmine
  have hw := h.oneWriter
  have halone := h.writerAlone
  obtain ⟨hw0, hc0, -⟩ := h.w_bounds
  omega

theorem rdunlock_consistent (hi : σ.role i = .reader)
    (hturn : turn .rdunlock σ.lock = some (f, s)) :
    Consistent ⟨s, Function.update σ.role i (Role.after .rdunlock f)⟩ := by
  obtain ⟨hcr, hw⟩ := reader_counts h hi
  have hc0 := h.w_bounds.2.1
  rw [turn_rdunlock h.legal (by omega) hcr] at hturn
  obtain ⟨rfl, rfl⟩ := Prod.mk.inj (Option.some.inj hturn)
  refine consistent_of_turn h (x := .idle) rfl
    (by simp [hi, Role.inC, Role.inW, Role.inV, Role.inR]) ⟨h.oneWriter, h.oneConverter, ?_⟩
  dsimp only
  omega

theorem rd2wrlock_consistent (hi : σ.role i = .reader)
    (hturn : turn .rd2wrlock σ.lock = some (f, s)) :
    Consistent ⟨s, Function.update σ.role i (Role.after .rd2wrlock f)⟩ := by
  obtain ⟨hcr, hw⟩ := reader_counts h hi
  have hc0 := h.w_bounds.2.1
  have hc : σ.lock.c = 0 := by
    by_contra hne
    rw [turn_rd2wrlock_throws (by omega)] at hturn
    cases hturn
  by_cases hone : σ.lock.r = 1
  · rw [turn_rd2wrlock_granted h.legal (by omega) (by omega) (by omega) (by omega)] at hturn
    obtain ⟨rfl, rfl⟩ := Prod.mk.inj (Option.some.inj hturn)
    refine consistent_of_turn h (x := .writer) rfl
      (by simp [hi, Role.inC, Role.inW, Role.inV, Role.inR]) ⟨?_, h.oneConverter, ?_⟩ <;>
      dsimp only <;> omega
  · rw [turn_rd2wrlock_blocked h.legal (by omega) (by omega) (by omega)] at hturn
    obtain ⟨rfl, rfl⟩ := Prod.mk.inj (Option.some.inj hturn)
    refine consistent_of_turn h (x := .blockedConverter) rfl
      (by simp [hi, Role.inC, Role.inW, Role.inV, Role.inR]) ⟨h.oneWriter, ?_, ?_⟩ <;>
      dsimp only <;> omega

omit [DecidableEq ι] in
theorem writer_counts (hi : σ.role i = .writer) :
    σ.lock.w = 1 ∧ σ.lock.r = 0 ∧ σ.lock.c = 0 ∧ 0 < σ.lock.v := by
  have hmine := weight_le_tally Role.inW_nonneg σ.role i
  rw [← h.counts.w, hi] at hmine
  simp only [Role.inW] at hmine
  have hw := h.oneWriter
  have halone := h.writerAlone
  have hcr := h.counter_order
  have hc0 := h.w_bounds
  omega

theorem wrunlock_consistent (hi : σ.role i = .writer)
    (hturn : turn .wrunlock σ.lock = some (f, s)) :
    Consistent ⟨s, Function.update σ.role i (Role.after .wrunlock f)⟩ := by
  obtain ⟨hw, hr, hc, hv⟩ := writer_counts h hi
  rw [turn_wrunlock h.legal (by omega) (by omega)] at hturn
  obtain ⟨rfl, rfl⟩ := Prod.mk.inj (Option.some.inj hturn)
  refine consistent_of_turn h (x := .idle) rfl
    (by simp [hi, Role.inC, Role.inW, Role.inV, Role.inR]) ⟨?_, h.oneConverter, ?_⟩ <;>
    dsimp only <;> omega

theorem wr2rdlock_consistent (hi : σ.role i = .writer)
    (hturn : turn .wr2rdlock σ.lock = some (f, s)) :
    Consistent ⟨s, Function.update σ.role i (Role.after .wr2rdlock f)⟩ := by
  obtain ⟨hw, hr, hc, hv⟩ := writer_counts h hi
  rw [turn_wr2rdlock h.legal (by omega) (by omega)] at hturn
  obtain ⟨rfl, rfl⟩ := Prod.mk.inj (Option.some.inj hturn)
  refine consistent_of_turn h (x := .reader) rfl
    (by simp [hi, Role.inC, Role.inW, Role.inV, Role.inR]) ⟨?_, h.oneConverter, ?_⟩ <;>
    dsimp only <;> omega

end Preservation

/-- A turn that is not the unguarded wrlock keeps the counters and the roles
together and the holders apart. -/
theorem step_consistent {σ τ : System ι} {a : ι × Transition} (h : Consistent σ)
    (hg : ¬ OnlyConvertersHold σ a) (hs : step σ a = some τ) : Consistent τ := by
  obtain ⟨i, t⟩ := a
  obtain ⟨f, s, hturn, rfl, hrole⟩ := step_cases hs
  rcases hrole with ⟨hi, rfl | rfl⟩ | ⟨hi, rfl | rfl⟩ | ⟨hi, rfl | rfl⟩
  · exact rdlock_consistent h hi hturn
  · exact wrlock_consistent h hi hg hturn
  · exact rdunlock_consistent h hi hturn
  · exact rd2wrlock_consistent h hi hturn
  · exact wrunlock_consistent h hi hturn
  · exact wr2rdlock_consistent h hi hturn

omit [DecidableEq ι] in
theorem exists_converter {σ : System ι} (h : Consistent σ) (hc : 0 < σ.lock.c) :
    ∃ j, σ.role j = .blockedConverter := by
  by_contra hnone
  have hzero : tally Role.inC σ.role = 0 := by
    apply Finset.sum_eq_zero
    intro j _
    cases hj : σ.role j with
    | blockedConverter => exact absurd ⟨j, hj⟩ hnone
    | idle | reader | writer | blockedWriter => rfl
  rw [h.counts.c] at hc
  omega

/-- The unguarded wrlock makes its thread a writer beside a blocked converter. -/
theorem step_breaks {σ : System ι} {a : ι × Transition} (h : Consistent σ)
    (hg : OnlyConvertersHold σ a) : ∃ τ, step σ a = some τ ∧ ¬ Exclusive τ := by
  obtain ⟨i, t⟩ := a
  obtain ⟨hi, ht, hc, hr⟩ := hg
  dsimp only at hi ht
  subst ht
  have hw : σ.lock.w = 0 := by
    have := h.w_bounds
    have := h.oneWriter
    have := h.writerAlone
    omega
  obtain ⟨j, hj⟩ := exists_converter h hc
  have hij : j ≠ i := by
    rintro rfl
    rw [hi] at hj
    cases hj
  refine ⟨⟨{ σ.lock with w := σ.lock.w + 1, v := σ.lock.v + 1 },
    Function.update σ.role i .writer⟩, ?_, ?_⟩
  · simp [step, hi, Role.permits, turn_wrlock_granted h.legal hr hw.le, Role.after, isBlocking]
  · intro hex
    have hwrite : Function.update σ.role i .writer i = .writer := Function.update_self ..
    have hconv : Function.update σ.role i .writer j = .blockedConverter := by
      rw [Function.update_of_ne hij, hj]
    exact (hex.2 i j hwrite).2 hconv

/-- Exclusion holds throughout a run exactly when no step of it is a wrlock
attempted while blocked converters are the only holders. -/
theorem exclusive_iff_guarded (acts : List (ι × Transition)) :
    Throughout step Exclusive (initial : System ι) acts ↔
      Along step (fun σ a => ¬ OnlyConvertersHold σ a) initial acts :=
  throughout_iff_along (I := Consistent) (fun _ h => h.exclusive)
    (fun _ _ _ h hg hs => step_consistent h hg hs)
    (fun _ _ h hg => step_breaks h (not_not.mp hg)) consistent_initial acts

/-- Two readers, the first of which blocks as a converter; the second one
releases, and then a third thread is granted the write lock. -/
theorem writer_beside_converter :
    ∃ σ, run step (initial : System (Fin 3))
        [(0, .rdlock), (1, .rdlock), (0, .rd2wrlock), (1, .rdunlock), (2, .wrlock)] = some σ ∧
      ¬ Exclusive σ := by
  have hend : (run step (initial : System (Fin 3))
      [(0, .rdlock), (1, .rdlock), (0, .rd2wrlock), (1, .rdunlock), (2, .wrlock)]).map
        (fun σ => (σ.role 0, σ.role 2)) = some (.blockedConverter, .writer) := by decide
  obtain ⟨σ, hrun, hroles⟩ := Option.map_eq_some_iff.mp hend
  obtain ⟨hconv, hwrite⟩ := Prod.mk.inj hroles
  exact ⟨σ, hrun, fun hex => (hex.2 2 0 hwrite).2 hconv⟩

end RwSpinLock.Threads
