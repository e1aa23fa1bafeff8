import Mathlib.Data.Nat.Fib.Basic

/-! The function `fibo` of `fiboquick.cxx`, which remembers what it has computed in a
static table. A zero in the table means that an entry is not yet known. -/
namespace FiboQuick

abbrev Table (size : Nat) := Fin size → UInt64

/-- The table, and the tables before each of the assignments to it. -/
structure Memory (size : Nat) where
  f : Table size
  past : List (Table size)

/-- A computation that stops where it would use an index that the table does not have. -/
abbrev Computation (size : Nat) := StateT (Memory size) Option

section Fibo
variable {size : Nat}

def load (k : ℤ) : Computation size UInt64 := fun s =>
  if h : 0 ≤ k ∧ k < size then some (s.f ⟨k.toNat, (Int.toNat_lt h.1).mpr h.2⟩, s) else none

/-- `f[k] = value` -/
def store (k : ℤ) (value : UInt64) : Computation size Unit := fun s =>
  if h : 0 ≤ k ∧ k < size then
    some ((), ⟨Function.update s.f ⟨k.toNat, (Int.toNat_lt h.1).mpr h.2⟩ value, s.f :: s.past⟩)
  else none

/-- `if (!f[k]) f[k] = fibo(k);` -/
def fill (k : ℤ) (fibo : Computation size UInt64) : Computation size Unit := do
  if (← load k) = 0 then
    store k (← fibo)

/-- The function for a number that is not negative. -/
def fiboNat : Nat → Computation size UInt64
  | 0 | 1 => pure 1
  | n + 2 => do
      if (← load (n + 2)) = 0 then
        fill (n + 1) (fiboNat (n + 1))
        fill n (fiboNat n)
        store (n + 2) ((← load (n + 1)) + (← load n))
      load (n + 2)

def fibo (n : ℤ) : Computation size UInt64 := if n < 2 then pure 1 else fiboNat n.toNat

def fibos (calls : List ℤ) : Computation size (List UInt64) := calls.mapM fibo

def Memory.zero : Memory size := ⟨fun _ => 0, []⟩

end Fibo

def tableSize : Nat := 10000

example : ((fibos [5, 2, -3, 6]).run (Memory.zero : Memory tableSize)).map Prod.fst =
    some [8, 2, 1, 13] := by
  decide +kernel

/-! ### The values -/

def fibonacci (n : ℤ) : UInt64 := .ofNat (Nat.fib (n.toNat + 1))

theorem fibonacci_of_lt {n : ℤ} (h : n < 2) : fibonacci n = 1 := by
  have hn : n.toNat = 0 ∨ n.toNat = 1 := by omega
  rcases hn with hn | hn <;> rw [fibonacci, hn] <;> rfl

theorem fibonacci_add_two (n : Nat) : fibonacci (n + 2) = fibonacci (n + 1) + fibonacci n := by
  have h2 : ((n : ℤ) + 2).toNat = n + 2 := rfl
  have h1 : ((n : ℤ) + 1).toNat = n + 1 := rfl
  have h0 : (n : ℤ).toNat = n := rfl
  rw [fibonacci, fibonacci, fibonacci, h2, h1, h0, Nat.fib_add_two, UInt64.ofNat_add, UInt64.add_comm]

section Tables
variable {size : Nat}

def Sound (t : Table size) : Prop := ∀ k, t k = 0 ∨ t k = fibonacci (k : Nat)

/-- The entry is the value, which may itself be zero. -/
def Known (s : Memory size) (k : Fin size) : Prop := s.f k = fibonacci (k : Nat)

def Memory.Sound (s : Memory size) : Prop := ∀ t ∈ s.f :: s.past, FiboQuick.Sound t

/-- What may be between two memories of a run. -/
structure Step (s s' : Memory size) : Prop where
  sound : s'.Sound
  keeps : ∀ k, Known s k → Known s' k

/-- From every memory that is sound, the computation comes to an end and returns `a`. -/
def Returns {α : Type} (c : Computation size α) (a : α) : Prop :=
  ∀ s : Memory size, s.Sound → ∃ s', c.run s = some (a, s') ∧ Step s s'

section Access
variable {s s' : Memory size} {k : ℤ}

theorem Step.trans {s'' : Memory size} (h : Step s s') (h' : Step s' s'') : Step s s'' :=
  ⟨h'.sound, fun k hk => h'.keeps k (h.keeps k hk)⟩

theorem mk_toNat_eq {i : Fin size} (hi : k = (i : Nat)) (h : k.toNat < size) :
    (⟨k.toNat, h⟩ : Fin size) = i := by
  apply Fin.ext
  dsimp only
  omega

theorem load_run (s : Memory size) (i : Fin size) (hi : k = (i : Nat)) :
    (load k).run s = some (s.f i, s) := by
  have hrange : 0 ≤ k ∧ k < size := by omega
  change (load k) s = _
  rw [load, dif_pos hrange, mk_toNat_eq hi]

theorem store_run (s : Memory size) (i : Fin size) (hi : k = (i : Nat)) (value : UInt64) :
    (store k value).run s = some ((), ⟨Function.update s.f i value, s.f :: s.past⟩) := by
  have hrange : 0 ≤ k ∧ k < size := by omega
  change (store k value) s = _
  rw [store, dif_pos hrange, mk_toNat_eq hi]

theorem step_store (hs : s.Sound) (i : Fin size) :
    let s' : Memory size := ⟨Function.update s.f i (fibonacci (i : Nat)), s.f :: s.past⟩
    Step s s' ∧ Known s' i := by
  intro s'
  have hf : ∀ k, s'.f k = s.f k ∨ Known s' k := by
    intro k
    by_cases hk : k = i
    · subst hk
      exact .inr (Function.update_self ..)
    · exact .inl (Function.update_of_ne hk ..)
  refine ⟨⟨?_, fun k hk => ?_⟩, Function.update_self ..⟩
  · refine List.forall_mem_cons.mpr ⟨fun k => ?_, hs⟩
    rcases hf k with hsame | hknown
    · rw [hsame]
      exact hs s.f (List.mem_cons_self ..) k
    · exact .inr hknown
  · rcases hf k with hsame | hknown
    · exact hsame.trans hk
    · exact hknown

theorem Memory.Sound.known (hs : s.Sound) {i : Fin size} (h : s.f i ≠ 0) : Known s i :=
  (hs s.f (List.mem_cons_self ..) i).resolve_left h

theorem fill_spec (hs : s.Sound) (i : Fin size) (hi : k = (i : Nat)) {fibo : Computation size UInt64}
    (hfibo : Returns fibo (fibonacci k)) :
    ∃ s', (fill k fibo).run s = some ((), s') ∧ Step s s' ∧ Known s' i := by
  rw [fill, StateT.run_bind, load_run s i hi]
  by_cases hzero : s.f i = 0
  · obtain ⟨s₁, hrun, hstep⟩ := hfibo s hs
    obtain ⟨hstore, hknown⟩ := step_store hstep.sound i
    refine ⟨_, ?_, hstep.trans hstore, hknown⟩
    simp only [Option.bind_eq_bind, Option.bind_some, hzero, if_true]
    rw [StateT.run_bind, hrun]
    simp only [Option.bind_eq_bind, Option.bind_some]
    rw [store_run s₁ i hi, hi]
  · exact ⟨s, by simp [hzero], ⟨hs, fun _ hk => hk⟩, hs.known hzero⟩

end Access

theorem returns_pure {n : ℤ} (hn : n < 2) :
    Returns (pure 1 : Computation size UInt64) (fibonacci n) := by
  intro s hs
  rw [fibonacci_of_lt hn]
  exact ⟨s, rfl, hs, fun _ hk => hk⟩

theorem fiboNat_spec (n : Nat) (hn : n < size) :
    Returns (fiboNat n : Computation size UInt64) (fibonacci n) := by
  induction n using Nat.twoStepInduction with
  | zero => exact returns_pure (by decide)
  | one => exact returns_pure (by decide)
  | more n ih0 ih1 =>
      intro s hs
      let i2 : Fin size := ⟨n + 2, hn⟩
      let i1 : Fin size := ⟨n + 1, Nat.lt_of_succ_lt hn⟩
      let i0 : Fin size := ⟨n, Nat.lt_of_succ_lt i1.isLt⟩
      have hi2 : (n : ℤ) + 2 = (i2 : Nat) := rfl
      have hi1 : (n : ℤ) + 1 = (i1 : Nat) := rfl
      have hi0 : (n : ℤ) = (i0 : Nat) := rfl
      have hload : ∀ s : Memory size, (load (n + 2)).run s = some (s.f i2, s) := fun s =>
        load_run s i2 hi2
      by_cases hzero : s.f i2 = 0
      · obtain ⟨s₁, hfill₁, hstep₁, hknown₁⟩ := fill_spec hs i1 hi1 (ih1 i1.isLt)
        obtain ⟨s₂, hfill₀, hstep₂, hknown₀⟩ := fill_spec hstep₁.sound i0 hi0 (ih0 i0.isLt)
        obtain ⟨hstep₃, hknown₂⟩ := step_store hstep₂.sound i2
        have hload₁ : (load (n + 1)).run s₂ = some (fibonacci (n + 1), s₂) := by
          rw [load_run s₂ i1 hi1, hstep₂.keeps i1 hknown₁, ← hi1]
        have hload₀ : (load n).run s₂ = some (fibonacci n, s₂) := by
          rw [load_run s₂ i0 hi0, hknown₀]
        have hstore := store_run s₂ i2 hi2 (fibonacci (n + 1) + fibonacci n)
        rw [← fibonacci_add_two, hi2] at hstore
        refine ⟨_, ?_, (hstep₁.trans hstep₂).trans hstep₃⟩
        simp only [fiboNat, StateT.run_bind, Option.bind_eq_bind, Option.bind_some, hload, hzero, if_true,
          hfill₁, hfill₀, hload₁, hload₀]
        rw [← fibonacci_add_two, hi2, hstore, Option.bind_some, hknown₂]
      · refine ⟨s, ?_, hs, fun _ hk => hk⟩
        simp only [fiboNat, StateT.run_bind, Option.bind_eq_bind, Option.bind_some, hload, hzero, if_false]
        rw [hs.known hzero]

theorem fibo_spec (n : ℤ) (hn : n < size) :
    Returns (fibo n : Computation size UInt64) (fibonacci n) := by
  rw [fibo]
  split_ifs with hless
  · exact returns_pure hless
  · have hnat : Returns (fiboNat n.toNat : Computation size UInt64) _ :=
      fiboNat_spec n.toNat (by omega)
    rwa [Int.toNat_of_nonneg (by omega)] at hnat

theorem fibos_spec (calls : List ℤ) (hcalls : ∀ n ∈ calls, n < size) :
    Returns (fibos calls : Computation size (List UInt64)) (calls.map fibonacci) := by
  induction calls with
  | nil => exact fun s hs => ⟨s, rfl, hs, fun _ hk => hk⟩
  | cons n calls ih =>
      obtain ⟨hn, hcalls⟩ := List.forall_mem_cons.mp hcalls
      intro s hs
      obtain ⟨s₁, hrun₁, hstep₁⟩ := fibo_spec n hn s hs
      obtain ⟨s₂, hrun₂, hstep₂⟩ := ih hcalls s₁ hstep₁.sound
      refine ⟨s₂, ?_, hstep₁.trans hstep₂⟩
      rw [fibos] at hrun₂ ⊢
      rw [List.mapM_cons, StateT.run_bind, hrun₁, Option.bind_eq_bind, Option.bind_some,
        StateT.run_bind, hrun₂]
      rfl

end Tables

/-- **Every call returns the Fibonacci number modulo `2 ^ 64`**, all indices are in the
table, and between any two assignments each entry is zero or the number that belongs to it. -/
theorem fibos_returns (calls : List ℤ) (hcalls : ∀ n ∈ calls, n < tableSize) :
    ∃ s : Memory tableSize, (fibos calls).run .zero = some (calls.map fibonacci, s) ∧
      ∀ t ∈ s.f :: s.past, ∀ k, t k = 0 ∨ t k = fibonacci (k : Nat) := by
  have hzero : (Memory.zero : Memory tableSize).Sound := by
    refine List.forall_mem_singleton.mpr fun k => ?_
    exact .inl rfl
  obtain ⟨s, hrun, hstep⟩ := fibos_spec calls hcalls .zero hzero
  exact ⟨s, hrun, hstep.sound⟩

/-- The largest number first. -/
theorem fibos_returns_largest :
    let calls : List ℤ := [9999, 93, -7]
    (∀ n ∈ calls, n < tableSize) ∧
      ∃ s : Memory tableSize, (fibos calls).run .zero = some (calls.map fibonacci, s) ∧
        ∀ t ∈ s.f :: s.past, ∀ k, t k = 0 ∨ t k = fibonacci (k : Nat) := by
  intro calls
  have hcalls : ∀ n ∈ calls, n < tableSize := by decide
  exact ⟨hcalls, fibos_returns calls hcalls⟩

end FiboQuick
