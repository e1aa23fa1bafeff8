import Mathlib.Algebra.BigOperators.Fin
import Mathlib.Algebra.Order.Chebyshev
import Mathlib.Data.Nat.ModEq
import Mathlib.Tactic.Linarith
import Mathlib.Tactic.Ring

/-! The variance that `tsc_kmod.c` computes in 64-bit words, and its checks for
overflow. -/
namespace TscKmod

/-! ### The function -/

/-- The two loops of `var_calc`, which add up the inputs and their squares. A sum
is compared with the one before it only when the next input is added. -/
def sumLoop (term : UInt64 → UInt64) : List UInt64 → UInt64 → UInt64 → Option (UInt64 × UInt64)
  | [], acc, previous => some (acc, previous)
  | x :: inputs, acc, previous =>
      if acc < previous then none else sumLoop term inputs (acc + term x) acc

/-- `temp_var` and `acc` at the end of `var_calc`, where they are subtracted; none
in the overflow branch. -/
def operands (inputs : List UInt64) : Option (UInt64 × UInt64) := do
  let size := UInt64.ofNat inputs.length
  let (acc, previous) ← sumLoop (fun x => x) inputs 0 0
  let acc := acc * acc
  if acc < previous then none
  else
    let (tempVar, previous) ← sumLoop (fun x => x * x) inputs 0 0
    let tempVar := tempVar * size
    if tempVar < previous then none else some (tempVar, acc)

/-- `var_calc` of all the inputs; none if it returns `-EINVAL` from the overflow
branch. -/
def varCalc (inputs : List UInt64) : Option UInt64 :=
  let size := UInt64.ofNat inputs.length
  (operands inputs).map fun (tempVar, acc) => (tempVar - acc) / (size * size)

/-! ### The sums without a bound -/

def total (term : UInt64 → UInt64) (inputs : List UInt64) : Nat :=
  (inputs.map fun x => (term x).toNat).sum

def sum (inputs : List UInt64) : Nat := (inputs.map UInt64.toNat).sum

def sumOfSquares (inputs : List UInt64) : Nat := (inputs.map fun x => x.toNat ^ 2).sum

def spread (inputs : List UInt64) : Int :=
  inputs.length * (sumOfSquares inputs : Int) - (sum inputs : Int) ^ 2

def variance (inputs : List UInt64) : Int := spread inputs / (inputs.length : Int) ^ 2

/-- One of the comparisons finds a sum or a product that is less than a sum of all
but the last input, or of their squares; in these sums no wrap-around is missed. -/
def Detects (inputs : List UInt64) : Prop :=
  2 ^ 64 ≤ sum inputs.dropLast ∨ sum inputs ^ 2 % 2 ^ 64 < sum inputs.dropLast ∨
    2 ^ 64 ≤ total (fun x => x * x) inputs.dropLast ∨
    inputs.length * sumOfSquares inputs % 2 ^ 64 < total (fun x => x * x) inputs.dropLast

section Sums
variable {term : UInt64 → UInt64} {inputs : List UInt64} {acc previous : UInt64}

theorem sumLoop_eq (hne : inputs ≠ []) (hle : previous ≤ acc) :
    sumLoop term inputs acc previous =
      if acc.toNat + total term inputs.dropLast < 2 ^ 64 then
        some (.ofNat (acc.toNat + total term inputs), .ofNat (acc.toNat + total term inputs.dropLast))
      else none := by
  induction inputs generalizing acc previous with
  | nil => exact absurd rfl hne
  | cons x inputs ih =>
      have hacc := acc.toNat_lt
      have hx := (term x).toNat_lt
      have hnot : ¬ acc < previous := UInt64.not_lt.mpr hle
      rw [sumLoop, if_neg hnot]
      cases inputs with
      | nil =>
          have hsum : UInt64.ofNat (acc.toNat + (term x).toNat) = acc + term x := by simp
          rw [sumLoop]
          simp only [List.dropLast_singleton, total, List.map_nil, List.map_cons, List.sum_nil,
            List.sum_cons, Nat.add_zero, if_pos hacc, hsum, UInt64.ofNat_toNat]
      | cons y inputs =>
          have hdrop : total term (x :: y :: inputs).dropLast =
              (term x).toNat + total term (y :: inputs).dropLast := by
            simp [total]
          have hall : total term (x :: y :: inputs) = (term x).toNat + total term (y :: inputs) := by
            simp [total]
          have hsum : (acc + term x).toNat = (acc.toNat + (term x).toNat) % 2 ^ 64 := UInt64.toNat_add ..
          rw [hdrop, hall, ← Nat.add_assoc, ← Nat.add_assoc]
          by_cases hwrap : acc.toNat + (term x).toNat < 2 ^ 64
          · rw [Nat.mod_eq_of_lt hwrap] at hsum
            rw [ih (List.cons_ne_nil y inputs) (UInt64.le_iff_toNat_le.mpr (by omega)), hsum]
          · -- The next comparison finds it.
            have hlt : acc + term x < acc := by
              rw [UInt64.lt_iff_toNat_lt, hsum]
              omega
            rw [sumLoop, if_pos hlt, if_neg (by omega)]

theorem sumLoop_zero (hne : inputs ≠ []) :
    sumLoop term inputs 0 0 =
      if total term inputs.dropLast < 2 ^ 64 then
        some (.ofNat (total term inputs), .ofNat (total term inputs.dropLast))
      else none := by
  rw [sumLoop_eq hne (UInt64.le_refl 0), UInt64.toNat_zero, Nat.zero_add, Nat.zero_add]

theorem total_mul_self_modEq (inputs : List UInt64) :
    total (fun x => x * x) inputs ≡ sumOfSquares inputs [MOD 2 ^ 64] := by
  induction inputs with
  | nil => rfl
  | cons x inputs ih =>
      have hx : (x * x).toNat ≡ x.toNat ^ 2 [MOD 2 ^ 64] := by
        rw [UInt64.toNat_mul, sq]
        exact Nat.mod_modEq _ _
      exact hx.add ih

theorem sumLoop_inputs (hne : inputs ≠ []) :
    sumLoop (fun x => x) inputs 0 0 =
      if sum inputs.dropLast < 2 ^ 64 then
        some (.ofNat (sum inputs), .ofNat (sum inputs.dropLast))
      else none :=
  sumLoop_zero hne

theorem dropLast_le_total (term : UInt64 → UInt64) (inputs : List UInt64) :
    total term inputs.dropLast ≤ total term inputs :=
  ((List.dropLast_sublist inputs).map _).sum_le_sum fun _ _ => Nat.zero_le _

end Sums

/-! ### The result -/

section Result
variable {inputs : List UInt64}

theorem toNat_size (hsize : inputs.length < 2 ^ 31) :
    (UInt64.ofNat inputs.length).toNat = inputs.length := by
  rw [UInt64.toNat_ofNat']
  exact Nat.mod_eq_of_lt (by omega)

theorem ofNat_lt {word : UInt64} {value n : Nat} (hword : word.toNat = value) (hn : n < 2 ^ 64) :
    (word < UInt64.ofNat n) = (value < n) := by
  rw [UInt64.lt_iff_toNat_lt, hword, UInt64.toNat_ofNat', Nat.mod_eq_of_lt hn]

theorem toNat_square_sum (inputs : List UInt64) :
    (UInt64.ofNat (sum inputs) * UInt64.ofNat (sum inputs)).toNat = sum inputs ^ 2 % 2 ^ 64 := by
  rw [UInt64.toNat_mul, UInt64.toNat_ofNat', ← Nat.mul_mod, sq]

theorem toNat_mul_size (hsize : inputs.length < 2 ^ 31) :
    (UInt64.ofNat (total (fun x => x * x) inputs) * UInt64.ofNat inputs.length).toNat =
      inputs.length * sumOfSquares inputs % 2 ^ 64 := by
  rw [UInt64.toNat_mul, UInt64.toNat_ofNat', toNat_size hsize, Nat.mod_mul_mod, Nat.mul_comm]
  exact (total_mul_self_modEq inputs).mul_left _

/-- The overflow branch is taken exactly if a comparison detects something, and
otherwise the operands are right up to multiples of the word size. -/
theorem operands_eq (hne : inputs ≠ []) (hsize : inputs.length < 2 ^ 31) :
    (Detects inputs → operands inputs = none) ∧
      (¬ Detects inputs → ∃ tempVar acc, operands inputs = some (tempVar, acc) ∧
        tempVar.toNat = inputs.length * sumOfSquares inputs % 2 ^ 64 ∧
        acc.toNat = sum inputs ^ 2 % 2 ^ 64) := by
  have hacc := toNat_square_sum inputs
  have htempVar := toNat_mul_size hsize
  simp only [operands, sumLoop_inputs hne, sumLoop_zero hne]
  by_cases hsum : sum inputs.dropLast < 2 ^ 64
  case neg =>
    simp only [if_neg hsum]
    exact ⟨fun _ => rfl, fun hnot => absurd (Or.inl (Nat.le_of_not_lt hsum)) hnot⟩
  have hltAcc := ofNat_lt hacc hsum
  simp only [if_pos hsum, Option.bind_eq_bind, Option.bind_some, hltAcc]
  by_cases hsquare : sum inputs ^ 2 % 2 ^ 64 < sum inputs.dropLast
  case pos =>
    rw [if_pos hsquare]
    exact ⟨fun _ => rfl, fun hnot => absurd (Or.inr (Or.inl hsquare)) hnot⟩
  rw [if_neg hsquare]
  by_cases hsquares : total (fun x => x * x) inputs.dropLast < 2 ^ 64
  case neg =>
    rw [if_neg hsquares]
    exact ⟨fun _ => rfl, fun hnot =>
      absurd (Or.inr (Or.inr (Or.inl (Nat.le_of_not_lt hsquares)))) hnot⟩
  have hltTempVar := ofNat_lt htempVar hsquares
  simp only [if_pos hsquares, Option.bind_some, hltTempVar]
  by_cases hproduct :
      inputs.length * sumOfSquares inputs % 2 ^ 64 < total (fun x => x * x) inputs.dropLast
  case pos =>
    rw [if_pos hproduct]
    exact ⟨fun _ => rfl, fun hnot => absurd (Or.inr (Or.inr (Or.inr hproduct))) hnot⟩
  rw [if_neg hproduct]
  constructor
  · rintro (h | h | h | h)
    · omega
    · exact absurd h hsquare
    · omega
    · exact absurd h hproduct
  · intro _
    exact ⟨_, _, rfl, htempVar, hacc⟩

theorem toNat_sub_eq {tempVar acc : UInt64} {m n : Nat} (hm : tempVar.toNat = m % 2 ^ 64)
    (hn : acc.toNat = n % 2 ^ 64) : ((tempVar - acc).toNat : Int) = ((m : Int) - n) % 2 ^ 64 := by
  rw [UInt64.toNat_sub, hm, hn]
  omega

/-- The inequality of Cauchy and Schwarz. -/
theorem spread_nonneg (inputs : List UInt64) : 0 ≤ spread inputs := by
  have hcauchy : (∑ i : Fin inputs.length, (inputs[i].toNat : Int)) ^ 2 ≤
      inputs.length * ∑ i : Fin inputs.length, (inputs[i].toNat : Int) ^ 2 := by
    have h := sq_sum_le_card_mul_sum_sq (s := (Finset.univ : Finset (Fin inputs.length)))
      (f := fun i => (inputs[i].toNat : Int))
    rwa [Finset.card_fin] at h
  have hsum : (sum inputs : Int) = ∑ i : Fin inputs.length, (inputs[i].toNat : Int) := by
    rw [sum, ← Fin.sum_univ_fun_getElem inputs UInt64.toNat]
    push_cast
    rfl
  have hsquares : (sumOfSquares inputs : Int) =
      ∑ i : Fin inputs.length, (inputs[i].toNat : Int) ^ 2 := by
    rw [sumOfSquares, ← Fin.sum_univ_fun_getElem inputs fun x => x.toNat ^ 2]
    push_cast
    rfl
  rw [spread, hsum, hsquares]
  exact sub_nonneg.mpr hcauchy

theorem length_pos_sq (hne : inputs ≠ []) : 0 < (inputs.length : Int) ^ 2 := by
  have hpos := List.length_pos_of_ne_nil hne
  positivity

/-- What is returned is right if the spread fits in a word. -/
theorem varCalc_eq (hne : inputs ≠ []) (hsize : inputs.length < 2 ^ 31) :
    (Detects inputs → varCalc inputs = none) ∧
      (¬ Detects inputs → ∃ v, varCalc inputs = some v ∧
        (v.toNat : Int) = spread inputs % 2 ^ 64 / (inputs.length : Int) ^ 2) := by
  obtain ⟨hdetects, hnot⟩ := operands_eq hne hsize
  refine ⟨fun h => by rw [varCalc, hdetects h]; rfl, fun h => ?_⟩
  obtain ⟨tempVar, acc, hoperands, htempVar, hacc⟩ := hnot h
  refine ⟨_, by rw [varCalc, hoperands]; rfl, ?_⟩
  have hsquare : (UInt64.ofNat inputs.length * UInt64.ofNat inputs.length).toNat =
      inputs.length ^ 2 := by
    rw [UInt64.toNat_mul, toNat_size hsize, sq]
    exact Nat.mod_eq_of_lt (by nlinarith)
  have hsub : ((tempVar - acc).toNat : Int) = spread inputs % 2 ^ 64 := by
    rw [toNat_sub_eq htempVar hacc, spread]
    push_cast
    rfl
  rw [UInt64.toNat_div, hsquare, Int.natCast_div, hsub]
  push_cast
  rfl

/-- A word that holds the spread only up to multiples of its size gives another
variance, since the square of the size fits in a word. -/
theorem spread_emod_ediv_iff (hne : inputs ≠ []) (hsize : inputs.length < 2 ^ 31) :
    spread inputs % 2 ^ 64 / (inputs.length : Int) ^ 2 = variance inputs ↔
      spread inputs < 2 ^ 64 := by
  have hnonneg := spread_nonneg inputs
  have hpos := length_pos_sq hne
  have hle : (inputs.length : Int) ^ 2 ≤ 2 ^ 64 := by
    have hlt : (inputs.length : Int) < 2 ^ 31 := by exact_mod_cast hsize
    nlinarith
  rw [variance]
  constructor
  · intro heq
    by_contra hlarge
    have hless : spread inputs % 2 ^ 64 ≤ spread inputs - (inputs.length : Int) ^ 2 := by omega
    have hdiv := Int.ediv_le_ediv hpos hless
    rw [Int.sub_ediv_of_dvd _ (dvd_refl _), Int.ediv_self hpos.ne'] at hdiv
    omega
  · intro hlt
    rw [Int.emod_eq_of_lt hnonneg hlt]

/-- **A returned value is the variance exactly if the spread fits in a word; the
comparisons find some of the other inputs.** -/
theorem varCalc_sound_iff (inputs : List UInt64) (hne : inputs ≠ [])
    (hsize : inputs.length < 2 ^ 31) :
    (∀ v, varCalc inputs = some v → (v.toNat : Int) = variance inputs) ↔
      spread inputs < 2 ^ 64 ∨ Detects inputs := by
  obtain ⟨hdetects, hnot⟩ := varCalc_eq hne hsize
  have hiff := spread_emod_ediv_iff hne hsize
  by_cases h : Detects inputs
  · refine iff_of_true (fun v hv => ?_) (Or.inr h)
    rw [hdetects h] at hv
    cases hv
  · obtain ⟨v, hv, hvalue⟩ := hnot h
    constructor
    · intro hsound
      exact Or.inl (hiff.mp (hvalue.symm.trans (hsound v hv)))
    · rintro (hfits | hfound) w hw
      · rw [hv] at hw
        cases hw
        rw [hvalue, hiff.mpr hfits]
      · exact absurd hfound h

theorem varCalc_sound_small : varCalc [3, 5, 10] = some 8 ∧ variance [3, 5, 10] = 8 := by
  have hvalue : varCalc [3, 5, 10] = some 8 := by decide
  have hsound := (varCalc_sound_iff [3, 5, 10] (List.cons_ne_nil _ _) (by decide)).mpr
    (Or.inl (by decide))
  exact ⟨hvalue, (hsound 8 hvalue).symm⟩

/-- The square and the sum wrap around to zero, which is not less than zero. -/
theorem varCalc_misses_overflow :
    ¬ (∀ v, varCalc [0, 4294967296] = some v → (v.toNat : Int) = variance [0, 4294967296]) := by
  intro hsound
  have h := hsound 0 (by decide)
  exact absurd h (by decide)

theorem sum_sq_le (inputs : List UInt64) :
    sum inputs ^ 2 ≤ inputs.length * sumOfSquares inputs := by
  have h := spread_nonneg inputs
  rw [spread, sub_nonneg] at h
  exact_mod_cast h

theorem total_mul_self_le (inputs : List UInt64) :
    total (fun x => x * x) inputs ≤ sumOfSquares inputs := by
  refine List.sum_le_sum fun x _ => ?_
  rw [UInt64.toNat_mul, sq]
  exact Nat.mod_le _ _

/-- The partial sums are bounded by what they are compared with. -/
theorem not_detects (hne : inputs ≠ []) (hfits : inputs.length * sumOfSquares inputs < 2 ^ 64) :
    ¬ Detects inputs := by
  have hcauchy := sum_sq_le inputs
  have hsum : sum inputs.dropLast ≤ sum inputs ^ 2 :=
    (dropLast_le_total (fun x => x) inputs).trans (Nat.le_self_pow two_ne_zero _)
  have hsquares : total (fun x => x * x) inputs.dropLast ≤
      inputs.length * sumOfSquares inputs :=
    calc total (fun x => x * x) inputs.dropLast
      _ ≤ total (fun x => x * x) inputs := dropLast_le_total _ inputs
      _ ≤ sumOfSquares inputs := total_mul_self_le inputs
      _ ≤ inputs.length * sumOfSquares inputs :=
        Nat.le_mul_of_pos_left _ (List.length_pos_of_ne_nil hne)
  unfold Detects
  rw [Nat.mod_eq_of_lt hfits, Nat.mod_eq_of_lt (hcauchy.trans_lt hfits)]
  omega

/-- **If the sums fit then nothing wraps around and nothing is taken for an
overflow.** -/
theorem varCalc_exact (inputs : List UInt64) (hne : inputs ≠ []) (hsize : inputs.length < 2 ^ 31)
    (hfits : inputs.length * sumOfSquares inputs < 2 ^ 64) :
    ∃ tempVar acc v, operands inputs = some (tempVar, acc) ∧ acc ≤ tempVar ∧
      varCalc inputs = some v ∧ (v.toNat : Int) = variance inputs := by
  have hnot := not_detects hne hfits
  have hcauchy := sum_sq_le inputs
  obtain ⟨tempVar, acc, hoperands, htempVar, hacc⟩ := (operands_eq hne hsize).2 hnot
  obtain ⟨v, hv, hvalue⟩ := (varCalc_eq hne hsize).2 hnot
  refine ⟨tempVar, acc, v, hoperands, ?_, hv, ?_⟩
  · rw [UInt64.le_iff_toNat_le, htempVar, hacc, Nat.mod_eq_of_lt hfits,
      Nat.mod_eq_of_lt (hcauchy.trans_lt hfits)]
    exact hcauchy
  · have hspread : spread inputs < 2 ^ 64 := by
      have hcast : (inputs.length : Int) * sumOfSquares inputs < 2 ^ 64 := by exact_mod_cast hfits
      have hsq := sq_nonneg (sum inputs : Int)
      rw [spread]
      linarith
    rw [hvalue, (spread_emod_ediv_iff hne hsize).mpr hspread]

theorem varCalc_exact_pair :
    ∃ tempVar acc v, operands [2, 4] = some (tempVar, acc) ∧ acc ≤ tempVar ∧
      varCalc [2, 4] = some v ∧ (v.toNat : Int) = variance [2, 4] :=
  varCalc_exact [2, 4] (List.cons_ne_nil _ _) (by decide) (by decide)

end Result

end TscKmod
