import Mathlib.Algebra.BigOperators.Group.Finset.Piecewise
import Mathlib.Algebra.BigOperators.Ring.Finset
import Mathlib.Algebra.Order.BigOperators.Group.Finset
import Mathlib.Data.Fintype.BigOperators
import Mathlib.Data.Int.Order.Basic
import Mathlib.Tactic.Linarith

/-! Weighted head counts over a finite family of parties. A counter that a
program maintains for its threads is compared with the sum, over all threads,
of what each one currently contributes to it. -/
namespace Tally

variable {ι ρ : Type*} [Fintype ι]

/-- The contributions of all parties, each read off its role. -/
def tally (weight : ρ → ℤ) (role : ι → ρ) : ℤ := ∑ i, weight (role i)

/-- A change of one role changes the tally by that party's contribution alone. -/
theorem tally_update [DecidableEq ι] (weight : ρ → ℤ) (role : ι → ρ) (i : ι) (x : ρ) :
    tally weight (Function.update role i x) = tally weight role - weight (role i) + weight x := by
  have hsplit := Finset.add_sum_erase Finset.univ (fun k => weight (role k)) (Finset.mem_univ i)
  have hnew := Finset.add_sum_erase Finset.univ
    (fun k => weight (Function.update role i x k)) (Finset.mem_univ i)
  have hrest : ∑ k ∈ Finset.univ.erase i, weight (Function.update role i x k) =
      ∑ k ∈ Finset.univ.erase i, weight (role k) := by
    apply Finset.sum_congr rfl
    intro k hk
    rw [Function.update_of_ne (Finset.ne_of_mem_erase hk)]
  simp only [Function.update_self] at hnew
  unfold tally
  rw [hrest] at hnew
  linarith

@[simp] theorem tally_const (weight : ρ → ℤ) (x : ρ) (hx : weight x = 0) :
    tally weight (fun _ : ι => x) = 0 := by
  simp [tally, hx]

theorem tally_nonneg {weight : ρ → ℤ} (hw : ∀ x, 0 ≤ weight x) (role : ι → ρ) :
    0 ≤ tally weight role := Finset.sum_nonneg fun i _ => hw (role i)

theorem tally_add (f g : ρ → ℤ) (role : ι → ρ) :
    tally (fun x => f x + g x) role = tally f role + tally g role := Finset.sum_add_distrib

theorem tally_sub (f g : ρ → ℤ) (role : ι → ρ) :
    tally (fun x => f x - g x) role = tally f role - tally g role := Finset.sum_sub_distrib _ _

theorem tally_le {f g : ρ → ℤ} (hfg : ∀ x, f x ≤ g x) {role : ι → ρ} :
    tally f role ≤ tally g role := Finset.sum_le_sum fun i _ => hfg (role i)

theorem weight_le_tally {weight : ρ → ℤ} (hw : ∀ x, 0 ≤ weight x) (role : ι → ρ) (i : ι) :
    weight (role i) ≤ tally weight role :=
  Finset.single_le_sum (f := fun k => weight (role k)) (fun k _ => hw (role k)) (Finset.mem_univ i)

theorem two_weights_le_tally [DecidableEq ι] {weight : ρ → ℤ} (hw : ∀ x, 0 ≤ weight x) (role : ι → ρ)
    {i j : ι} (hij : i ≠ j) : weight (role i) + weight (role j) ≤ tally weight role := by
  have hpair := Finset.sum_le_sum_of_subset_of_nonneg (Finset.subset_univ {i, j})
    (f := fun k => weight (role k)) (fun k _ _ => hw (role k))
  rwa [Finset.sum_pair hij] at hpair

/-- Weights of at most one that add up to the number of parties are all one. -/
theorem weight_eq_one_of_card_le {weight : ρ → ℤ} (hw : ∀ x, weight x ≤ 1) {role : ι → ρ}
    (hcard : (Fintype.card ι : ℤ) ≤ tally weight role) (i : ι) : weight (role i) = 1 := by
  have hones : ∑ _k : ι, (1 : ℤ) = Fintype.card ι := by simp
  have hle : ∑ k : ι, weight (role k) ≤ ∑ _k : ι, (1 : ℤ) := Finset.sum_le_sum fun k _ => hw (role k)
  have heq : ∑ k : ι, weight (role k) = ∑ _k : ι, (1 : ℤ) := le_antisymm hle (hones ▸ hcard)
  exact (Finset.sum_eq_sum_iff_of_le fun k _ => hw (role k)).mp heq i (Finset.mem_univ i)

/-- If no weight is more than one above another, then a tally of `k` for each
party means that every weight is at least `k`. -/
theorem le_weight_of_mul_card_le {weight : ρ → ℤ} {role : ι → ρ} {k : ℤ}
    (hnear : ∀ i j, weight (role i) ≤ weight (role j) + 1)
    (hcard : k * Fintype.card ι ≤ tally weight role) (j : ι) : k ≤ weight (role j) := by
  by_contra hlow
  have hle : ∀ i, weight (role i) ≤ k := by
    intro i
    have hi := hnear i j
    omega
  have hless : ∑ i, weight (role i) < ∑ _i : ι, k :=
    Finset.sum_lt_sum (fun i _ => hle i) ⟨j, Finset.mem_univ j, by omega⟩
  rw [Finset.sum_const, Finset.card_univ, nsmul_eq_mul, mul_comm] at hless
  exact absurd hcard (not_le.mpr hless)

theorem tally_eq_zero {weight : ρ → ℤ} {role : ι → ρ} (h : ∀ i, weight (role i) = 0) :
    tally weight role = 0 := Finset.sum_eq_zero fun i _ => h i

theorem tally_eq_card {weight : ρ → ℤ} {role : ι → ρ} (h : ∀ i, weight (role i) = 1) :
    tally weight role = Fintype.card ι := by
  simp [tally, h]

theorem tally_eq_mul_card {weight : ρ → ℤ} {role : ι → ρ} {k : ℤ} (h : ∀ i, weight (role i) = k) :
    tally weight role = k * Fintype.card ι := by
  simp [tally, h, mul_comm]

theorem tally_ite (p : ρ → Bool) (role : ι → ρ) :
    tally (fun x => if p x then 1 else 0) role = (Finset.univ.filter fun i => p (role i)).card :=
  Finset.sum_boole (fun i => p (role i) = true) Finset.univ

end Tally
