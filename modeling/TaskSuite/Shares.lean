import Mathlib.Algebra.BigOperators.Group.Finset.Basic
import Mathlib.Algebra.Order.BigOperators.Group.Finset
import Mathlib.Algebra.Order.Group.Multiset
import Mathlib.Data.Fintype.Basic

/-! Things that are shared out over a finite family of parties. Which of them a party
has is read off its role; that nothing is had twice is one statement about all of them
together. -/
namespace Shares

variable {ι ρ β : Type*} [Fintype ι] {share : ρ → Multiset β} {role : ι → ρ}

def total (share : ρ → Multiset β) (role : ι → ρ) : Multiset β := ∑ i, share (role i)

@[simp] theorem mem_total {b : β} : b ∈ total share role ↔ ∃ i, b ∈ share (role i) := by
  simp [total, Multiset.mem_sum]

theorem total_const (share : ρ → Multiset β) (x : ρ) (hx : share x = 0) :
    total share (fun _ : ι => x) = 0 := by
  simp [total, hx]

variable [DecidableEq ι] {i j : ι} {x : ρ} {b : β}

theorem total_eq_add (share : ρ → Multiset β) (role : ι → ρ) (i : ι) :
    total share role = share (role i) + ∑ k ∈ Finset.univ.erase i, share (role k) :=
  (Finset.add_sum_erase Finset.univ (fun k => share (role k)) (Finset.mem_univ i)).symm

theorem total_update (share : ρ → Multiset β) (role : ι → ρ) (i : ι) (x : ρ) :
    total share (Function.update role i x) + share (role i) = total share role + share x := by
  rw [total_eq_add share role i, total_eq_add share _ i, Function.update_self]
  have hrest : ∑ k ∈ Finset.univ.erase i, share (Function.update role i x k) =
      ∑ k ∈ Finset.univ.erase i, share (role k) := by
    apply Finset.sum_congr rfl
    intro k hk
    rw [Function.update_of_ne (Finset.ne_of_mem_erase hk)]
  rw [hrest]
  rw [add_right_comm, add_comm (share x), add_right_comm]

theorem total_update_of_eq (h : share x = share (role i)) :
    total share (Function.update role i x) = total share role := by
  have hupdate := total_update share role i x
  rw [h] at hupdate
  exact add_right_cancel hupdate

theorem total_update_cons (h : share x = b ::ₘ share (role i)) :
    total share (Function.update role i x) = b ::ₘ total share role := by
  have hupdate := total_update share role i x
  rw [h, Multiset.add_cons, ← Multiset.cons_add] at hupdate
  exact add_right_cancel hupdate

theorem cons_total_update (h : share (role i) = b ::ₘ share x) :
    b ::ₘ total share (Function.update role i x) = total share role := by
  have hupdate := total_update share role i x
  rw [h, Multiset.add_cons, ← Multiset.cons_add] at hupdate
  exact add_right_cancel hupdate

theorem share_le_total (share : ρ → Multiset β) (role : ι → ρ) (i : ι) :
    share (role i) ≤ total share role := by
  rw [total_eq_add share role i]
  exact Multiset.le_add_right _ _

/-- What is there once has one owner. -/
theorem owner_unique (h : (total share role).Nodup) (hi : b ∈ share (role i))
    (hj : b ∈ share (role j)) : i = j := by
  by_contra hij
  rw [total_eq_add share role i, Multiset.nodup_add] at h
  refine Multiset.disjoint_left.mp h.2.2 hi ?_
  rw [Multiset.mem_sum]
  exact ⟨j, Finset.mem_erase.mpr ⟨Ne.symm hij, Finset.mem_univ j⟩, hj⟩

end Shares
