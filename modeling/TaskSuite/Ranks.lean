import Mathlib.Data.Finset.Card
import Mathlib.Data.Finset.Image
import Mathlib.Data.Fintype.Card
import Mathlib.Order.Monotone.Defs

/-! Families of values of which only the order matters. Finitely many values are in the
same order as their ranks, which are less than their number. -/
namespace Ranks

variable {ι κ α β γ : Type*} [LinearOrder α] [LinearOrder β] [LinearOrder γ]

/-- Any two values compare in the one family as in the other. -/
def SameOrder (v : ι → α) (w : ι → β) : Prop := ∀ i j, v i ≤ v j ↔ w i ≤ w j

theorem SameOrder.symm {v : ι → α} {w : ι → β} (h : SameOrder v w) : SameOrder w v :=
  fun i j => (h i j).symm

theorem SameOrder.lt_iff {v : ι → α} {w : ι → β} (h : SameOrder v w) (i j : ι) : v i < v j ↔ w i < w j := by
  rw [← not_le, ← not_le, h j i]

theorem SameOrder.eq_iff {v : ι → α} {w : ι → β} (h : SameOrder v w) (i j : ι) : v i = v j ↔ w i = w j := by
  rw [le_antisymm_iff, le_antisymm_iff, h i j, h j i]

theorem SameOrder.comp {v : ι → α} {w : ι → β} (h : SameOrder v w) (f : κ → ι) :
    SameOrder (fun k => v (f k)) fun k => w (f k) :=
  fun k l => h (f k) (f l)

theorem SameOrder.strictMono {v : ι → α} {w : ι → β} (h : SameOrder v w) {f : β → γ} (hf : StrictMono f) :
    SameOrder v fun i => f (w i) := by
  intro i j
  rw [h i j, hf.le_iff_le]

variable [Fintype ι]

def rank (v : ι → α) (i : ι) : ℕ := ((Finset.univ.image v).filter fun x => x < v i).card

theorem rank_lt_card (v : ι → α) (i : ι) : rank v i < Fintype.card ι := by
  have hsub : (Finset.univ.image v).filter (fun x => x < v i) ⊂ Finset.univ.image v := by
    rw [Finset.filter_ssubset]
    exact ⟨v i, Finset.mem_image_of_mem v (Finset.mem_univ i), lt_irrefl _⟩
  exact (Finset.card_lt_card hsub).trans_le Finset.card_image_le

theorem rank_mono (v : ι → α) {i j : ι} (h : v i ≤ v j) : rank v i ≤ rank v j := by
  apply Finset.card_le_card
  intro x hx
  rw [Finset.mem_filter] at hx ⊢
  exact ⟨hx.1, hx.2.trans_le h⟩

theorem rank_strictMono (v : ι → α) {i j : ι} (h : v i < v j) : rank v i < rank v j := by
  apply Finset.card_lt_card
  rw [Finset.ssubset_iff_of_subset]
  · refine ⟨v i, ?_, ?_⟩
    · rw [Finset.mem_filter]
      exact ⟨Finset.mem_image_of_mem v (Finset.mem_univ i), h⟩
    · rw [Finset.mem_filter]
      exact fun hi => lt_irrefl _ hi.2
  · intro x hx
    rw [Finset.mem_filter] at hx ⊢
    exact ⟨hx.1, hx.2.trans h⟩

theorem sameOrder_rank (v : ι → α) : SameOrder v (rank v) := by
  intro i j
  constructor
  · exact rank_mono v
  · intro hle
    by_contra hnot
    exact absurd hle (not_le.mpr (rank_strictMono v (not_le.mp hnot)))

end Ranks
