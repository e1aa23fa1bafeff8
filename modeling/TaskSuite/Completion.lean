import TaskSuite.Machine
import Mathlib.Algebra.BigOperators.Group.Finset.Basic
import Mathlib.Algebra.Order.BigOperators.Group.Finset
import Mathlib.Data.Fintype.Basic

/-! Systems that come to an end whichever steps they take. A party that spins is
one whose step is refused, so a state that accepts no label is a deadlock unless it
is one of the final states. -/
namespace Machine

variable {σ α : Type*} (step : σ → α → Option σ)

def Stuck (s : σ) : Prop := ∀ a, step s a = none

/-- The runs from `s` have a bounded length, and those that cannot be continued
have ended in a final state. -/
structure Completes (final : σ → Prop) (s : σ) : Prop where
  bounded : ∃ n, ∀ as u, run step s as = some u → as.length ≤ n
  final_of_stuck : ∀ as u, run step s as = some u → Stuck step u → final u

variable {step} {final I : σ → Prop} {measure : σ → ℕ}

/-- Each step uses up some of the measure. -/
theorem run_length_le (hkeep : ∀ s a t, I s → step s a = some t → I t)
    (hless : ∀ s a t, I s → step s a = some t → measure t < measure s)
    {s u : σ} {as : List α} (hs : I s) (hr : run step s as = some u) :
    as.length + measure u ≤ measure s := by
  induction as generalizing s with
  | nil =>
      cases hr
      simp
  | cons a as ih =>
      obtain ⟨t, ht, hu⟩ := run_cons.mp hr
      have hrest := ih (hkeep s a t hs ht) hu
      have hfirst := hless s a t hs ht
      rw [List.length_cons]
      omega

/-- The rule for termination: an invariant, a measure that every step lowers, and a
step that can be done in every state that is not final. -/
theorem completes (hkeep : ∀ s a t, I s → step s a = some t → I t)
    (hless : ∀ s a t, I s → step s a = some t → measure t < measure s)
    (hmove : ∀ s, I s → ¬ final s → ∃ a t, step s a = some t) {s : σ} (hs : I s) :
    Completes step final s where
  bounded := by
    refine ⟨measure s, ?_⟩
    intro as u hr
    have hlen := run_length_le hkeep hless hs hr
    omega
  final_of_stuck := by
    intro as u hr hstuck
    by_contra hfinal
    obtain ⟨a, t, ht⟩ := hmove u (invariant hkeep hs hr) hfinal
    rw [hstuck a] at ht
    cases ht

theorem Completes.extends {s u : σ} {as : List α} (h : Completes step final s)
    (hr : run step s as = some u) : ∃ bs v, run step u bs = some v ∧ final v := by
  obtain ⟨n, hn⟩ := h.bounded
  obtain ⟨k, hk⟩ : ∃ k, n - as.length = k := ⟨_, rfl⟩
  induction k generalizing as u with
  | zero =>
      refine ⟨[], u, rfl, h.final_of_stuck as u hr ?_⟩
      intro a
      rw [Option.eq_none_iff_forall_ne_some]
      intro t ht
      have hlen := hn (as ++ [a]) t (run_append.mpr ⟨u, hr, run_cons.mpr ⟨t, ht, rfl⟩⟩)
      rw [List.length_append, List.length_singleton] at hlen
      omega
  | succ k ih =>
      by_cases hstuck : Stuck step u
      · exact ⟨[], u, rfl, h.final_of_stuck as u hr hstuck⟩
      · simp only [Stuck, not_forall] at hstuck
        obtain ⟨a, ha⟩ := hstuck
        obtain ⟨t, ht⟩ := Option.ne_none_iff_exists'.mp ha
        have hr' : run step s (as ++ [a]) = some t :=
          run_append.mpr ⟨u, hr, run_cons.mpr ⟨t, ht, rfl⟩⟩
        have hlen : n - (as ++ [a]).length = k := by
          rw [List.length_append, List.length_singleton]
          omega
        obtain ⟨bs, v, hv, hfinal⟩ := ih hr' hlen
        exact ⟨a :: bs, v, run_cons.mpr ⟨t, ht, hv⟩, hfinal⟩

/-! What some run leads to. -/

variable (step) in
def Reaches (s u : σ) : Prop := ∃ as, run step s as = some u

theorem Reaches.refl (s : σ) : Reaches step s s := ⟨[], rfl⟩

theorem Reaches.head {s t u : σ} {a : α} (ha : step s a = some t) (h : Reaches step t u) :
    Reaches step s u := by
  obtain ⟨as, hr⟩ := h
  exact ⟨a :: as, run_cons.mpr ⟨t, ha, hr⟩⟩

theorem Reaches.trans {s t u : σ} (hst : Reaches step s t) (htu : Reaches step t u) :
    Reaches step s u := by
  obtain ⟨as, has⟩ := hst
  obtain ⟨bs, hbs⟩ := htu
  exact ⟨as ++ bs, run_append.mpr ⟨t, has, hbs⟩⟩

/-! Measures that are put together from those of the parties. -/

theorem sum_update_lt {ι ρ : Type*} [Fintype ι] [DecidableEq ι] (measure : ι → ρ → ℕ) {role : ι → ρ}
    {i : ι} {x : ρ} (hless : measure i x < measure i (role i)) :
    ∑ k, measure k (Function.update role i x k) < ∑ k, measure k (role k) := by
  apply Finset.sum_lt_sum
  · intro k _
    by_cases hk : k = i
    · subst hk
      rw [Function.update_self]
      exact hless.le
    · rw [Function.update_of_ne hk]
  · refine ⟨i, Finset.mem_univ i, ?_⟩
    rwa [Function.update_self]

/-- Two measures in one, where a step that lowers the first may do anything to the
second, as long as that stays below `most`. -/
theorem two_measures_lt {most a b c d : ℕ} (hc : c ≤ most) (h : a < b ∨ a = b ∧ c < d) :
    (most + 1) * a + c < (most + 1) * b + d := by
  rcases h with hab | ⟨rfl, hcd⟩
  · have hstep : (most + 1) * (a + 1) ≤ (most + 1) * b := Nat.mul_le_mul_left _ hab
    rw [Nat.mul_succ] at hstep
    omega
  · omega

end Machine
