import TaskSuite.Machine
import Mathlib.Data.List.Infix

/-! A machine that is compared, step by step, with a simpler one: a map takes the
states of the first to those of the second, and both get the same labels. -/
namespace Machine

variable {σ τ α : Type*} (step : σ → α → Option σ) (spec : τ → α → Option τ) (view : σ → τ)

/-- Up to every point of `as` the two machines accept the same labels and end in
states that the map takes to each other. -/
def Tracks (s : σ) (as : List α) : Prop :=
  ∀ front, front <+: as → (run step s front).map view = run spec (view s) front

variable {step spec view} {s : σ} {a : α} {as : List α}

theorem tracks_nil : Tracks step spec view s [] := by
  intro front hfront
  rw [List.prefix_nil.mp hfront]
  rfl

theorem tracks_cons : Tracks step spec view s (a :: as) ↔
    (step s a).map view = spec (view s) a ∧
      ∀ t, step s a = some t → Tracks step spec view t as := by
  constructor
  · intro h
    have hfirst : (step s a).map view = spec (view s) a := by
      have hone := h [a] (List.prefix_cons_inj a |>.mpr List.nil_prefix)
      simpa [run] using hone
    refine ⟨hfirst, ?_⟩
    intro t ht front hfront
    have hmore := h (a :: front) ((List.prefix_cons_inj a).mpr hfront)
    rw [ht] at hfirst
    simpa [run, ht, ← hfirst] using hmore
  · rintro ⟨hfirst, hrest⟩ front hfront
    cases front with
    | nil => rfl
    | cons b front =>
        obtain ⟨rfl, htail⟩ := List.cons_prefix_cons.mp hfront
        cases ht : step s b with
        | none =>
            rw [ht] at hfirst
            simp [run, ht, ← hfirst]
        | some t =>
            rw [ht] at hfirst
            have hmore := hrest t ht front htail
            simpa [run, ht, ← hfirst] using hmore

/-- If a step is treated alike exactly when it is guarded, the machines stay together
exactly as long as the steps are guarded. -/
theorem tracks_iff_along {guard : σ → α → Prop} {I : σ → Prop}
    (hkeep : ∀ s a t, I s → guard s a → step s a = some t → I t)
    (hsame : ∀ s a, I s → guard s a → (step s a).map view = spec (view s) a)
    (hbreak : ∀ s a, I s → ¬ guard s a → (step s a).map view ≠ spec (view s) a)
    (hs : I s) : Tracks step spec view s as ↔ Along step guard s as := by
  induction as generalizing s with
  | nil => exact ⟨fun _ => trivial, fun _ => tracks_nil⟩
  | cons a as ih =>
      rw [tracks_cons]
      constructor
      · rintro ⟨hfirst, hrest⟩
        have hg : guard s a := by
          by_contra hng
          exact hbreak s a hs hng hfirst
        exact ⟨hg, fun t ht => (ih (hkeep s a t hs hg ht)).mp (hrest t ht)⟩
      · rintro ⟨hg, hrest⟩
        exact ⟨hsame s a hs hg, fun t ht => (ih (hkeep s a t hs hg ht)).mpr (hrest t ht)⟩

end Machine
