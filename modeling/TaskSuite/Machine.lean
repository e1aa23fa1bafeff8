import Mathlib.Data.Option.Basic
import Mathlib.Logic.Basic
import Mathlib.Logic.Function.Basic

/-! Partial step functions and their runs. A label carries every choice the
environment makes, so one partial function also covers nondeterministic
systems. A step that is refused returns `none` and ends the run. -/
namespace Machine

variable {σ α : Type*} (step : σ → α → Option σ)

/-- The state after all labels, if every one of them is accepted. -/
def run : σ → List α → Option σ
  | s, [] => some s
  | s, a :: as => (step s a).bind fun t => run t as

/-- Every step that is actually taken meets `guard` in the state it starts from. -/
def Along (guard : σ → α → Prop) : σ → List α → Prop
  | _, [] => True
  | s, a :: as => guard s a ∧ ∀ t, step s a = some t → Along guard t as

/-- `P` holds in the first state and in every state the labels lead to. -/
def Throughout (P : σ → Prop) : σ → List α → Prop
  | s, [] => P s
  | s, a :: as => P s ∧ ∀ t, step s a = some t → Throughout P t as

variable {step}

@[simp] theorem run_nil (s : σ) : run step s [] = some s := rfl

theorem run_cons {s : σ} {a : α} {as : List α} {u : σ} :
    run step s (a :: as) = some u ↔ ∃ t, step s a = some t ∧ run step t as = some u :=
  Option.bind_eq_some_iff

theorem run_append {s u : σ} {as bs : List α} :
    run step s (as ++ bs) = some u ↔ ∃ t, run step s as = some t ∧ run step t bs = some u := by
  induction as generalizing s with
  | nil => simp
  | cons a as ih =>
      simp only [List.cons_append, run_cons, ih]
      constructor
      · rintro ⟨t, ht, v, hv, hu⟩
        exact ⟨v, ⟨t, ht, hv⟩, hu⟩
      · rintro ⟨v, ⟨t, ht, hv⟩, hu⟩
        exact ⟨t, ht, v, hv, hu⟩

theorem run_eq_none {s : σ} {a : α} {as : List α} (ha : a ∈ as) (hrefused : ∀ t, step t a = none) :
    run step s as = none := by
  obtain ⟨front, rest, rfl⟩ := List.append_of_mem ha
  rw [Option.eq_none_iff_forall_ne_some]
  intro u hu
  obtain ⟨t, -, hrest⟩ := run_append.mp hu
  obtain ⟨v, hv, -⟩ := run_cons.mp hrest
  rw [hrefused t] at hv
  cases hv

/-- An invariant that only guarded steps preserve holds at the end of a guarded run. -/
theorem invariant_along {guard : σ → α → Prop} {I : σ → Prop}
    (hstep : ∀ s a t, I s → guard s a → step s a = some t → I t)
    {s u : σ} {as : List α} (hs : I s) (hg : Along step guard s as)
    (hr : run step s as = some u) : I u := by
  induction as generalizing s with
  | nil => exact Option.some.inj hr ▸ hs
  | cons a as ih =>
      obtain ⟨t, ht, hu⟩ := run_cons.mp hr
      exact ih (hstep s a t hs hg.1 ht) (hg.2 t ht) hu

/-- If a guarded step from a state with the invariant is always taken, and keeps
it, then a guarded run goes through. -/
theorem progress_along {guard : σ → α → Prop} {I : σ → Prop}
    (hstep : ∀ s a, I s → guard s a → ∃ t, step s a = some t ∧ I t)
    {s : σ} {as : List α} (hs : I s) (hg : Along step guard s as) :
    ∃ u, run step s as = some u ∧ I u := by
  induction as generalizing s with
  | nil => exact ⟨s, rfl, hs⟩
  | cons a as ih =>
      obtain ⟨t, ht, hI⟩ := hstep s a hs hg.1
      obtain ⟨u, hu, hI⟩ := ih hI (hg.2 t ht)
      exact ⟨u, run_cons.mpr ⟨t, ht, hu⟩, hI⟩

/-- Forward simulation: what a machine does, another one that is related to it step
by step can do as well. -/
theorem run_simulates {ρ : Type*} {next : ρ → α → Option ρ} {R : σ → ρ → Prop}
    (hstep : ∀ s r a r', R s r → next r a = some r' → ∃ t, step s a = some t ∧ R t r')
    {s : σ} {r u : ρ} {as : List α} (hs : R s r) (hr : run next r as = some u) :
    ∃ t, run step s as = some t ∧ R t u := by
  induction as generalizing s r with
  | nil => exact ⟨s, rfl, Option.some.inj hr ▸ hs⟩
  | cons a as ih =>
      obtain ⟨r', hr', hmore⟩ := run_cons.mp hr
      obtain ⟨s', hs', hrel⟩ := hstep s r a r' hs hr'
      obtain ⟨t, ht, hend⟩ := ih hrel hmore
      exact ⟨t, run_cons.mpr ⟨s', hs', ht⟩, hend⟩

theorem along_of_step {guard : σ → α → Prop} {s t : σ} {a : α} {as : List α} (hg : guard s a)
    (hs : step s a = some t) (h : Along step guard t as) : Along step guard s (a :: as) := by
  refine ⟨hg, fun u hu => ?_⟩
  rw [hs] at hu
  exact Option.some.inj hu ▸ h

instance decidableAlong (guard : σ → α → Prop) [∀ s a, Decidable (guard s a)] :
    ∀ (s : σ) (as : List α), Decidable (Along step guard s as)
  | _, [] => isTrue trivial
  | s, a :: as =>
      match h : step s a with
      | none => decidable_of_iff (guard s a) ⟨fun hg => ⟨hg, by simp [h]⟩, fun hg => hg.1⟩
      | some t =>
          have := decidableAlong guard t as
          decidable_of_iff (guard s a ∧ Along step guard t as)
            ⟨fun hg => along_of_step hg.1 h hg.2, fun hg => ⟨hg.1, hg.2 t h⟩⟩

theorem along_true (s : σ) (as : List α) : Along step (fun _ _ => True) s as := by
  induction as generalizing s with
  | nil => trivial
  | cons a as ih => exact ⟨trivial, fun t _ => ih t⟩

/-- The plain invariant rule: initially true and preserved by every step. -/
theorem invariant {I : σ → Prop} (hstep : ∀ s a t, I s → step s a = some t → I t)
    {s u : σ} {as : List α} (hs : I s) (hr : run step s as = some u) : I u :=
  invariant_along (fun s a t hs _ => hstep s a t hs) hs (along_true s as) hr

/-- The invariant rule for what is said about a state together with the labels that
led to it. -/
theorem invariant_history {I : List α → σ → Prop}
    (hstep : ∀ as u a t, I as u → step u a = some t → I (as ++ [a]) t)
    {front as : List α} {s u : σ} (hs : I front s) (hr : run step s as = some u) : I (front ++ as) u := by
  induction as generalizing front s with
  | nil =>
      rw [List.append_nil]
      exact Option.some.inj hr ▸ hs
  | cons a as ih =>
      obtain ⟨t, ht, hu⟩ := run_cons.mp hr
      rw [List.append_cons]
      exact ih (hstep front s a t hs ht) hu

/-- If a step keeps `I` exactly when it is guarded, and `P` tells the two
outcomes apart, then `P` holds throughout the run exactly when every step of
it is guarded. -/
theorem throughout_iff_along {guard : σ → α → Prop} {I P : σ → Prop}
    (hP : ∀ s, I s → P s)
    (hkeep : ∀ s a t, I s → guard s a → step s a = some t → I t)
    (hbreak : ∀ s a, I s → ¬ guard s a → ∃ t, step s a = some t ∧ ¬ P t)
    {s : σ} (hs : I s) (as : List α) :
    Throughout step P s as ↔ Along step guard s as := by
  induction as generalizing s with
  | nil => exact ⟨fun _ => trivial, fun _ => hP s hs⟩
  | cons a as ih =>
      constructor
      · rintro ⟨_, hnext⟩
        have hg : guard s a := by
          by_contra hng
          obtain ⟨t, ht, hnP⟩ := hbreak s a hs hng
          have hthere := hnext t ht
          cases as with
          | nil => exact hnP hthere
          | cons b bs => exact hnP hthere.1
        exact ⟨hg, fun t ht => (ih (hkeep s a t hs hg ht)).mp (hnext t ht)⟩
      · rintro ⟨hg, hnext⟩
        exact ⟨hP s hs, fun t ht => (ih (hkeep s a t hs hg ht)).mpr (hnext t ht)⟩

/-! A family of parties, of which one changes its role. -/

section Update
variable {ι ρ : Type*} [DecidableEq ι] {P : ρ → Prop} {role : ι → ρ} {i : ι} {x : ρ}

theorem forall_update (hx : P x) (h : ∀ k, P (role k)) (k : ι) : P (Function.update role i x k) := by
  by_cases hk : k = i
  · subst hk
    rwa [Function.update_self]
  · rw [Function.update_of_ne hk]
    exact h k

theorem exists_update (h : ∃ k, P (role k)) (hi : P (role i) → P x) :
    ∃ k, P (Function.update role i x k) := by
  obtain ⟨k, hk⟩ := h
  refine ⟨k, ?_⟩
  by_cases hki : k = i
  · subst hki
    rw [Function.update_self]
    exact hi hk
  · rwa [Function.update_of_ne hki]

end Update

end Machine
