import TaskSuite.Machine
import Mathlib.Data.List.Basic
import Mathlib.Logic.Function.Basic

/-! What a set of running timers is, without saying how it is stored: each
timer is either not running or expires at a time point. A log of events is
judged by following it with this map. -/
namespace Timers
open Machine

abbrev TimePoint := Int

/-- `called t key` is the call of the callback of `t` while the entry that the
queue gave up has the given key. -/
inductive Event (τ : Type) where
  | started (t : τ) (point : TimePoint)
  | stopped (t : τ)
  | called (t : τ) (key : TimePoint)
  deriving DecidableEq, Repr

/-- The expiration points of the running timers. -/
abbrev Live (τ : Type) := τ → Option TimePoint

variable {τ : Type} [DecidableEq τ]

def Live.none : Live τ := fun _ => Option.none

/-- A timer is started while it is not running, stopped while it is, and called
back at the expiration point of the start that is still running. -/
def observe (live : Live τ) : Event τ → Option (Live τ)
  | .started t x => if live t = .none then some (Function.update live t (some x)) else .none
  | .stopped t => if live t = .none then .none else some (Function.update live t .none)
  | .called t key => if live t = some key then some (Function.update live t .none) else .none

def stops (live : Live τ) : List τ → List (Event τ)
  | [] => []
  | u :: us =>
      if live u = .none then stops live us
      else .stopped u :: stops (Function.update live u .none) us

def Live.stopAll (live : Live τ) (us : List τ) : Live τ := fun t => if t ∈ us then .none else live t

def Least (live : Live τ) (now : TimePoint) : Prop :=
  (∃ t, live t = some now) ∧ ∀ t x, live t = some x → now ≤ x

/-- No timer due at `now` is stopped by the callback of another one. -/
def Undisturbed (callBack : τ → List τ) (now : TimePoint) (live : Live τ) : Prop :=
  ∀ t u, live t = some now → u ∈ callBack t → u ≠ t → live u ≠ some now

/-- Timers that expire at `now` are called back one after the other, in any
order, until none is left. A callback stops the timers that `callBack` lists. -/
inductive Fires (callBack : τ → List τ) (now : TimePoint) :
    Live τ → List (Event τ) → Live τ → Prop
  | done {live : Live τ} : (∀ t, live t ≠ some now) → Fires callBack now live [] live
  | fire {live live' : Live τ} {t : τ} {rest : List (Event τ)} : live t = some now →
      Fires callBack now (Live.stopAll (Function.update live t .none) (callBack t)) rest live' →
      Fires callBack now live
        (.called t now :: (stops (Function.update live t .none) (callBack t) ++ rest)) live'

section Stops
variable {live : Live τ} {us : List τ}

theorem mem_stops {e : Event τ} :
    e ∈ stops live us ↔ ∃ u ∈ us, live u ≠ .none ∧ e = .stopped u := by
  induction us generalizing live with
  | nil => simp [stops]
  | cons u us ih =>
      simp only [stops]
      split_ifs with hu
      · simp [ih, hu]
      · simp only [List.mem_cons, ih, exists_eq_or_imp]
        constructor
        · rintro (he | ⟨v, hv, hlive, he⟩)
          · exact .inl ⟨hu, he⟩
          · refine .inr ⟨v, hv, ?_, he⟩
            intro hnone
            by_cases hvu : v = u
            · exact hu (hvu ▸ hnone)
            · exact hlive (by rw [Function.update_of_ne hvu, hnone])
        · rintro (⟨-, he⟩ | ⟨v, hv, hlive, he⟩)
          · exact .inl he
          · by_cases hvu : v = u
            · exact .inl (hvu ▸ he)
            · exact .inr ⟨v, hv, by rwa [Function.update_of_ne hvu], he⟩

theorem stopAll_cons_of_none {u : τ} (h : live u = .none) :
    live.stopAll (u :: us) = live.stopAll us := by
  funext t
  simp only [Live.stopAll, List.mem_cons]
  by_cases htu : t = u
  · subst htu
    simp [h]
  · simp [htu]

theorem stopAll_cons {u : τ} :
    live.stopAll (u :: us) = Live.stopAll (Function.update live u .none) us := by
  funext t
  simp only [Live.stopAll, List.mem_cons]
  by_cases htu : t = u
  · subst htu
    simp
  · simp [htu]

@[simp] theorem stopAll_nil : live.stopAll [] = live := by
  funext t
  simp [Live.stopAll]

theorem stops_cons {u : τ} :
    stops live (u :: us) = stops live [u] ++ stops (live.stopAll [u]) us := by
  by_cases hu : live u = .none
  · rw [stopAll_cons_of_none hu, stopAll_nil]
    simp [stops, hu]
  · rw [stopAll_cons, stopAll_nil]
    simp [stops, hu]

theorem stopAll_singleton_stopAll {u : τ} :
    (live.stopAll [u]).stopAll us = live.stopAll (u :: us) := by
  rw [stopAll_cons, stopAll_cons, stopAll_nil]

theorem run_stops : run observe live (stops live us) = some (live.stopAll us) := by
  induction us generalizing live with
  | nil => rfl
  | cons u us ih =>
      simp only [stops]
      split_ifs with hu
      · rw [ih, stopAll_cons_of_none hu]
      · refine run_cons.mpr ⟨Function.update live u .none, ?_, ?_⟩
        · simp [observe, hu]
        · rw [ih, stopAll_cons]

theorem stopAll_eq_some {t : τ} {x : TimePoint} :
    live.stopAll us t = some x ↔ t ∉ us ∧ live t = some x := by
  by_cases ht : t ∈ us <;> simp [Live.stopAll, ht]

theorem live_of_callBack {t u : τ} {x : TimePoint}
    (h : Live.stopAll (Function.update live t .none) us u = some x) : u ≠ t ∧ live u = some x := by
  have hu := (stopAll_eq_some.mp h).2
  by_cases hut : u = t
  · subst hut
    rw [Function.update_self] at hu
    cases hu
  · rw [Function.update_of_ne hut] at hu
    exact ⟨hut, hu⟩

theorem Undisturbed.callBack {callBack : τ → List τ} {now : TimePoint}
    (h : Undisturbed callBack now live) (t : τ) :
    Undisturbed callBack now (Live.stopAll (Function.update live t .none) (callBack t)) :=
  fun v w hv hw hwv hlive =>
    h v w (live_of_callBack hv).2 hw hwv (live_of_callBack hlive).2

end Stops

namespace Fires
variable {callBack : τ → List τ} {now : TimePoint} {live live' : Live τ} {new : List (Event τ)}

/-- A round of calls is a legal continuation of the log. -/
theorem run_observe (h : Fires callBack now live new live') :
    run observe live new = some live' := by
  induction h with
  | done _ => rfl
  | @fire live live' t rest ht _ ih =>
      refine run_cons.mpr ⟨Function.update live t .none, by simp [observe, ht], ?_⟩
      exact run_append.mpr ⟨_, run_stops, ih⟩

theorem live_of_mem_stopped (h : Fires callBack now live new live') {t : τ}
    (ht : .stopped t ∈ new) : live t ≠ .none := by
  induction h with
  | done _ => cases ht
  | @fire live live' u rest hu _ ih =>
      rcases List.mem_cons.mp ht with hhead | ht
      · cases hhead
      · rcases List.mem_append.mp ht with hs | hr
        · obtain ⟨v, -, hv, he⟩ := mem_stops.mp hs
          cases he
          intro hnone
          refine hv ?_
          by_cases htu : t = u
          · rw [htu, Function.update_self]
          · rw [Function.update_of_ne htu, hnone]
        · intro hnone
          refine ih hr ?_
          simp only [Live.stopAll]
          split_ifs
          · rfl
          · by_cases htu : t = u
            · rw [htu, Function.update_self]
            · rw [Function.update_of_ne htu, hnone]

/-- The timers called back are those due at `now`, without the ones that an
earlier callback of the same round stopped. -/
theorem mem_called_iff (h : Fires callBack now live new live') {t : τ} {key : TimePoint} :
    .called t key ∈ new ↔ key = now ∧ live t = some now ∧ .stopped t ∉ new := by
  induction h with
  | done hnone => simp [hnone t]
  | @fire live live' u rest hu hrest ih =>
      have hnot : .called t key ∉ stops (Function.update live u .none) (callBack u) := by
        intro hs
        obtain ⟨v, -, -, he⟩ := mem_stops.mp hs
        cases he
      simp only [List.mem_cons, List.mem_append, Event.called.injEq, reduceCtorEq, false_or,
        hnot, ih, not_or]
      by_cases htu : t = u
      · subst htu
        have hs : .stopped t ∉ stops (Function.update live t .none) (callBack t) := by
          intro hs
          obtain ⟨v, -, hv, he⟩ := mem_stops.mp hs
          cases he
          exact hv (Function.update_self ..)
        have hgone : Live.stopAll (Function.update live t .none) (callBack t) t = .none := by
          simp [Live.stopAll]
        have hr : .stopped t ∉ rest := fun hr => hrest.live_of_mem_stopped hr hgone
        simp [hu, hs, hr, hgone]
      · have hstop : .stopped t ∈ stops (Function.update live u .none) (callBack u) ↔
            t ∈ callBack u ∧ live t ≠ .none := by
          rw [mem_stops]
          constructor
          · rintro ⟨v, hv, hlive, he⟩
            cases he
            exact ⟨hv, by rwa [Function.update_of_ne htu] at hlive⟩
          · rintro ⟨hv, hlive⟩
            exact ⟨t, hv, by rwa [Function.update_of_ne htu], rfl⟩
        rw [stopAll_eq_some, Function.update_of_ne htu, hstop]
        simp only [htu, false_and, false_or]
        constructor
        · rintro ⟨hk, ⟨hv, hl⟩, hr⟩
          exact ⟨hk, hl, fun hs => hv hs.1, hr⟩
        · rintro ⟨hk, hl, hs, hr⟩
          refine ⟨hk, ⟨fun hv => hs ⟨hv, ?_⟩, hl⟩, hr⟩
          rw [hl]
          exact Option.some_ne_none now

theorem not_mem_stopped (h : Fires callBack now live new live')
    (hu : Undisturbed callBack now live) {t : τ} (ht : live t = some now) : .stopped t ∉ new := by
  induction h with
  | done hnone => exact absurd ht (hnone t)
  | @fire live live' v rest hv hrest ih =>
      intro hmem
      rcases List.mem_append.mp ((List.mem_cons.mp hmem).resolve_left nofun) with hs | hr
      · obtain ⟨w, hw, hlive, he⟩ := mem_stops.mp hs
        cases he
        have htv : t ≠ v := by
          rintro rfl
          exact hlive (Function.update_self ..)
        exact hu v t hv hw htv ht
      · have hnext := hrest.live_of_mem_stopped hr
        obtain ⟨x, hx⟩ := Option.ne_none_iff_exists'.mp hnext
        have hxt := (live_of_callBack hx).2
        rw [ht] at hxt
        rw [← Option.some.inj hxt] at hx
        exact ih (hu.callBack v) hx hr

theorem mem_called_iff_of_undisturbed (h : Fires callBack now live new live')
    (hu : Undisturbed callBack now live) {t : τ} {key : TimePoint} :
    .called t key ∈ new ↔ key = now ∧ live t = some now := by
  rw [h.mem_called_iff]
  constructor
  · rintro ⟨hk, ht, -⟩
    exact ⟨hk, ht⟩
  · rintro ⟨hk, ht⟩
    exact ⟨hk, ht, h.not_mem_stopped hu ht⟩

theorem eq_some_iff (h : Fires callBack now live new live') (hu : Undisturbed callBack now live)
    {t : τ} {x : TimePoint} : live' t = some x ↔
      live t = some x ∧ x ≠ now ∧ ∀ u, live u = some now → t ∉ callBack u := by
  induction h with
  | @done live hnone =>
      constructor
      · intro ht
        refine ⟨ht, ?_, fun u hlive => absurd hlive (hnone u)⟩
        rintro rfl
        exact hnone t ht
      · exact And.left
  | @fire live live' v rest hv hrest ih =>
      rw [ih (hu.callBack v)]
      constructor
      · rintro ⟨ht, hx, hall⟩
        refine ⟨(live_of_callBack ht).2, hx, fun u hlive => ?_⟩
        by_cases huv : u = v
        · rw [huv]
          exact (stopAll_eq_some.mp ht).1
        · refine hall u (stopAll_eq_some.mpr ⟨fun hmem => hu v u hv hmem huv hlive, ?_⟩)
          rw [Function.update_of_ne huv]
          exact hlive
      · rintro ⟨ht, hx, hall⟩
        have htv : t ≠ v := by
          rintro rfl
          rw [hv] at ht
          exact hx (Option.some.inj ht).symm
        refine ⟨stopAll_eq_some.mpr ⟨hall v hv, ?_⟩, hx, fun u hlive => ?_⟩
        · rw [Function.update_of_ne htv]
          exact ht
        · exact hall u (live_of_callBack hlive).2

/-- Two implementations that call back the same timers, in whatever order,
leave the same timers running. -/
theorem live_unique {new₁ new₂ : List (Event τ)} {live₁ live₂ : Live τ}
    (h₁ : Fires callBack now live new₁ live₁) (h₂ : Fires callBack now live new₂ live₂)
    (hu : Undisturbed callBack now live) : live₁ = live₂ := by
  funext t
  ext x
  rw [h₁.eq_some_iff hu, h₂.eq_some_iff hu]

/-- The timers that are left are those that were neither due nor stopped. -/
theorem left_iff (h : Fires callBack now live new live') {t : τ} {x : TimePoint} :
    live' t = some x ↔ live t = some x ∧ x ≠ now ∧ .stopped t ∉ new := by
  induction h with
  | @done live hnone =>
      have hne : live t = some x → x ≠ now := by
        rintro ht rfl
        exact hnone t ht
      simpa using hne
  | @fire live live' u rest hu hrest ih =>
      rw [ih, stopAll_eq_some, List.mem_cons, List.mem_append, mem_stops]
      by_cases htu : t = u
      · subst htu
        rw [Function.update_self, hu, Option.some.injEq]
        constructor
        · rintro ⟨⟨-, hnone⟩, -⟩
          cases hnone
        · rintro ⟨rfl, hne, -⟩
          exact absurd rfl hne
      · rw [Function.update_of_ne htu]
        constructor
        · rintro ⟨⟨hnot, ht⟩, hx, hr⟩
          refine ⟨ht, hx, ?_⟩
          rintro (heq | ⟨v, hv, -, heq⟩ | hmem)
          · cases heq
          · cases heq
            exact hnot hv
          · exact hr hmem
        · rintro ⟨ht, hx, hnot⟩
          refine ⟨⟨fun hmem => hnot (.inr (.inl ⟨t, hmem, ?_, rfl⟩)), ht⟩, hx,
            fun hr => hnot (.inr (.inr hr))⟩
          rw [Function.update_of_ne htu, ht]
          exact Option.some_ne_none x

end Fires

end Timers
