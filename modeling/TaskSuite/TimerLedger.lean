import TaskSuite.TimerAgreement

/-! What a program asks of its timers, read off its calls and not off what an
implementation makes of them: which timers run, in the order of their starts, and
which of them each call of `expire_next` has to call back. -/
namespace Timers
open Machine
open Tandem (Act)

variable {τ : Type}

/-- The running timers in the order of their starts, each with its expiration
point; the callback given with the last start of each timer; and the calls that
were due so far. -/
@[ext] structure Ledger (τ : Type) where
  running : List (τ × TimePoint)
  callBack : τ → List τ
  calls : List (τ × TimePoint)
  nodup : (running.map Prod.fst).Nodup

namespace Ledger

def empty : Ledger τ := ⟨[], fun _ => [], [], List.nodup_nil⟩

/-- The minimum of the expiration points. -/
def least (l : Ledger τ) : Option TimePoint := (l.running.map Prod.snd).min?

def due (l : Ledger τ) (now : TimePoint) : List τ := (l.running.filter (·.2 = now)).map Prod.fst

variable [DecidableEq τ]

def live (l : Ledger τ) : Live τ := fun t => (l.running.find? (·.1 = t)).map Prod.snd

def start (l : Ledger τ) (t : τ) (point : TimePoint) (callBack : List τ)
    (hnew : t ∉ l.running.map Prod.fst) : Ledger τ where
  running := l.running ++ [(t, point)]
  callBack := Function.update l.callBack t callBack
  calls := l.calls
  nodup := by
    rw [List.map_append]
    exact l.nodup.append (List.nodup_singleton t) (by simpa using hnew)

def without (l : Ledger τ) (us : List τ) : Ledger τ where
  running := l.running.filter (·.1 ∉ us)
  callBack := l.callBack
  calls := l.calls
  nodup := l.nodup.sublist (List.filter_sublist.map _)

/-- The timers that no longer run once those in the list have been called back:
these themselves, and the ones that their callbacks stop. -/
def gone (l : Ledger τ) (called : List τ) : List τ := called.flatMap fun t => t :: l.callBack t

/-- A timer whose turn has come is called back, unless an earlier callback of this
call stopped it. -/
def turn (l : Ledger τ) (called : List τ) (t : τ) : List τ :=
  if t ∈ l.gone called then called else called ++ [t]

/-- The timers that a call of `expire_next` at `now` has to call back. -/
def called (l : Ledger τ) (now : TimePoint) : List τ := (l.due now).foldl l.turn []

/-- What these calls leave, or the first of them. -/
def after (l : Ledger τ) (now : TimePoint) (called : List τ) : Ledger τ :=
  { l.without (l.gone called) with calls := l.calls ++ called.map (·, now) }

def expireNext (l : Ledger τ) (now : TimePoint) : Ledger τ := l.after now (l.called now)

/-- A call of the program; none for a start of a running timer, and for an
`expire_next` while no timer runs. -/
def step (l : Ledger τ) : Act τ → Option (Ledger τ)
  | .start t interval callBack now =>
      if hnew : t ∉ l.running.map Prod.fst then some (l.start t (now + interval) callBack hnew) else none
  | .stop t => some (l.without [t])
  | .expireNext => l.least.map l.expireNext

/-- The timers that run at some point of a call of `expire_next`: before its first
callback, or once a callback has stopped the first of its timers. -/
inductive Passes (l : Ledger τ) (now : TimePoint) : Live τ → Prop
  | first : Passes l now l.live
  | amid (done : List τ) (t : τ) (stopped : List τ) (hdone : done ++ [t] <+: l.called now)
      (hstopped : stopped <+: l.callBack t) :
      Passes l now (l.live.stopAll (l.gone done ++ t :: stopped))

/-- A timer that does not run after the first calls of a program, and is not
started again by the others, is not called back by these. -/
def StaysStopped (l : Ledger τ) (acts : List (Act τ)) : Prop :=
  ∀ front back l' t, acts = front ++ back → run step empty front = some l' → l'.live t = none →
    (∀ interval callBack now, .start t interval callBack now ∉ back) →
    ∃ later, l.calls = l'.calls ++ later ∧ ∀ key, (t, key) ∉ later

section Running
variable {l : Ledger τ} {t : τ} {x now : TimePoint}

theorem live_eq_some : l.live t = some x ↔ (t, x) ∈ l.running := by
  rw [live, Option.map_eq_some_iff]
  constructor
  · rintro ⟨⟨u, y⟩, hfind, rfl⟩
    obtain rfl : u = t := by simpa using List.find?_some hfind
    exact List.mem_of_find?_eq_some hfind
  · intro hmem
    cases hfind : l.running.find? (·.1 = t) with
    | none =>
        have hnot := List.find?_eq_none.mp hfind _ hmem
        simp at hnot
    | some p =>
        have hp : p.1 = t := by simpa using List.find?_some hfind
        have heq := List.inj_on_of_nodup_map l.nodup (List.mem_of_find?_eq_some hfind) hmem hp
        exact ⟨p, rfl, congrArg Prod.snd heq⟩

theorem live_eq_none : l.live t = none ↔ t ∉ l.running.map Prod.fst := by
  rw [Option.eq_none_iff_forall_ne_some]
  simp [live_eq_some]

omit [DecidableEq τ] in
theorem mem_due : t ∈ l.due x ↔ (t, x) ∈ l.running := by
  simp [due]

theorem live_start (hnew : t ∉ l.running.map Prod.fst) (x : TimePoint) (callBack : List τ) :
    (l.start t x callBack hnew).live = Function.update l.live t (some x) := by
  funext u
  ext y
  rw [live_eq_some]
  by_cases hut : u = t
  · subst hut
    rw [Function.update_self, Option.some.injEq]
    constructor
    · intro hmem
      rcases List.mem_append.mp hmem with hold | hlast
      · exact absurd (List.mem_map_of_mem hold) hnew
      · exact (congrArg Prod.snd (List.mem_singleton.mp hlast)).symm
    · rintro rfl
      exact List.mem_append_right _ (List.mem_singleton_self _)
  · rw [Function.update_of_ne hut, live_eq_some]
    simp [start, hut]

theorem live_without (us : List τ) : (l.without us).live = l.live.stopAll us := by
  funext t
  ext x
  rw [live_eq_some, stopAll_eq_some, live_eq_some]
  simp [without, and_comm]

theorem due_without (us : List τ) : (l.without us).due x = (l.due x).filter (· ∉ us) := by
  rw [due, due, List.filter_map, without, List.filter_filter, List.filter_filter]
  simp [Bool.and_comm]

theorem due_start (hnew : t ∉ l.running.map Prod.fst) (y : TimePoint) (callBack : List τ) :
    (l.start t y callBack hnew).due x = l.due x ++ if y = x then [t] else [] := by
  rw [due, start, List.filter_append, List.map_append, ← due]
  by_cases hy : y = x <;> simp [hy]

theorem live_after (done : List τ) : (l.after now done).live = l.live.stopAll (l.gone done) :=
  live_without (l.gone done)

theorem due_after (done : List τ) :
    (l.after now done).due x = (l.due x).filter (· ∉ l.gone done) :=
  due_without (l.gone done)

omit [DecidableEq τ] in
theorem gone_append (done more : List τ) : l.gone (done ++ more) = l.gone done ++ l.gone more :=
  List.flatMap_append

omit [DecidableEq τ] in
theorem gone_singleton (l : Ledger τ) (t : τ) : l.gone [t] = t :: l.callBack t :=
  List.flatMap_singleton ..

@[simp] theorem after_nil : l.after now [] = l := by
  ext1 <;> simp [after, without, gone]

theorem after_after (done more : List τ) :
    (l.after now done).after now more = l.after now (done ++ more) := by
  have hrunning : ∀ (l : Ledger τ) us, (l.after now us).running =
      l.running.filter (·.1 ∉ l.gone us) := fun _ _ => rfl
  have hgone : (l.after now done).gone more = l.gone more := rfl
  ext1
  · rw [hrunning, hrunning, hrunning, hgone, gone_append, List.filter_filter]
    simp [Bool.and_comm]
  · rfl
  · simp [after]

omit [DecidableEq τ] in
theorem least_spec (h : l.least = some now) :
    (∃ t, (t, now) ∈ l.running) ∧ ∀ t x, (t, x) ∈ l.running → now ≤ x := by
  obtain ⟨hmem, hle⟩ := List.min?_eq_some_iff.mp h
  obtain ⟨⟨t, x⟩, hp, rfl⟩ := List.mem_map.mp hmem
  exact ⟨⟨t, hp⟩, fun u y hu => hle y (List.mem_map_of_mem hu)⟩

theorem least_live (h : l.least = some now) : Least l.live now := by
  obtain ⟨⟨t, ht⟩, hle⟩ := least_spec h
  exact ⟨⟨t, live_eq_some.mpr ht⟩, fun u x hu => hle u x (live_eq_some.mp hu)⟩

end Running

/-! ### The calls of one round -/

section Called
variable {l : Ledger τ} {t : τ} {now : TimePoint} {done ts : List τ}

theorem prefix_foldl_turn (done ts : List τ) : done <+: ts.foldl l.turn done := by
  induction ts generalizing done with
  | nil => exact List.prefix_refl done
  | cons t ts ih =>
      refine List.IsPrefix.trans ?_ (ih (l.turn done t))
      rw [turn]
      split_ifs
      · exact List.prefix_refl done
      · exact List.prefix_append done [t]

theorem foldl_turn_filter (hgone : ∀ u ∈ l.gone done, u ∈ l.gone ts) (us : List τ) :
    (us.filter (· ∉ l.gone done)).foldl l.turn ts = us.foldl l.turn ts := by
  induction us generalizing ts with
  | nil => rfl
  | cons u us ih =>
      have hmore : ∀ v ∈ l.gone done, v ∈ l.gone (l.turn ts u) := by
        intro v hv
        rw [turn]
        split_ifs
        · exact hgone v hv
        · rw [gone_append]
          exact List.mem_append_left _ (hgone v hv)
      by_cases hu : u ∈ l.gone done
      · have hskip : l.turn ts u = ts := if_pos (hgone u hu)
        rw [List.filter_cons_of_neg (by simpa using hu), List.foldl_cons, hskip]
        exact ih hgone
      · rw [List.filter_cons_of_pos (by simpa using hu), List.foldl_cons, List.foldl_cons]
        exact ih hmore

theorem called_nodup (l : Ledger τ) (now : TimePoint) : (l.called now).Nodup := by
  suffices hfold : ∀ ts done : List τ, done.Nodup → (ts.foldl l.turn done).Nodup from
    hfold _ [] List.nodup_nil
  intro ts
  induction ts with
  | nil => exact fun done hdone => hdone
  | cons t ts ih =>
      intro done hdone
      refine ih _ ?_
      rw [turn]
      split_ifs with ht
      · exact hdone
      · have hnew : t ∉ done := fun hmem => ht (List.mem_flatMap.mpr ⟨t, hmem, List.mem_cons_self ..⟩)
        exact hdone.append (List.nodup_singleton t) (by simpa using hnew)

theorem mem_foldl_turn {u : τ} (h : u ∈ ts.foldl l.turn done) : u ∈ done ∨ u ∈ ts := by
  induction ts generalizing done with
  | nil => exact .inl h
  | cons t ts ih =>
      rcases ih h with hdone | hts
      · rw [turn] at hdone
        split_ifs at hdone
        · exact .inl hdone
        · rw [List.mem_append, List.mem_singleton] at hdone
          exact hdone.imp_right fun heq : u = t => heq ▸ List.mem_cons_self
      · exact .inr (List.mem_cons_of_mem t hts)

theorem mem_due_of_mem_called (h : t ∈ l.called now) : t ∈ l.due now :=
  (mem_foldl_turn h).resolve_left List.not_mem_nil

end Called

/-! ### Stopped timers -/

section Stopped
variable {l l' : Ledger τ} {t : τ} {a : Act τ} {acts : List (Act τ)}

theorem step_stopped (hs : l.step a = some l') (ht : l.live t = none)
    (ha : ∀ interval callBack now, a ≠ .start t interval callBack now) :
    l'.live t = none ∧ ∃ later, l'.calls = l.calls ++ later ∧ ∀ key, (t, key) ∉ later := by
  cases a with
  | start u interval callBack now =>
      obtain ⟨hnew, heq⟩ := Option.dite_none_right_eq_some.mp hs
      obtain rfl := Option.some.inj heq
      have htu : t ≠ u := fun htu => ha interval callBack now (htu ▸ rfl)
      rw [live_start, Function.update_of_ne htu]
      exact ⟨ht, [], (List.append_nil _).symm, fun key => List.not_mem_nil⟩
  | stop u =>
      obtain rfl := Option.some.inj hs
      rw [live_without]
      refine ⟨?_, [], (List.append_nil _).symm, fun key => List.not_mem_nil⟩
      simp [Live.stopAll, ht]
  | expireNext =>
      obtain ⟨now, -, rfl⟩ := Option.map_eq_some_iff.mp hs
      rw [expireNext, live_after]
      refine ⟨by simp [Live.stopAll, ht], (l.called now).map (·, now), rfl, fun key hkey => ?_⟩
      obtain ⟨u, hu, heq⟩ := List.mem_map.mp hkey
      obtain ⟨rfl, rfl⟩ := Prod.mk.inj heq
      have hrun := live_eq_some.mpr (mem_due.mp (mem_due_of_mem_called hu))
      rw [ht] at hrun
      cases hrun

theorem run_stopped (hs : run step l acts = some l') (ht : l.live t = none)
    (hacts : ∀ interval callBack now, .start t interval callBack now ∉ acts) :
    ∃ later, l'.calls = l.calls ++ later ∧ ∀ key, (t, key) ∉ later := by
  induction acts generalizing l with
  | nil =>
      obtain rfl := Option.some.inj hs
      exact ⟨[], (List.append_nil _).symm, fun key => List.not_mem_nil⟩
  | cons a acts ih =>
      obtain ⟨l₁, hstep, hrun⟩ := run_cons.mp hs
      obtain ⟨hlive, later₁, hcalls₁, hnot₁⟩ := step_stopped hstep ht fun interval callBack now heq =>
        hacts interval callBack now (heq ▸ List.mem_cons_self ..)
      obtain ⟨later₂, hcalls₂, hnot₂⟩ := ih hrun hlive fun interval callBack now hmem =>
        hacts interval callBack now (List.mem_cons_of_mem a hmem)
      refine ⟨later₁ ++ later₂, by rw [hcalls₂, hcalls₁, List.append_assoc], fun key hkey => ?_⟩
      exact (List.mem_append.mp hkey).elim (hnot₁ key) (hnot₂ key)

theorem staysStopped (hs : run step empty acts = some l) : l.StaysStopped acts := by
  rintro front back l' t rfl hfront ht hback
  obtain ⟨l₁, hfront', hrun⟩ := run_append.mp hs
  obtain rfl := Option.some.inj (hfront.symm.trans hfront')
  exact run_stopped hrun ht hback

end Stopped

end Ledger

end Timers
