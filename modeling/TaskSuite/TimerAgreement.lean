import TaskSuite.TimerHeap
import TaskSuite.TimerMultimap

/-! The two reference implementations driven by one program, as `generate()`
does with `TEST_ALL_THREE`: each operation is done on implementation 0 first,
which leaves `last_time_point` for the asserts of implementation 1. -/
namespace Timers.Tandem
open Machine

inductive Act (τ : Type) where
  | start (t : τ) (interval : Int) (callBack : List τ) (now : TimePoint)
  | stop (t : τ)
  | expireNext

/-- The callbacks made in each call of `expire_next`, by implementation 0 and
by implementation 1. -/
abbrev Round (τ : Type) := List (τ × TimePoint) × List (τ × TimePoint)

variable {τ : Type} [DecidableEq τ]

structure State (Q : PriorityQueue TimePoint τ) where
  zero : Multimap.State τ
  one : Heap.State Q
  started : List τ
  rounds : List (Round τ)

variable {Q : PriorityQueue TimePoint τ}

def initial : State Q := ⟨Multimap.initial, Heap.initial, [], []⟩

def calls (events : List (Event τ)) : List (τ × TimePoint) :=
  events.filterMap fun e =>
    match e with
    | .called t key => some (t, key)
    | _ => none

def both (s : State Q) (op₀ : Multimap.State τ → Multimap.Result τ)
    (op₁ : Heap.State Q → Heap.Result Q) : Option (State Q) :=
  match op₀ s.zero with
  | .error _ => none
  | .ok zero =>
      match op₁ { s.one with lastTimePoint := zero.lastTimePoint } with
      | .error _ => none
      | .ok one => some { s with zero := zero, one := one }

def step (s : State Q) : Act τ → Option (State Q)
  | .start t interval callBack now =>
      (both s (Multimap.start · t interval callBack now) (Heap.start · t interval callBack now)).map
        fun s' => { s' with started := t :: s.started }
  | .stop t => both s (Multimap.stop · t) (Heap.stop · t)
  | .expireNext => (both s Multimap.expireNext Heap.expireNext).map fun s' =>
      { s' with rounds := s.rounds ++ [(calls (s'.zero.events.drop s.zero.events.length),
        calls (s'.one.events.drop s.one.events.length))] }

/-- A timer is started at most once, some timer runs at each `expire_next`, and
the callbacks it makes stop no timer that expires at the same point. -/
def Allowed (s : State Q) : Act τ → Prop
  | .start t _ _ _ => t ∉ s.started
  | .stop _ => True
  | .expireNext => (∃ t, s.zero.running t ≠ none) ∧
      ∀ now, Least s.zero.running now → Undisturbed s.zero.callBacks now s.zero.running

/-- The same timers were called back, all at one expiration point. -/
def Agree (r : Round τ) : Prop :=
  ∃ now, (∃ t, (t, now) ∈ r.1) ∧
    ∀ t key, ((t, key) ∈ r.1 ↔ (t, key) ∈ r.2) ∧ ((t, key) ∈ r.1 → key = now)

/-- Both implementations represent the same running timers, and the queue of
implementation 1 has entries of started timers only. -/
structure Sim (s : State Q) (live : Live τ) : Prop where
  zero : s.zero.Shows live
  one : Heap.Rep (Q.contents s.one.queue) s.one.timer live
  callBacks : s.one.callBacks = s.zero.callBacks
  queued : ∀ d ∈ Q.contents s.one.queue, d.2 ∈ s.started
  live_started : ∀ t, live t ≠ none → t ∈ s.started
  log₀ : run observe Live.none s.zero.events = some live
  log₁ : run observe Live.none s.one.events = some live
  agree : ∀ r ∈ s.rounds, Agree r

theorem sim_initial : Sim (initial : State Q) Live.none where
  zero := Multimap.rep_initial
  one := Heap.rep_initial
  callBacks := rfl
  queued d hd := by
    rw [initial, Heap.initial, Q.contents_empty] at hd
    exact absurd hd (Multiset.notMem_zero d)
  live_started t h := absurd rfl h
  log₀ := rfl
  log₁ := rfl
  agree r hr := by cases hr

section Step
variable {s : State Q} {live : Live τ}

omit [DecidableEq τ] in
theorem mem_calls {events : List (Event τ)} {t : τ} {key : TimePoint} :
    (t, key) ∈ calls events ↔ .called t key ∈ events := by
  simp only [calls, List.mem_filterMap]
  constructor
  · rintro ⟨e, he, hcall⟩
    cases e with
    | started u x => cases hcall
    | stopped u => cases hcall
    | called u k =>
        cases hcall
        exact he
  · intro he
    exact ⟨_, he, rfl⟩

omit [DecidableEq τ] in
theorem both_eq {op₀ : Multimap.State τ → Multimap.Result τ} {op₁ : Heap.State Q → Heap.Result Q}
    {zero : Multimap.State τ} {one : Heap.State Q} (h₀ : op₀ s.zero = .ok zero)
    (h₁ : op₁ { s.one with lastTimePoint := zero.lastTimePoint } = .ok one) :
    both s op₀ op₁ = some { s with zero := zero, one := one } := by
  simp [both, h₀, h₁]

theorem Sim.start (h : Sim s live) {t : τ} (hnew : t ∉ s.started) (interval : Int)
    (callBack : List τ) (now : TimePoint) :
    ∃ s' live', step s (.start t interval callBack now) = some s' ∧ Sim s' live' := by
  have hl : live t = none := by
    by_contra hne
    exact hnew (h.live_started t hne)
  have hrun₀ : (s.zero.timer t).handle = none := h.zero.handle_eq_none.mpr hl
  have hrun₁ : (s.one.timer t).handle = none := (h.one.handle t).mpr hl
  have hno : t ∉ (Q.contents s.one.queue).map Prod.snd := by
    intro hmem
    obtain ⟨d, hd, rfl⟩ := Multiset.mem_map.mp hmem
    exact hnew (h.queued d hd)
  have hlog : run observe live [.started t (now + interval)] =
      some (Function.update live t (some (now + interval))) := by
    simp [run, observe, hl]
  have hs₀ : Multimap.start s.zero t interval callBack now = .ok _ := if_neg (by simp [hrun₀])
  have hs₁ : Heap.start { s.one with lastTimePoint := s.zero.lastTimePoint } t interval callBack
      now = .ok _ := if_neg (by simp [hrun₁])
  refine ⟨_, Function.update live t (some (now + interval)),
    by rw [step, both_eq hs₀ hs₁]; rfl, ?_⟩
  refine ⟨h.zero.start hl _ callBack, h.one.start hl hno _ callBack, ?_, ?_, ?_, ?_, ?_, h.agree⟩
  · funext u
    by_cases hut : u = t
    · subst hut
      simp [Heap.State.callBacks, Multimap.State.callBacks]
    · simpa [Heap.State.callBacks, Multimap.State.callBacks, hut] using congrFun h.callBacks u
  · intro d hd
    rw [Q.contents_push] at hd
    rcases Multiset.mem_cons.mp hd with rfl | hd
    · exact List.mem_cons_self ..
    · exact List.mem_cons_of_mem _ (h.queued d hd)
  · intro u hu
    by_cases hut : u = t
    · rw [hut]
      exact List.mem_cons_self ..
    · rw [Function.update_of_ne hut] at hu
      exact List.mem_cons_of_mem _ (h.live_started u hu)
  · exact run_append.mpr ⟨live, h.log₀, hlog⟩
  · exact run_append.mpr ⟨live, h.log₁, hlog⟩

theorem Sim.stop (h : Sim s live) (t : τ) :
    ∃ s' live', step s (.stop t) = some s' ∧ Sim s' live' := by
  obtain ⟨zero, hs₀, hf₀, he₀, h₀⟩ := h.zero.stop t
  obtain ⟨one, hs₁, hf₁, he₁, h₁, -⟩ :=
    Heap.Rep.stop (s := { s.one with lastTimePoint := zero.lastTimePoint }) h.one
      (Multiset.Subset.refl _) t
  refine ⟨_, live.stopAll [t], by rw [step, both_eq hs₀ hs₁], ?_⟩
  refine ⟨h₀, ?_, ?_, ?_, ?_, ?_, ?_, h.agree⟩
  · rw [hf₁.1]
    exact h₁
  · exact (hf₁.2.2.trans h.callBacks).trans hf₀.callBacks.symm
  · rw [hf₁.1]
    exact h.queued
  · intro u hu
    refine h.live_started u fun hnone => hu ?_
    simp [Live.stopAll, hnone]
  · rw [he₀]
    exact run_append.mpr ⟨live, h.log₀, run_stops⟩
  · rw [he₁]
    exact run_append.mpr ⟨live, h.log₁, run_stops⟩

theorem Sim.expireNext (h : Sim s live) (hg : Allowed s .expireNext) :
    ∃ s' live', step s .expireNext = some s' ∧ Sim s' live' := by
  obtain ⟨⟨t, ht⟩, hund⟩ := hg
  rw [← h.zero.eq_running] at ht hund
  obtain ⟨now, hleast⟩ := h.zero.exists_least ht
  have hund := hund now hleast
  obtain ⟨zero, new₀, live₀, hs₀, hfire₀, he₀, h₀, hlast, hcb₀⟩ :=
    Multimap.expireNext_fired h.zero hleast
  obtain ⟨one, new₁, live₁, hs₁, hfire₁, he₁, h₁, hle₁, hcb₁⟩ :=
    Heap.expireNext_fired (s := { s.one with lastTimePoint := zero.lastTimePoint }) h.one hleast
      hlast
  have hcb : ({ s.one with lastTimePoint := zero.lastTimePoint } : Heap.State Q).callBacks =
      s.zero.callBacks := h.callBacks
  rw [hcb] at hfire₁ hcb₁
  have hsame : live₁ = live₀ := hfire₁.live_unique hfire₀ hund
  subst hsame
  refine ⟨_, live₁, by rw [step, both_eq hs₀ hs₁]; rfl, ?_⟩
  refine ⟨h₀, h₁, hcb₁.trans hcb₀.symm, ?_, ?_, ?_, ?_, ?_⟩
  · intro d hd
    exact h.queued d (Multiset.mem_of_le hle₁ hd)
  · intro u hu
    obtain ⟨x, hx⟩ := Option.ne_none_iff_exists'.mp hu
    refine h.live_started u ?_
    rw [((hfire₀.eq_some_iff hund).mp hx).1]
    exact nofun
  · rw [he₀]
    exact run_append.mpr ⟨live, h.log₀, hfire₀.run_observe⟩
  · rw [he₁]
    exact run_append.mpr ⟨live, h.log₁, hfire₁.run_observe⟩
  · intro r hr
    rcases List.mem_append.mp hr with hr | hr
    · exact h.agree r hr
    · rw [List.mem_singleton.mp hr, he₀, he₁, List.drop_left, List.drop_left]
      obtain ⟨u, hu⟩ := hleast.1
      refine ⟨now, ⟨u, ?_⟩, fun v key => ?_⟩
      · rw [mem_calls, hfire₀.mem_called_iff_of_undisturbed hund]
        exact ⟨rfl, hu⟩
      · rw [mem_calls, mem_calls, hfire₀.mem_called_iff_of_undisturbed hund,
          hfire₁.mem_called_iff_of_undisturbed hund]
        exact ⟨Iff.rfl, And.left⟩

theorem Sim.step (h : Sim s live) {a : Act τ} (hg : Allowed s a) :
    ∃ s', step s a = some s' ∧ ∃ live', Sim s' live' := by
  have hstep : ∃ s' live', Tandem.step s a = some s' ∧ Sim s' live' := by
    cases a with
    | start t interval callBack now => exact h.start hg interval callBack now
    | stop t => exact h.stop t
    | expireNext => exact h.expireNext hg
  obtain ⟨s', live', hs, hsim⟩ := hstep
  exact ⟨s', hs, live', hsim⟩

end Step

/-- In every allowed program no assert fails, and each call of `expire_next`
calls back the same timers in both implementations, all at the expiration point
of their start. -/
theorem implementations_agree (Q : PriorityQueue TimePoint τ) (acts : List (Act τ))
    (hg : Along step Allowed (initial : State Q) acts) :
    ∃ s, run step (initial : State Q) acts = some s ∧ (∀ r ∈ s.rounds, Agree r) ∧
      ∃ live, run observe Live.none s.zero.events = some live ∧
        run observe Live.none s.one.events = some live := by
  obtain ⟨s, hs, live, hsim⟩ := progress_along (I := fun s => ∃ live, Sim s live)
    (fun _ _ h hg => h.elim fun _ h => h.step hg) ⟨Live.none, sim_initial⟩ hg
  exact ⟨s, hs, hsim.agree, live, hsim.log₀, hsim.log₁⟩

/-- Two timers expire together, and the callback of one stops a third. -/
theorem implementations_agree_tie :
    ∃ s, run step (initial : State (PriorityQueue.sorted TimePoint (Fin 3)))
        [.start 0 10 [2] 0, .start 1 10 [] 0, .start 2 20 [] 0, .expireNext] = some s ∧
      (∀ r ∈ s.rounds, Agree r) ∧ s.rounds ≠ [] := by
  have hg : Along step Allowed (initial : State (PriorityQueue.sorted TimePoint (Fin 3)))
      [.start 0 10 [2] 0, .start 1 10 [] 0, .start 2 20 [] 0, .expireNext] := by
    refine along_of_step List.not_mem_nil rfl ?_
    refine along_of_step (show (1 : Fin 3) ∉ [0] by decide) rfl ?_
    refine along_of_step (show (2 : Fin 3) ∉ [1, 0] by decide) rfl ?_
    refine along_of_step ⟨⟨0, nofun⟩, fun now _ t u ht hu hut hlive => ?_⟩ rfl trivial
    refine absurd (ht.trans hlive.symm) ?_
    clear ht hlive
    revert t u
    decide
  obtain ⟨s, hs, hagree, -⟩ := implementations_agree _ _ hg
  refine ⟨s, hs, hagree, ?_⟩
  cases hs
  decide

end Timers.Tandem
