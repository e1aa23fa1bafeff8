import Mathlib.Tactic.Linarith

/-! The counter model of the read/write spin lock in `rwspinlock_test.cxx`:
four counters, the transitions on them, and the follow-up that a thread reads
off the counters before and after its own transition. -/
namespace RwSpinLock

/-- The transitions in the numbering of the source, `none` being 0. -/
inductive Transition where
  | none
  | rdlock
  | rdunlock
  | wrlock
  | wrunlock
  | wr2rdlock
  | rd2wrlock
  | failedRdlock
  | failedWrlock
  | failedRd2wrlock
  | successfulRd2wrlock
  | mustThrow
  deriving DecidableEq, Repr

/-- The range `first_transition .. last_non_followup_transition`. -/
def Transition.isInitial : Transition → Bool
  | .rdlock | .rdunlock | .wrlock | .wrunlock | .wr2rdlock | .rd2wrlock => true
  | _ => false

def isBlocking (followUp : Transition) : Bool :=
  followUp = .failedRdlock || followUp = .failedWrlock || followUp = .failedRd2wrlock

/-- `c` waits for read-to-write, `w` obtained write, `v` obtained or waits for
write, `r` obtained read. Each is an `int` in the source and unbounded here: the
arithmetic on them is that of the source below `2 ^ 31` threads. -/
structure State where
  c : Int
  w : Int
  v : Int
  r : Int
  deriving DecidableEq, Repr

namespace State

def unlocked : State := ⟨0, 0, 0, 0⟩

def isIllegal (s : State) : Bool := s.c > s.r || s.c > s.v || s.w > s.v

def isStable (s : State) : Bool :=
  !(s.isIllegal || s.w > 1 || s.c > 1 || (s.w = 1 && s.r > 0) ||
    (s.v > 0 && (s.w = 0 && s.r = s.c)))

/-- What the thread that moved the lock from `previous` to `s` has to do next. -/
def followUp (s previous : State) : Transition :=
  if s.c ≥ 2 ∧ s.c > previous.c then .mustThrow
  else if s.r > previous.r ∧ previous.v > 0 then
    if s.w < previous.w then .none else .failedRdlock
  else if s.v > previous.v ∧ (previous.r > s.c ∨ previous.w > 0) then
    if s.c > previous.c then .failedRd2wrlock else .failedWrlock
  else if s.c > previous.c then .successfulRd2wrlock else .none

def NonNeg (s : State) : Prop := 0 ≤ s.c ∧ 0 ≤ s.w ∧ 0 ≤ s.v ∧ 0 ≤ s.r

theorem isIllegal_eq_false {s : State} :
    s.isIllegal = false ↔ s.c ≤ s.r ∧ s.c ≤ s.v ∧ s.w ≤ s.v := by
  simp [isIllegal, and_assoc]

/-- The negated disjunction of `is_stable`, spelled out. -/
theorem isStable_iff {s : State} : s.isStable = true ↔
    s.c ≤ s.r ∧ s.c ≤ s.v ∧ s.w ≤ s.v ∧ s.w ≤ 1 ∧ s.c ≤ 1 ∧ (s.w = 1 → s.r ≤ 0) ∧
      (0 < s.v → s.w = 0 → s.r ≠ s.c) := by
  simp only [isStable, isIllegal, Bool.not_eq_true', Bool.or_eq_false_iff, Bool.and_eq_false_iff,
    decide_eq_false_iff_not]
  omega

end State

/-- The switch of `apply`. `none` stands for `return false`, which leaves the
state as it is. -/
def update : Transition → State → Option State
  | .none, s => some s
  | .rdlock, s => some { s with r := s.r + 1 }
  | .rdunlock, s => if s.r = 0 then none else some { s with r := s.r - 1 }
  | .wrlock, s => some { s with w := s.w + 1, v := s.v + 1 }
  | .wrunlock, s => if s.w = 0 then none else some { s with w := s.w - 1, v := s.v - 1 }
  | .wr2rdlock, s =>
      if s.w = 0 then none else some { s with w := s.w - 1, v := s.v - 1, r := s.r + 1 }
  | .rd2wrlock, s => if s.r = 0 then none else some { s with c := s.c + 1, v := s.v + 1 }
  | .failedRdlock, s => some { s with r := s.r - 1 }
  | .failedWrlock, s => some { s with w := s.w - 1 }
  | .failedRd2wrlock, s => some s
  | .successfulRd2wrlock, s => some { s with w := s.w + 1, c := s.c - 1, r := s.r - 1 }
  | .mustThrow, _ => none

/-- How a call of `apply` ends: by the ASSERT at its start, by `return false`,
by DoutFatal on an illegal state, or by `return true`. -/
inductive Outcome where
  | assertion
  | refused
  | fatal (s : State)
  | applied (s : State)
  deriving DecidableEq, Repr

def apply (t : Transition) (s : State) : Outcome :=
  if s.isIllegal then .assertion
  else match update t s with
    | none => .refused
    | some s' => if s'.isIllegal then .fatal s' else .applied s'

theorem apply_eq_applied {t : Transition} {s s' : State} :
    apply t s = .applied s' ↔
      s.isIllegal = false ∧ update t s = some s' ∧ s'.isIllegal = false := by
  unfold apply
  cases hi : s.isIllegal with
  | true => simp
  | false =>
      cases hu : update t s with
      | none => simp
      | some u =>
          cases hl : u.isIllegal with
          | true =>
              simp only [Bool.false_eq_true, if_false, hl, if_true, reduceCtorEq, true_and,
                Option.some.injEq, false_iff, not_and, Bool.not_eq_false]
              rintro rfl
              exact hl
          | false =>
              simp only [Bool.false_eq_true, if_false, hl, Outcome.applied.injEq, true_and,
                Option.some.injEq]
              constructor
              · rintro rfl; exact ⟨rfl, hl⟩
              · exact And.left

def Outcome.next : Outcome → Option State
  | .applied s => some s
  | _ => none

theorem Outcome.next_eq_some {o : Outcome} {s : State} : o.next = some s ↔ o = .applied s := by
  cases o <;> simp [Outcome.next]

/-- The transition and then its follow-up, as one turn of a thread. There is
no state after the turn when `apply` does not return true, which includes the
follow-up `must_throw`. -/
def turn (t : Transition) (s : State) : Option (Transition × State) :=
  (apply t s).next.bind fun s' =>
    (apply (s'.followUp s) s').next.map fun s'' => (s'.followUp s, s'')

theorem turn_eq_some {t f : Transition} {s u : State} : turn t s = some (f, u) ↔
    ∃ s', apply t s = .applied s' ∧ s'.followUp s = f ∧ apply f s' = .applied u := by
  simp only [turn, Option.bind_eq_some_iff, Option.map_eq_some_iff, Outcome.next_eq_some,
    Prod.mk.injEq]
  constructor
  · rintro ⟨s', ha, u', hu, rfl, rfl⟩
    exact ⟨s', ha, rfl, hu⟩
  · rintro ⟨s', ha, rfl, hu⟩
    exact ⟨s', ha, u, hu, rfl, rfl⟩

section Turns
variable {s : State}

theorem applied_of_legal {t : Transition} {s' : State} (hs : s.isIllegal = false)
    (hu : update t s = some s') (hs' : s'.isIllegal = false) : apply t s = .applied s' :=
  apply_eq_applied.mpr ⟨hs, hu, hs'⟩

theorem turn_rdlock_blocked (hs : s.isIllegal = false) (hv : 0 < s.v) :
    turn .rdlock s = some (.failedRdlock, s) := by
  have hl := State.isIllegal_eq_false.mp hs
  refine turn_eq_some.mpr ⟨{ s with r := s.r + 1 }, applied_of_legal hs rfl ?_, ?_, ?_⟩
  · exact State.isIllegal_eq_false.mpr (by dsimp only; omega)
  · simp [State.followUp, hv]
  · refine applied_of_legal (State.isIllegal_eq_false.mpr (by dsimp only; omega)) ?_ hs
    simp [update]

theorem turn_rdlock_granted (hs : s.isIllegal = false) (hv : s.v ≤ 0) :
    turn .rdlock s = some (.none, { s with r := s.r + 1 }) := by
  have hl := State.isIllegal_eq_false.mp hs
  have hlegal : State.isIllegal { s with r := s.r + 1 } = false :=
    State.isIllegal_eq_false.mpr (by dsimp only; omega)
  refine turn_eq_some.mpr ⟨{ s with r := s.r + 1 }, applied_of_legal hs rfl hlegal, ?_, ?_⟩
  · simp [State.followUp, Int.not_lt.mpr hv]
  · exact applied_of_legal hlegal rfl hlegal

theorem turn_wrlock_blocked (hs : s.isIllegal = false) (hh : s.c < s.r ∨ 0 < s.w) :
    turn .wrlock s = some (.failedWrlock, { s with v := s.v + 1 }) := by
  have hl := State.isIllegal_eq_false.mp hs
  refine turn_eq_some.mpr
    ⟨{ s with w := s.w + 1, v := s.v + 1 }, applied_of_legal hs rfl ?_, ?_, ?_⟩
  · exact State.isIllegal_eq_false.mpr (by dsimp only; omega)
  · simp [State.followUp, hh]
  · refine applied_of_legal (State.isIllegal_eq_false.mpr (by dsimp only; omega)) ?_
      (State.isIllegal_eq_false.mpr (by dsimp only; omega))
    simp [update]

/-- A blocked converter keeps its read lock, but `previous.r > c` does not
count it: with no other holder the write lock is granted. -/
theorem turn_wrlock_granted (hs : s.isIllegal = false) (hr : s.r = s.c) (hw : s.w ≤ 0) :
    turn .wrlock s = some (.none, { s with w := s.w + 1, v := s.v + 1 }) := by
  have hl := State.isIllegal_eq_false.mp hs
  have hlegal : State.isIllegal { s with w := s.w + 1, v := s.v + 1 } = false :=
    State.isIllegal_eq_false.mpr (by dsimp only; omega)
  refine turn_eq_some.mpr
    ⟨{ s with w := s.w + 1, v := s.v + 1 }, applied_of_legal hs rfl hlegal, ?_, ?_⟩
  · simp [State.followUp, hr, Int.not_lt.mpr hw]
  · exact applied_of_legal hlegal rfl hlegal

theorem turn_rdunlock (hs : s.isIllegal = false) (hr : s.r ≠ 0) (hc : s.c < s.r) :
    turn .rdunlock s = some (.none, { s with r := s.r - 1 }) := by
  have hl := State.isIllegal_eq_false.mp hs
  have hlegal : State.isIllegal { s with r := s.r - 1 } = false :=
    State.isIllegal_eq_false.mpr (by dsimp only; omega)
  refine turn_eq_some.mpr
    ⟨{ s with r := s.r - 1 }, applied_of_legal hs (by simp [update, hr]) hlegal, ?_, ?_⟩
  · simp [State.followUp]
  · exact applied_of_legal hlegal rfl hlegal

theorem turn_wrunlock (hs : s.isIllegal = false) (hw : s.w ≠ 0) (hc : s.c < s.v) :
    turn .wrunlock s = some (.none, { s with w := s.w - 1, v := s.v - 1 }) := by
  have hl := State.isIllegal_eq_false.mp hs
  have hlegal : State.isIllegal { s with w := s.w - 1, v := s.v - 1 } = false :=
    State.isIllegal_eq_false.mpr (by dsimp only; omega)
  refine turn_eq_some.mpr ⟨{ s with w := s.w - 1, v := s.v - 1 },
    applied_of_legal hs (by simp [update, hw]) hlegal, ?_, ?_⟩
  · simp [State.followUp]
  · exact applied_of_legal hlegal rfl hlegal

theorem turn_wr2rdlock (hs : s.isIllegal = false) (hw : s.w ≠ 0) (hc : s.c < s.v) :
    turn .wr2rdlock s = some (.none, { s with w := s.w - 1, v := s.v - 1, r := s.r + 1 }) := by
  have hl := State.isIllegal_eq_false.mp hs
  have hlegal : State.isIllegal { s with w := s.w - 1, v := s.v - 1, r := s.r + 1 } = false :=
    State.isIllegal_eq_false.mpr (by dsimp only; omega)
  refine turn_eq_some.mpr ⟨{ s with w := s.w - 1, v := s.v - 1, r := s.r + 1 },
    applied_of_legal hs (by simp [update, hw]) hlegal, ?_, ?_⟩
  · simp [State.followUp]
  · exact applied_of_legal hlegal rfl hlegal

theorem turn_rd2wrlock_blocked (hs : s.isIllegal = false) (hc : s.c ≤ 0)
    (hr : s.c + 1 < s.r) (hr0 : s.r ≠ 0) :
    turn .rd2wrlock s = some (.failedRd2wrlock, { s with c := s.c + 1, v := s.v + 1 }) := by
  have hl := State.isIllegal_eq_false.mp hs
  have hlegal : State.isIllegal { s with c := s.c + 1, v := s.v + 1 } = false :=
    State.isIllegal_eq_false.mpr (by dsimp only; omega)
  refine turn_eq_some.mpr ⟨{ s with c := s.c + 1, v := s.v + 1 },
    applied_of_legal hs (by simp [update, hr0]) hlegal, ?_, ?_⟩
  · simp [State.followUp, hr, show ¬ 2 ≤ s.c + 1 by omega]
  · exact applied_of_legal hlegal rfl hlegal

theorem turn_rd2wrlock_granted (hs : s.isIllegal = false) (hc : s.c ≤ 0)
    (hr : s.r = s.c + 1) (hr0 : s.r ≠ 0) (hw : s.w ≤ 0) :
    turn .rd2wrlock s = some (.successfulRd2wrlock,
      { s with w := s.w + 1, v := s.v + 1, r := s.r - 1 }) := by
  have hl := State.isIllegal_eq_false.mp hs
  have hlegal : State.isIllegal { s with c := s.c + 1, v := s.v + 1 } = false :=
    State.isIllegal_eq_false.mpr (by dsimp only; omega)
  refine turn_eq_some.mpr ⟨{ s with c := s.c + 1, v := s.v + 1 },
    applied_of_legal hs (by simp [update, hr0]) hlegal, ?_, ?_⟩
  · simp [State.followUp, hr, show ¬ 2 ≤ s.c + 1 by omega, Int.not_lt.mpr hw]
  · refine applied_of_legal hlegal (by simp [update]) (State.isIllegal_eq_false.mpr ?_)
    dsimp only
    omega

/-- A second conversion attempt is applied, but its follow-up is `must_throw`. -/
theorem rd2wrlock_mustThrow {s' : State} (hc : 1 ≤ s.c) (ha : apply .rd2wrlock s = .applied s') :
    s'.followUp s = .mustThrow := by
  obtain ⟨-, hup, -⟩ := apply_eq_applied.mp ha
  simp only [update, Option.ite_none_left_eq_some, Option.some.injEq] at hup
  obtain ⟨-, rfl⟩ := hup
  simp [State.followUp, show 2 ≤ s.c + 1 by omega]

theorem turn_rd2wrlock_throws (hc : 1 ≤ s.c) : turn .rd2wrlock s = none := by
  rw [Option.eq_none_iff_forall_ne_some]
  rintro ⟨f, u⟩ h
  obtain ⟨s', ha, rfl, hu⟩ := turn_eq_some.mp h
  rw [rd2wrlock_mustThrow hc ha] at hu
  have hthrow := (apply_eq_applied.mp hu).2.1
  simp [update] at hthrow

end Turns

/-- What `s` is left with when the last holder that is not waiting itself has
released, while writers wait. -/
def State.Handover (s : State) : Prop := 0 < s.v ∧ s.w = 0 ∧ s.r = s.c

theorem State.isStable_eq_false_of_handover {s : State} (h : s.Handover) : s.isStable = false := by
  rw [Bool.eq_false_iff, ne_eq, State.isStable_iff]
  rintro ⟨-, -, -, -, -, -, hlast⟩
  exact hlast h.1 h.2.1 h.2.2

theorem r_ne_zero_of_update {s : State} {t : Transition} (ht : t = .rdunlock ∨ t = .rd2wrlock)
    (h : update t s ≠ none) : s.r ≠ 0 := by
  intro hzero
  rcases ht with rfl | rfl <;> simp [update, hzero] at h

theorem w_ne_zero_of_update {s : State} {t : Transition} (ht : t = .wrunlock ∨ t = .wr2rdlock)
    (h : update t s ≠ none) : s.w ≠ 0 := by
  intro hzero
  rcases ht with rfl | rfl <;> simp [update, hzero] at h

/-- A request whose result is stable is never one of the two releases in a handover. -/
theorem turn_stable {s u : State} {t f : Transition} (hturn : turn t s = some (f, u))
    (hu : u.isStable = true) :
    ∃ f u, turn t s = some (f, u) ∧
      (u.isStable = false ↔ (t = .rdunlock ∨ t = .wrunlock) ∧ u.Handover) := by
  refine ⟨f, u, hturn, ?_⟩
  constructor
  · intro hf
    rw [hu] at hf
    cases hf
  · rintro ⟨-, hh⟩
    exact State.isStable_eq_false_of_handover hh

/-- From a stable state every accepted request other than a second conversion
ends in a state that is stable unless it is a handover after a release. -/
theorem turn_of_stable {s : State} {t : Transition} (hnn : s.NonNeg) (hs : s.isStable = true)
    (ht : t.isInitial = true) (hret : apply t s ≠ .refused) (hc : t = .rd2wrlock → s.c = 0) :
    ∃ f u, turn t s = some (f, u) ∧
      (u.isStable = false ↔ (t = .rdunlock ∨ t = .wrunlock) ∧ u.Handover) := by
  obtain ⟨hnc, hnw, hnv, hnr⟩ := hnn
  obtain ⟨hcr, hcv, hwv, hw1, hc1, hexcl, hhand⟩ := State.isStable_iff.mp hs
  have hlegal : s.isIllegal = false := State.isIllegal_eq_false.mpr ⟨hcr, hcv, hwv⟩
  have hupd : update t s ≠ none := by
    intro hnone
    exact hret (by simp [apply, hlegal, hnone])
  cases t with
  | rdlock =>
      by_cases hv : 0 < s.v
      · exact turn_stable (turn_rdlock_blocked hlegal hv) hs
      · refine turn_stable (turn_rdlock_granted hlegal (by omega)) (State.isStable_iff.mpr ?_)
        dsimp only
        omega
  | wrlock =>
      by_cases hh : s.c < s.r ∨ 0 < s.w
      · refine turn_stable (turn_wrlock_blocked hlegal hh) (State.isStable_iff.mpr ?_)
        dsimp only
        omega
      · refine turn_stable (turn_wrlock_granted hlegal (by omega) (by omega))
          (State.isStable_iff.mpr ?_)
        dsimp only
        omega
  | rdunlock =>
      have hr := r_ne_zero_of_update (.inl rfl) hupd
      refine ⟨_, _, turn_rdunlock hlegal hr (by omega), ?_⟩
      rw [Bool.eq_false_iff, ne_eq, State.isStable_iff]
      simp only [State.Handover, true_or, true_and]
      omega
  | wrunlock =>
      have hw := w_ne_zero_of_update (.inl rfl) hupd
      refine ⟨_, _, turn_wrunlock hlegal hw (by omega), ?_⟩
      rw [Bool.eq_false_iff, ne_eq, State.isStable_iff]
      simp only [State.Handover, or_true, true_and]
      omega
  | wr2rdlock =>
      have hw := w_ne_zero_of_update (.inr rfl) hupd
      refine turn_stable (turn_wr2rdlock hlegal hw (by omega)) (State.isStable_iff.mpr ?_)
      dsimp only
      omega
  | rd2wrlock =>
      have hr := r_ne_zero_of_update (.inr rfl) hupd
      have hc0 : s.c = 0 := hc rfl
      by_cases hone : s.r = 1
      · refine turn_stable (turn_rd2wrlock_granted hlegal (by omega) (by omega) hr (by omega))
          (State.isStable_iff.mpr ?_)
        dsimp only
        omega
      · refine turn_stable (turn_rd2wrlock_blocked hlegal (by omega) (by omega) hr)
          (State.isStable_iff.mpr ?_)
        dsimp only
        omega
  | none | failedRdlock | failedWrlock | failedRd2wrlock | successfulRd2wrlock | mustThrow =>
      simp [Transition.isInitial] at ht

/-- Closure over all counter sizes. DoutFatal is not reached by the request
nor by its follow-up, and only a release can leave the stable states. -/
theorem stable_closure (s : State) (t : Transition) (hnn : s.NonNeg) (hs : s.isStable = true)
    (ht : t.isInitial = true) (hret : apply t s ≠ .refused) :
    ∃ s', apply t s = .applied s' ∧ s'.isIllegal = false ∧
      (s'.followUp s ≠ .mustThrow →
        ∃ u, apply (s'.followUp s) s' = .applied u ∧ u.isIllegal = false ∧
          (u.isStable = false ↔
            (t = .rdunlock ∨ t = .wrunlock) ∧ 0 < u.v ∧ u.w = 0 ∧ u.r = u.c)) := by
  by_cases hc : t = .rd2wrlock → s.c = 0
  · obtain ⟨f, u, hturn, hstable⟩ := turn_of_stable hnn hs ht hret hc
    obtain ⟨s', ha, rfl, hu⟩ := turn_eq_some.mp hturn
    exact ⟨s', ha, (apply_eq_applied.mp ha).2.2, fun _ =>
      ⟨u, hu, (apply_eq_applied.mp hu).2.2, hstable⟩⟩
  · -- A converter is pending already: its own read lock and another one exist.
    obtain ⟨rfl, hpend⟩ := Classical.not_imp.mp hc
    obtain ⟨hnc, hnw, -, -⟩ := hnn
    obtain ⟨hcr, hcv, hwv, hw1, hc1, hexcl, hhand⟩ := State.isStable_iff.mp hs
    have hlegal : State.isIllegal { s with c := s.c + 1, v := s.v + 1 } = false :=
      State.isIllegal_eq_false.mpr (by dsimp only; omega)
    refine ⟨{ s with c := s.c + 1, v := s.v + 1 }, applied_of_legal
      (State.isIllegal_eq_false.mpr ⟨hcr, hcv, hwv⟩) ?_ hlegal, hlegal, ?_⟩
    · simp only [update]
      rw [if_neg (by omega)]
    · intro hne
      exact absurd (by simp [State.followUp, show 2 ≤ s.c + 1 by omega]) hne

theorem stable_closure_pending_converter :
    ∃ s', apply .rdunlock ⟨1, 0, 3, 2⟩ = .applied s' ∧ s'.isIllegal = false ∧
      (s'.followUp ⟨1, 0, 3, 2⟩ ≠ .mustThrow →
        ∃ u, apply (s'.followUp ⟨1, 0, 3, 2⟩) s' = .applied u ∧ u.isIllegal = false ∧
          (u.isStable = false ↔
            (Transition.rdunlock = .rdunlock ∨ Transition.rdunlock = .wrunlock) ∧
              0 < u.v ∧ u.w = 0 ∧ u.r = u.c)) :=
  stable_closure ⟨1, 0, 3, 2⟩ .rdunlock (by simp [State.NonNeg]) (by decide) rfl (by decide)

/-! ### Grant decisions -/

/-- What the follow-up `f` of the request `t`, made in the state `s`, has to be,
and the outcome `o` of applying it. -/
def Decides (s : State) (t f : Transition) (o : Outcome) : Prop :=
  match t with
  | .rdlock => (isBlocking f = true ↔ 0 < s.v) ∧ (0 < s.v → o = .applied s)
  | .wrlock =>
      (f = .none ↔ s = State.unlocked) ∧
        (s ≠ State.unlocked → isBlocking f = true ∧ o = .applied { s with v := s.v + 1 })
  | .rd2wrlock =>
      (f = .mustThrow ↔ 1 ≤ s.c) ∧
        (s.c < 1 → (f = .successfulRd2wrlock ↔ s.r = 1) ∧
          (s.r = 1 → o = .applied ⟨0, 1, s.v + 1, 0⟩) ∧
          (s.r ≠ 1 → isBlocking f = true ∧ o = .applied { s with c := s.c + 1, v := s.v + 1 }))
  | _ => f = .none

theorem followUp_of_turn {s s' u : State} {t f : Transition} (ha : apply t s = .applied s')
    (h : turn t s = some (f, u)) : s'.followUp s = f ∧ apply f s' = .applied u := by
  obtain ⟨s'', ha', hf, hu⟩ := turn_eq_some.mp h
  obtain rfl := Outcome.applied.inj (ha.symm.trans ha')
  exact ⟨hf, hu⟩

section Decisions
variable {s s' : State}

theorem rdlock_decides (ha : apply .rdlock s = .applied s') :
    Decides s .rdlock (s'.followUp s) (apply (s'.followUp s) s') := by
  obtain ⟨hlegal, -, -⟩ := apply_eq_applied.mp ha
  by_cases hv : 0 < s.v
  · obtain ⟨hf, hu⟩ := followUp_of_turn ha (turn_rdlock_blocked hlegal hv)
    rw [hf, hu]
    exact ⟨⟨fun _ => hv, fun _ => rfl⟩, fun _ => rfl⟩
  · obtain ⟨hf, -⟩ := followUp_of_turn ha (turn_rdlock_granted hlegal (by omega))
    rw [hf]
    exact ⟨⟨fun hblock => absurd hblock (by decide), fun h => absurd h hv⟩, fun h => absurd h hv⟩

theorem wrlock_decides (hnn : s.NonNeg) (hs : s.isStable = true)
    (ha : apply .wrlock s = .applied s') :
    Decides s .wrlock (s'.followUp s) (apply (s'.followUp s) s') := by
  obtain ⟨hnc, hnw, hnv, hnr⟩ := hnn
  obtain ⟨hcr, hcv, hwv, hw1, hc1, hexcl, hhand⟩ := State.isStable_iff.mp hs
  obtain ⟨hlegal, -, -⟩ := apply_eq_applied.mp ha
  by_cases hh : s.c < s.r ∨ 0 < s.w
  · obtain ⟨hf, hu⟩ := followUp_of_turn ha (turn_wrlock_blocked hlegal hh)
    have hne : s ≠ State.unlocked := by
      rintro rfl
      simp [State.unlocked] at hh
    rw [hf, hu]
    exact ⟨⟨fun hnone => absurd hnone (by decide), fun h => absurd h hne⟩, fun _ => ⟨rfl, rfl⟩⟩
  · -- Without a holder, a waiting thread would leave the lock in a state that is not stable.
    have hzero : s.c = 0 ∧ s.w = 0 ∧ s.v = 0 ∧ s.r = 0 := by omega
    have heq : s = State.unlocked := by
      obtain ⟨c, w, v, r⟩ := s
      exact (State.mk.injEq ..).mpr hzero
    obtain ⟨hf, -⟩ := followUp_of_turn ha (turn_wrlock_granted hlegal (by omega) (by omega))
    rw [hf]
    exact ⟨⟨fun _ => heq, fun _ => rfl⟩, fun hne => absurd heq hne⟩

theorem rd2wrlock_decides (hnn : s.NonNeg) (hs : s.isStable = true)
    (ha : apply .rd2wrlock s = .applied s') :
    Decides s .rd2wrlock (s'.followUp s) (apply (s'.followUp s) s') := by
  obtain ⟨hnc, hnw, hnv, hnr⟩ := hnn
  obtain ⟨hcr, hcv, hwv, hw1, hc1, hexcl, hhand⟩ := State.isStable_iff.mp hs
  obtain ⟨hlegal, hup, -⟩ := apply_eq_applied.mp ha
  have hr : s.r ≠ 0 := r_ne_zero_of_update (.inr rfl) (by simp [hup])
  by_cases hc : 1 ≤ s.c
  · rw [rd2wrlock_mustThrow hc ha]
    exact ⟨⟨fun _ => hc, fun _ => rfl⟩, fun hlt => by omega⟩
  · by_cases hone : s.r = 1
    · obtain ⟨hf, hu⟩ := followUp_of_turn ha
        (turn_rd2wrlock_granted hlegal (by omega) (by omega) hr (by omega))
      rw [hf, hu]
      refine ⟨⟨fun hthrow => absurd hthrow (by decide), fun h => absurd h hc⟩, fun _ =>
        ⟨⟨fun _ => hone, fun _ => rfl⟩, fun _ => ?_, fun hne => absurd hone hne⟩⟩
      simp only [Outcome.applied.injEq, State.mk.injEq, true_and]
      omega
    · obtain ⟨hf, hu⟩ := followUp_of_turn ha
        (turn_rd2wrlock_blocked hlegal (by omega) (by omega) hr)
      rw [hf, hu]
      exact ⟨⟨fun hthrow => absurd hthrow (by decide), fun h => absurd h hc⟩, fun _ =>
        ⟨⟨fun hsucc => absurd hsucc (by decide), fun h => absurd h hone⟩,
          fun h => absurd h hone, fun _ => ⟨rfl, rfl⟩⟩⟩

end Decisions

/-- The follow-up finds out from the counters alone which request was made and
whether it is granted. -/
theorem grant_decisions (s s' : State) (t : Transition) (hnn : s.NonNeg) (hs : s.isStable = true)
    (ht : t.isInitial = true) (ha : apply t s = .applied s') :
    Decides s t (s'.followUp s) (apply (s'.followUp s) s') := by
  obtain ⟨hcr, hcv, hwv, hw1, hc1, hexcl, hhand⟩ := State.isStable_iff.mp hs
  obtain ⟨hlegal, hup, -⟩ := apply_eq_applied.mp ha
  have hupd : update t s ≠ none := by simp [hup]
  cases t with
  | rdlock => exact rdlock_decides ha
  | wrlock => exact wrlock_decides hnn hs ha
  | rd2wrlock => exact rd2wrlock_decides hnn hs ha
  | rdunlock =>
      have hr := r_ne_zero_of_update (.inl rfl) hupd
      obtain ⟨hnc, hnw, hnv, hnr⟩ := hnn
      exact (followUp_of_turn ha (turn_rdunlock hlegal hr (by omega))).1
  | wrunlock =>
      have hw := w_ne_zero_of_update (.inl rfl) hupd
      obtain ⟨hnc, hnw, hnv, hnr⟩ := hnn
      exact (followUp_of_turn ha (turn_wrunlock hlegal hw (by omega))).1
  | wr2rdlock =>
      have hw := w_ne_zero_of_update (.inr rfl) hupd
      obtain ⟨hnc, hnw, hnv, hnr⟩ := hnn
      exact (followUp_of_turn ha (turn_wr2rdlock hlegal hw (by omega))).1
  | none | failedRdlock | failedWrlock | failedRd2wrlock | successfulRd2wrlock | mustThrow =>
      simp [Transition.isInitial] at ht

/-- The only reader converts while another writer waits. -/
theorem grant_decisions_conversion :
    Decides ⟨0, 0, 1, 1⟩ .rd2wrlock .successfulRd2wrlock (.applied ⟨0, 1, 2, 0⟩) :=
  grant_decisions ⟨0, 0, 1, 1⟩ ⟨1, 0, 2, 1⟩ .rd2wrlock (by simp [State.NonNeg]) (by decide) rfl
    (by decide)

end RwSpinLock
