import TaskSuite.Machine
import Mathlib.Algebra.BigOperators.Group.List.Basic
import Mathlib.Algebra.Order.Ring.Int
import Mathlib.Data.List.Count

/-! `Benchmark::calibrate_now_offset` and `Benchmark::calibrate_cycles_per_ns`. A label is
what one round of the inner loop has measured. -/
namespace CalibrateClock
open Machine

/-! ### `calibrate_now_offset` -/

/-- `d`, `sum` and `cnt` belong to the present turn of the outer loop; `offset` has the two
numbers of which `m_now_offset` is the quotient. -/
structure NowOffset where
  peak : UInt32
  d : UInt32 → ℕ
  sum : ℕ
  cnt : ℕ
  done : Bool
  offset : Option (ℕ × ℕ)

def NowOffset.initial : NowOffset := ⟨1000, fun _ => 0, 0, 0, false, none⟩

def InRange (peak nsi : UInt32) : Prop := nsi < 4 * peak

instance (peak nsi : UInt32) : Decidable (InRange peak nsi) := inferInstanceAs (Decidable (nsi < 4 * peak))

/-- `stopCount` is `stop_count`. The measurement that reaches it ends the inner loop. There
is no step in which `cnt`, which is an `int`, overflows. -/
def NowOffset.step (stopCount : ℕ) (s : NowOffset) (nsi : UInt32) : Option NowOffset :=
  if s.done then none
  else if InRange s.peak nsi then
    let d := Function.update s.d nsi (s.d nsi + 1)
    if d nsi = stopCount then
      some ⟨nsi, fun _ => 0, 0, 0, decide (s.peak = nsi), some (s.sum, s.cnt)⟩
    else if s.cnt + 1 < 2147483648 then
      some { s with d, sum := s.sum + nsi.toNat, cnt := s.cnt + 1 }
    else none
  else some s

def inRange (peak : UInt32) (measured : List UInt32) : List UInt32 :=
  measured.filter fun nsi => InRange peak nsi

/-- The labels consist of those of earlier turns of the outer loop, of which the last one
is the peak, and those of the present turn. -/
structure NowOffset.Turn (stopCount : ℕ) (before current : List UInt32) (s : NowOffset) : Prop where
  peak : before = [] ∧ s.peak = 1000 ∨ before.getLast? = some s.peak
  d : ∀ nsi, s.d nsi = (inRange s.peak current).count nsi
  below : ∀ nsi, s.d nsi < stopCount
  sum : s.sum = ((inRange s.peak current).map UInt32.toNat).sum
  cnt : s.cnt = (inRange s.peak current).length

/-- In the turn that was the last one, the peak was measured as often as it takes, with the
very last measurement, and any other value less often. It was the peak of the turn before
too, and the offset is the average of all but the last measurement. -/
structure NowOffset.Found (stopCount : ℕ) (before current : List UInt32) (s : NowOffset) : Prop where
  peak : before = [] ∧ s.peak = 1000 ∨ before.getLast? = some s.peak
  positive : 0 < s.peak
  stop : current.count s.peak + 1 = stopCount
  below : ∀ nsi, InRange s.peak nsi → nsi ≠ s.peak → current.count nsi < stopCount
  offset : s.offset = some (((inRange s.peak current).map UInt32.toNat).sum, (inRange s.peak current).length)

def NowOffset.History (stopCount : ℕ) (measured : List UInt32) (s : NowOffset) : Prop :=
  (s.done = false ∧ ∃ before current, measured = before ++ current ∧ s.Turn stopCount before current) ∨
    (s.done = true ∧ ∃ before current, measured = before ++ current ++ [s.peak] ∧
      s.Found stopCount before current)

section NowOffset
variable {stopCount : ℕ} {s s' : NowOffset} {nsi : UInt32}

theorem count_inRange {peak v : UInt32} {measured : List UInt32} (hv : InRange peak v) :
    (inRange peak measured).count v = measured.count v :=
  List.count_filter (decide_eq_true hv)

theorem inRange_concat_of_mem {peak : UInt32} {measured : List UInt32} (hnsi : InRange peak nsi) :
    inRange peak (measured ++ [nsi]) = inRange peak measured ++ [nsi] := by
  simp [inRange, hnsi]

theorem inRange_concat_of_not {peak : UInt32} {measured : List UInt32} (hnsi : ¬ InRange peak nsi) :
    inRange peak (measured ++ [nsi]) = inRange peak measured := by
  simp [inRange, hnsi]

theorem NowOffset.Turn.found {before current : List UInt32} (h : s.Turn stopCount before current)
    (hrange : InRange s.peak s.peak) (hfull : s.d s.peak + 1 = stopCount) (d : UInt32 → ℕ) (sum cnt : ℕ) :
    Found stopCount before current ⟨s.peak, d, sum, cnt, true, some (s.sum, s.cnt)⟩ where
  peak := h.peak
  positive := by
    rw [UInt32.pos_iff_ne_zero]
    intro hzero
    dsimp only at hzero
    rw [hzero] at hrange
    exact absurd hrange (by decide)
  stop := by
    rw [← count_inRange hrange, ← h.d, hfull]
  below := by
    intro v hv _
    rw [← count_inRange hv, ← h.d]
    exact h.below v
  offset := by rw [h.sum, h.cnt]

theorem NowOffset.Turn.count {before current : List UInt32} (h : s.Turn stopCount before current)
    (hrange : InRange s.peak nsi) (hnot : s.d nsi + 1 ≠ stopCount) :
    Turn stopCount before (current ++ [nsi])
      { s with d := Function.update s.d nsi (s.d nsi + 1), sum := s.sum + nsi.toNat, cnt := s.cnt + 1 } where
  peak := h.peak
  d := by
    intro v
    dsimp only
    rw [inRange_concat_of_mem hrange, List.count_append, ← h.d v]
    by_cases hv : v = nsi
    · subst hv
      rw [Function.update_self, List.count_singleton_self]
    · rw [Function.update_of_ne hv, List.count_singleton, if_neg]
      · rfl
      · simpa using Ne.symm hv
  below := by
    intro v
    have hv := h.below v
    dsimp only
    by_cases heq : v = nsi
    · subst heq
      rw [Function.update_self]
      omega
    · rwa [Function.update_of_ne heq]
  sum := by
    dsimp only
    rw [inRange_concat_of_mem hrange, List.map_append, List.sum_append, ← h.sum]
    simp
  cnt := by
    dsimp only
    rw [inRange_concat_of_mem hrange, List.length_append, ← h.cnt]
    rfl

theorem NowOffset.Turn.skip {before current : List UInt32} (h : s.Turn stopCount before current)
    (hrange : ¬ InRange s.peak nsi) : s.Turn stopCount before (current ++ [nsi]) where
  peak := h.peak
  d := by
    rw [inRange_concat_of_not hrange]
    exact h.d
  below := h.below
  sum := by rw [inRange_concat_of_not hrange, h.sum]
  cnt := by rw [inRange_concat_of_not hrange, h.cnt]

theorem NowOffset.step_history (hstop : 0 < stopCount) {measured : List UInt32}
    (h : s.History stopCount measured) (hs : s.step stopCount nsi = some s') :
    s'.History stopCount (measured ++ [nsi]) := by
  unfold NowOffset.step at hs
  dsimp only at hs
  rw [Function.update_self] at hs
  split_ifs at hs with hdone hrange hfull hcnt
  all_goals
    cases hs
    rcases h with ⟨-, before, current, rfl, hturn⟩ | ⟨htrue, -⟩
  · by_cases hsame : s.peak = nsi
    · right
      subst hsame
      refine ⟨decide_eq_true rfl, before, current, rfl, ?_⟩
      rw [decide_eq_true rfl]
      exact hturn.found hrange hfull _ _ _
    · left
      refine ⟨decide_eq_false hsame, before ++ current ++ [nsi], [], (List.append_nil _).symm, ?_⟩
      exact ⟨.inr List.getLast?_concat, fun _ => rfl, fun _ => hstop, rfl, rfl⟩
  · exact absurd htrue hdone
  · left
    exact ⟨by simpa using hdone, before, current ++ [nsi], List.append_assoc .., hturn.count hrange hfull⟩
  · exact absurd htrue hdone
  · left
    exact ⟨by simpa using hdone, before, current ++ [nsi], List.append_assoc .., hturn.skip hrange⟩
  · exact absurd htrue hdone

end NowOffset

/-- If the peak is 0, the vector of the next turn is empty, and the calibration never ends. -/
theorem NowOffset.spins {stopCount : ℕ} {s u : NowOffset} {measured : List UInt32} (hzero : s.peak = 0)
    (hrun : run (NowOffset.step stopCount) s measured = some u) (hdone : s.done = false) : u = s := by
  have hsame : ∀ t nsi v, t = s → NowOffset.step stopCount t nsi = some v → v = s := by
    rintro t nsi v rfl hv
    have hnot : ¬ InRange t.peak nsi := by
      unfold InRange
      rw [hzero]
      exact UInt32.not_lt_zero
    rw [NowOffset.step, if_neg (ne_true_of_eq_false hdone), if_neg hnot] at hv
    exact (Option.some.inj hv).symm
  exact invariant (I := fun t => t = s) hsame rfl hrun

/-! ### `calibrate_cycles_per_ns` -/

/-- The best of 20 measurements: the cycles of the two stopwatches, and the two numbers
whose quotient is the clock. -/
structure Sample where
  delta1 : UInt64
  delta2 : UInt64
  delta3 : UInt64
  clocks : UInt64
  deriving DecidableEq

/-- `accepted` are the samples that `mma_delta` got. -/
structure CyclesPerNs where
  count1 : UInt64 → ℕ
  count2 : UInt64 → ℕ
  target1 : UInt64
  target2 : UInt64
  accepted : List Sample

def CyclesPerNs.initial : CyclesPerNs := ⟨fun _ => 0, fun _ => 0, 0, 0, []⟩

/-- The comparison with a target, in unsigned arithmetic. -/
def Near (target delta : UInt64) : Prop := target - 1 ≤ delta ∧ delta ≤ target + 1

instance (target delta : UInt64) : Decidable (Near target delta) := inferInstanceAs (Decidable (_ ∧ _))

def countDelta (mDelta : ℕ) (count : UInt64 → ℕ) (target delta : UInt64) :
    Option ((UInt64 → ℕ) × UInt64) :=
  if Int.bmod delta.toNat (2 ^ 32) < 2 * mDelta then
    if delta.toNat < 2 * mDelta then
      let count := Function.update count delta (count delta + 1)
      some (count, if count delta = 10 then delta else target)
    else none
  else some (count, target)

/-- One turn of the outer loop, which ends with the twentieth sample. -/
def CyclesPerNs.step (mDelta : ℕ) (s : CyclesPerNs) (x : Sample) : Option CyclesPerNs :=
  if s.accepted.length = 20 then none
  else if Near s.target1 x.delta1 ∧ Near s.target2 x.delta2 then
    some { s with accepted := s.accepted ++ [x] }
  else if s.target1 = 0 ∨ s.target2 = 0 then do
    let (count1, target1) ← countDelta mDelta s.count1 s.target1 x.delta1
    let (count2, target2) ← countDelta mDelta s.count2 s.target2 x.delta2
    some { s with count1, count2, target1, target2 }
  else some s

def Reached (target : UInt64) (deltas : List UInt64) : Prop := target ≠ 0 ∧ 10 ≤ deltas.count target

/-- The samples consist of those during which a target was missing, which are counted, and
those that come after them, of which the ones near to both targets are accepted. -/
structure CyclesPerNs.Phases (search rest : List Sample) (s : CyclesPerNs) : Prop where
  accepted : s.accepted = rest.filter fun x => Near s.target1 x.delta1 ∧ Near s.target2 x.delta2
  count1 : ∀ v, s.count1 v ≤ (search.map Sample.delta1).count v
  count2 : ∀ v, s.count2 v ≤ (search.map Sample.delta2).count v
  target1 : s.target1 = 0 ∨ 10 ≤ s.count1 s.target1
  target2 : s.target2 = 0 ∨ 10 ≤ s.count2 s.target2
  found : rest ≠ [] → s.target1 ≠ 0 ∧ s.target2 ≠ 0

section CyclesPerNs
variable {mDelta : ℕ} {target delta : UInt64}

/-- A target that is missing is near to nothing, because 0 - 1 is the largest number. -/
theorem not_near_zero (delta : UInt64) : ¬ Near 0 delta := by
  rintro ⟨hlow, hhigh⟩
  rw [UInt64.le_iff_toNat_le] at hlow hhigh
  have hmax : (0 - 1 : UInt64).toNat = 2 ^ 64 - 1 := rfl
  have hone : (0 + 1 : UInt64).toNat = 1 := rfl
  rw [hmax] at hlow
  rw [hone] at hhigh
  omega

theorem Near.within (h : Near target delta) :
    target.toNat ≤ delta.toNat + 1 ∧ delta.toNat ≤ target.toNat + 1 := by
  have hne : target ≠ 0 := by
    rintro rfl
    exact not_near_zero delta h
  obtain ⟨hlow, hhigh⟩ := h
  rw [UInt64.le_iff_toNat_le] at hlow hhigh
  have hpos : 1 ≤ target.toNat := by
    rw [Nat.one_le_iff_ne_zero]
    intro hzero
    exact hne (UInt64.toNat_inj.mp hzero)
  have hsub : (target - 1).toNat = target.toNat - 1 :=
    UInt64.toNat_sub_of_le _ _ (UInt64.le_iff_toNat_le.mpr hpos)
  have hadd : (target + 1).toNat ≤ target.toNat + 1 := by
    rw [UInt64.toNat_add]
    exact Nat.mod_le _ _
  omega

theorem count_update_le {count : UInt64 → ℕ} {deltas : List UInt64} (hcount : ∀ v, count v ≤ deltas.count v)
    (v : UInt64) :
    Function.update count delta (count delta + 1) v ≤ (deltas ++ [delta]).count v := by
  rw [List.count_append]
  by_cases hv : v = delta
  · subst hv
    rw [Function.update_self, List.count_singleton_self]
    exact Nat.succ_le_succ (hcount v)
  · rw [Function.update_of_ne hv]
    exact Nat.le_trans (hcount v) (Nat.le_add_right _ _)

theorem countDelta_spec {count count' : UInt64 → ℕ} {target' : UInt64} {deltas : List UInt64}
    (hs : countDelta mDelta count target delta = some (count', target'))
    (hcount : ∀ v, count v ≤ deltas.count v) (htarget : target = 0 ∨ 10 ≤ count target) :
    (∀ v, count' v ≤ (deltas ++ [delta]).count v) ∧ (target' = 0 ∨ 10 ≤ count' target') := by
  unfold countDelta at hs
  dsimp only at hs
  split_ifs at hs with hsmall hindex hten
  · cases hs
    exact ⟨count_update_le hcount, .inr (Nat.le_of_eq hten.symm)⟩
  · cases hs
    refine ⟨count_update_le hcount, ?_⟩
    rcases htarget with hzero | hle
    · exact .inl hzero
    · right
      by_cases hv : target = delta
      · subst hv
        rw [Function.update_self]
        exact Nat.le_succ_of_le hle
      · rwa [Function.update_of_ne hv]
  · cases hs
    refine ⟨?_, htarget⟩
    intro v
    rw [List.count_append]
    exact Nat.le_trans (hcount v) (Nat.le_add_right _ _)

theorem CyclesPerNs.step_phases {s s' : CyclesPerNs} {x : Sample} {search rest : List Sample}
    (h : s.Phases search rest) (hs : s.step mDelta x = some s') :
    ∃ search' rest', search ++ rest ++ [x] = search' ++ rest' ∧ s'.Phases search' rest' := by
  unfold CyclesPerNs.step at hs
  split_ifs at hs with hfull hnear hmissing
  · cases hs
    refine ⟨search, rest ++ [x], List.append_assoc .., ?_, h.count1, h.count2, h.target1, h.target2, ?_⟩
    · dsimp only
      rw [List.filter_append, ← h.accepted]
      simp [hnear]
    · intro _
      constructor
      · intro hzero
        dsimp only at hzero
        rw [hzero] at hnear
        exact not_near_zero _ hnear.1
      · intro hzero
        dsimp only at hzero
        rw [hzero] at hnear
        exact not_near_zero _ hnear.2
  · -- The search goes on, so nothing has come after it yet.
    have hrest : rest = [] := by
      by_contra hne
      obtain ⟨hone, htwo⟩ := h.found hne
      exact hmissing.elim hone htwo
    subst hrest
    simp only [Option.bind_eq_bind, Option.bind_eq_some_iff, Option.some.injEq, Prod.exists] at hs
    obtain ⟨count1, target1, hfirst, count2, target2, hsecond, rfl⟩ := hs
    obtain ⟨hcount1, htarget1⟩ := countDelta_spec hfirst h.count1 h.target1
    obtain ⟨hcount2, htarget2⟩ := countDelta_spec hsecond h.count2 h.target2
    refine ⟨search ++ [x], [], by simp, h.accepted, ?_, ?_, htarget1, htarget2, ?_⟩
    · simpa using hcount1
    · simpa using hcount2
    · intro hne
      exact absurd rfl hne
  · cases hs
    refine ⟨search, rest ++ [x], List.append_assoc .., ?_, h.count1, h.count2, h.target1, h.target2, ?_⟩
    · rw [List.filter_append, ← h.accepted]
      simp [hnear]
    · intro _
      exact not_or.mp hmissing

theorem CyclesPerNs.step_length {s s' : CyclesPerNs} {x : Sample} (h : s.accepted.length ≤ 20)
    (hs : s.step mDelta x = some s') : s'.accepted.length ≤ 20 := by
  unfold CyclesPerNs.step at hs
  split_ifs at hs with hfull hnear hmissing
  · cases hs
    rw [List.length_append, List.length_singleton]
    omega
  · simp only [Option.bind_eq_bind, Option.bind_eq_some_iff, Option.some.injEq, Prod.exists] at hs
    obtain ⟨_, _, -, _, _, -, rfl⟩ := hs
    exact h
  · cases hs
    exact h

end CyclesPerNs

end CalibrateClock
