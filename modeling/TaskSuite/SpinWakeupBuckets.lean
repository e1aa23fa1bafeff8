import Mathlib.Algebra.Order.Ring.Int
import Mathlib.Data.List.Induction
import Mathlib.Data.UInt
import TaskSuite.Machine

/-! The buckets of `spin_wakeup_test.cxx`: the time between `start` and `stop` is divided
into `nbuckets` of them, and the points of the sleeper threads are added to the sums of
the bucket of their time. -/
namespace SpinWakeupBuckets
open Machine

def nbuckets : Nat := 3000

/-- A point in time is a number of ticks of the clock. -/
structure Point where
  mTime : ℤ
  mDelayLoop : UInt64
  mTokens : UInt32

/-- A duration divided by a number is rounded towards zero. -/
def width (start stop : ℤ) : ℤ := (stop - start).tdiv nbuckets

/-- The result has the type `unsigned int`. -/
def getBucket (start width tp : ℤ) : ℤ := (tp - start).tdiv width % 2 ^ 32

abbrev Buckets := Fin nbuckets → UInt64 × ℤ

def Buckets.add (sums : Buckets) (bucket : Fin nbuckets) (amount : UInt64) : Buckets :=
  Function.update sums bucket ((sums bucket).1 + amount, (sums bucket).2 + 1)

structure Sums where
  delayLoopSums : Buckets
  tokensSums : Buckets
  /-- How often "* bucket overflow!" was printed. -/
  overflows : Nat

def Sums.zero : Sums := ⟨fun _ => (0, 0), fun _ => (0, 0), 0⟩

/-- The body of the inner loop; refused where it would use an index that the arrays do
not have. -/
def addPoint (start stop : ℤ) (s : Sums) (point : Point) : Option Sums :=
  let bucket := Int.bmod (getBucket start (width start stop) point.mTime) (2 ^ 32)
  if bucket > nbuckets then some { s with overflows := s.overflows + 1 }
  else if h : 0 ≤ bucket ∧ bucket < nbuckets then
    let index : Fin nbuckets := ⟨bucket.toNat, by omega⟩
    some { s with
      delayLoopSums := s.delayLoopSums.add index point.mDelayLoop
      tokensSums := s.tokensSums.add index point.mTokens.toUInt64 }
  else none

def addPoints (start stop : ℤ) (plotData : List (List Point)) : Option Sums :=
  run (addPoint start stop) Sums.zero plotData.flatten

/-! ### The bucket of a point -/

def place (start stop : ℤ) (point : Point) : ℤ := (point.mTime - start) / width start stop

section Place
variable {start stop : ℤ} {point : Point}

theorem width_eq (hspan : (nbuckets : ℤ) ≤ stop - start) :
    width start stop = (stop - start) / nbuckets :=
  Int.tdiv_eq_ediv_of_nonneg (by omega)

theorem width_pos (hspan : (nbuckets : ℤ) ≤ stop - start) : 0 < width start stop := by
  rw [width_eq hspan, nbuckets] at *
  omega

theorem place_nonneg (hspan : (nbuckets : ℤ) ≤ stop - start) (hstart : start ≤ point.mTime) :
    0 ≤ place start stop point :=
  Int.ediv_nonneg (by omega) (width_pos hspan).le

theorem place_lt (hspan : (nbuckets : ℤ) ≤ stop - start) (hstop : point.mTime ≤ stop) :
    place start stop point < 6000 := by
  apply Int.ediv_lt_of_lt_mul (width_pos hspan)
  rw [width_eq hspan, nbuckets] at *
  omega

theorem bucket_eq_place (hspan : (nbuckets : ℤ) ≤ stop - start)
    (htime : start ≤ point.mTime ∧ point.mTime ≤ stop) :
    Int.bmod (getBucket start (width start stop) point.mTime) (2 ^ 32) = place start stop point := by
  have hlow := place_nonneg hspan htime.1
  have hhigh := place_lt hspan htime.2
  rw [place] at hlow hhigh ⊢
  rw [getBucket, Int.tdiv_eq_ediv_of_nonneg (by omega), Int.emod_eq_of_lt hlow (by omega)]
  exact Int.bmod_eq_of_le (by omega) (by omega)

/-- The point is in the remainder that the buckets do not cover, but not behind it by
the width of another bucket. -/
theorem place_eq_nbuckets_iff (hspan : (nbuckets : ℤ) ≤ stop - start) :
    place start stop point = nbuckets ↔ start + nbuckets * width start stop ≤ point.mTime ∧
      point.mTime < start + (nbuckets + 1) * width start stop := by
  have hpos := width_pos hspan
  have hle := Int.le_ediv_iff_mul_le (a := (nbuckets : ℤ)) (b := point.mTime - start) hpos
  have hlt := Int.ediv_lt_iff_lt_mul (a := point.mTime - start) (b := (nbuckets : ℤ) + 1) hpos
  rw [place]
  omega

end Place

/-! ### The sums -/

def inBucket (start stop : ℤ) (points : List Point) (bucket : Fin nbuckets) : List Point :=
  points.filter fun point => place start stop point = bucket

/-- What has to be in a bucket. -/
def sumOf (amount : Point → UInt64) (points : List Point) : UInt64 × ℤ :=
  ((points.map amount).sum, points.length)

/-- Every point is added to one bucket, in both arrays, or reported. -/
structure Accounts (start stop : ℤ) (points : List Point) (s : Sums) : Prop where
  delayLoop : ∀ b, s.delayLoopSums b = sumOf Point.mDelayLoop (inBucket start stop points b)
  tokens : ∀ b, s.tokensSums b = sumOf (fun p => p.mTokens.toUInt64) (inBucket start stop points b)
  overflows : s.overflows = points.countP fun point => nbuckets < place start stop point
  once : ∀ point ∈ points, (∃ b : Fin nbuckets, place start stop point = b) ∨
    nbuckets < place start stop point

section Accounts
variable {start stop : ℤ} {points : List Point} {point : Point} {s : Sums}

theorem inBucket_append_singleton (b : Fin nbuckets) :
    inBucket start stop (points ++ [point]) b = inBucket start stop points b ++
      if place start stop point = b then [point] else [] := by
  rw [inBucket, List.filter_append, List.filter_cons, List.filter_nil]
  simp only [decide_eq_true_eq]
  rfl

theorem add_eq_sumOf {amount : Point → UInt64} {sums : Buckets} {b : Fin nbuckets}
    (hsums : ∀ b, sums b = sumOf amount (inBucket start stop points b))
    (hb : place start stop point = b) (c : Fin nbuckets) :
    sums.add b (amount point) c = sumOf amount (inBucket start stop (points ++ [point]) c) := by
  rw [inBucket_append_singleton, hb, Buckets.add]
  by_cases hc : c = b
  · subst hc
    rw [Function.update_self, if_pos rfl, hsums]
    simp [sumOf]
  · have hne : ((b : Nat) : ℤ) ≠ (c : Nat) := fun h => hc (Fin.ext (Int.ofNat.inj h.symm))
    rw [Function.update_of_ne hc, if_neg hne, List.append_nil, hsums]

theorem Accounts.add (h : Accounts start stop points s) {b : Fin nbuckets}
    (hb : place start stop point = b) :
    Accounts start stop (points ++ [point]) { s with
      delayLoopSums := s.delayLoopSums.add b point.mDelayLoop
      tokensSums := s.tokensSums.add b point.mTokens.toUInt64 } where
  delayLoop := add_eq_sumOf h.delayLoop hb
  tokens := add_eq_sumOf h.tokens hb
  overflows := by
    have hin : ¬ (nbuckets : ℤ) < place start stop point := by
      have hlt := b.isLt
      omega
    rw [List.countP_append, List.countP_singleton, h.overflows]
    simp [hin]
  once := List.forall_mem_append.mpr ⟨h.once, List.forall_mem_singleton.mpr (.inl ⟨b, hb⟩)⟩

theorem Accounts.report (h : Accounts start stop points s)
    (hover : nbuckets < place start stop point) :
    Accounts start stop (points ++ [point]) { s with overflows := s.overflows + 1 } := by
  have hsame : ∀ b, inBucket start stop (points ++ [point]) b = inBucket start stop points b := by
    intro b
    have hne : place start stop point ≠ b := by
      have hlt := b.isLt
      omega
    rw [inBucket_append_singleton, if_neg hne, List.append_nil]
  refine ⟨fun b => ?_, fun b => ?_, ?_, ?_⟩
  · rw [hsame]
    exact h.delayLoop b
  · rw [hsame]
    exact h.tokens b
  · rw [List.countP_append, List.countP_singleton, h.overflows]
    simp [hover]
  · exact List.forall_mem_append.mpr ⟨h.once, List.forall_mem_singleton.mpr (.inr hover)⟩

variable (hspan : (nbuckets : ℤ) ≤ stop - start) (htime : start ≤ point.mTime ∧ point.mTime ≤ stop)
include hspan htime

theorem Accounts.addPoint (h : Accounts start stop points s) (hne : place start stop point ≠ nbuckets) :
    ∃ s', addPoint start stop s point = some s' ∧ Accounts start stop (points ++ [point]) s' := by
  have hlow := place_nonneg hspan htime.1
  simp only [SpinWakeupBuckets.addPoint, bucket_eq_place hspan htime]
  rcases lt_or_gt_of_ne hne with hin | hover
  · rw [if_neg (not_lt.mpr hin.le), dif_pos ⟨hlow, hin⟩]
    exact ⟨_, rfl, h.add (Int.toNat_of_nonneg hlow).symm⟩
  · rw [if_pos hover]
    exact ⟨_, rfl, h.report hover⟩

/-- The index that is one too large is used. -/
theorem addPoint_eq_none (hplace : place start stop point = nbuckets) (s : Sums) :
    addPoint start stop s point = none := by
  simp only [SpinWakeupBuckets.addPoint, bucket_eq_place hspan htime, hplace]
  simp

end Accounts

theorem exists_accounts {start stop : ℤ} (hspan : (nbuckets : ℤ) ≤ stop - start) {points : List Point}
    (htimes : ∀ p ∈ points, start ≤ p.mTime ∧ p.mTime ≤ stop)
    (hne : ∀ p ∈ points, place start stop p ≠ nbuckets) :
    ∃ s, run (addPoint start stop) Sums.zero points = some s ∧ Accounts start stop points s := by
  induction points using List.reverseRecOn with
  | nil =>
      exact ⟨Sums.zero, rfl, fun _ => rfl, fun _ => rfl, rfl, fun _ h => absurd h List.not_mem_nil⟩
  | append_singleton points point ih =>
      rw [List.forall_mem_append, List.forall_mem_singleton] at htimes hne
      obtain ⟨s, hs, haccounts⟩ := ih htimes.1 hne.1
      obtain ⟨s', hs', haccounts'⟩ := haccounts.addPoint hspan htimes.2 hne.2
      exact ⟨s', run_append.mpr ⟨s, hs, run_cons.mpr ⟨s', hs', rfl⟩⟩, haccounts'⟩

/-- **All indices are in range, and every point is added once or reported, exactly if no
point lies within one width behind the last bucket.** -/
theorem addPoints_accounts_iff (start stop : ℤ) (hspan : (nbuckets : ℤ) ≤ stop - start)
    (plotData : List (List Point))
    (htimes : ∀ p ∈ plotData.flatten, start ≤ p.mTime ∧ p.mTime ≤ stop) :
    (∃ s, addPoints start stop plotData = some s ∧ Accounts start stop plotData.flatten s) ↔
      ∀ p ∈ plotData.flatten, ¬ (start + nbuckets * width start stop ≤ p.mTime ∧
        p.mTime < start + (nbuckets + 1) * width start stop) := by
  simp only [← place_eq_nbuckets_iff hspan]
  constructor
  · rintro ⟨s, hs, -⟩ p hp hplace
    rw [addPoints, run_eq_none hp (addPoint_eq_none hspan (htimes p hp) hplace)] at hs
    cases hs
  · exact exists_accounts hspan htimes

/-- Two points in the same bucket, one in the last bucket, and one that is reported. -/
theorem addPoints_accounts_four :
    let plotData : List (List Point) := [[⟨100, 7, 2⟩, ⟨3101, 9, 1⟩, ⟨3099, 4, 0⟩], [⟨100, 8, 3⟩]]
    ((nbuckets : ℤ) ≤ 5999 - 100 ∧ ∀ p ∈ plotData.flatten, 100 ≤ p.mTime ∧ p.mTime ≤ 5999) ∧
      ∃ s, addPoints 100 5999 plotData = some s ∧ Accounts 100 5999 plotData.flatten s := by
  intro plotData
  have hspan : (nbuckets : ℤ) ≤ 5999 - 100 := by decide
  have htimes : ∀ p ∈ plotData.flatten, 100 ≤ p.mTime ∧ p.mTime ≤ 5999 := by decide
  exact ⟨⟨hspan, htimes⟩, (addPoints_accounts_iff 100 5999 hspan plotData htimes).mpr (by decide)⟩

/-- A run of a second, with a point in its last microsecond: the buckets end in front of
it, and the index is the size of the arrays. -/
theorem addPoints_out_of_range :
    let plotData : List (List Point) := [[⟨999999505, 7, 2⟩], [], [], []]
    ((nbuckets : ℤ) ≤ 1000000005 - 5 ∧
      ∀ p ∈ plotData.flatten, 5 ≤ p.mTime ∧ p.mTime ≤ 1000000005) ∧
      addPoints 5 1000000005 plotData = none := by
  decide

end SpinWakeupBuckets
