import TaskSuite.RunningMode
import Mathlib.Order.Bounds.Basic
import Mathlib.Algebra.Order.Ring.Int

/-! The two histograms of `Benchmark::calibrate_delta`, from which it takes the
most frequent deltas. -/
namespace CalibrateDelta
open RunningMode

/-- A measurement; `min` is a `double` with the value of an integer. -/
structure Data where
  min : Int
  delta1 : UInt64
  delta2 : UInt64
deriving DecidableEq

/-- What is used of `eda::MinAvgMax`, of the submodule cwds. -/
structure MinAvgMax where
  min : List Int → Int
  max : List Int → Int
  isLeast_min : ∀ points, points ≠ [] → IsLeast {x | x ∈ points} (min points)
  isGreatest_max : ∀ points, points ≠ [] → IsGreatest {x | x ∈ points} (max points)

/-! ### The histograms -/

def toInt (x : Int) : Int := x.bmod (2 ^ 32)

def IsInt (x : Int) : Prop := -2 ^ 31 ≤ x ∧ x < 2 ^ 31

instance (x : Int) : Decidable (IsInt x) := inferInstanceAs (Decidable (_ ∧ _))

/-- The result of an operation on `int`; none if it overflows. -/
def checked (x : Int) : Option Int := if IsInt x then some x else none

/-- `low` and `width`. -/
def bins (m : MinAvgMax) (data : List Data) : Option (Int × Int) := do
  let low := toInt (m.min (data.map Data.min))
  let high := toInt (m.max (data.map Data.min))
  let width ← checked (high - low)
  let width ← checked (width + 1)
  some (low, width)

def maxDelta (m : MinAvgMax) (deltas : List UInt64) : Int :=
  m.max (deltas.map fun delta => toInt delta.toNat)

/-- `count`, of one more than the largest delta; none if its size overflows or if
the constructor throws, because the size is negative. -/
def countVector (m : MinAvgMax) (deltas : List UInt64) : Option (List Nat) := do
  let size ← checked (maxDelta m deltas + 1)
  if size < 0 then none else some (List.replicate size.toNat 0)

/-- The counts are at most the number of data points, which is 100000. -/
structure Histogram where
  count : List Nat
  maxCount : Nat
  best : Nat

/-- What is done for a point of the bin; none if an index is not in the vector. -/
def addPoint (delta compared : UInt64) (h : Histogram) : Option Histogram := do
  let old ← h.count[delta.toNat]?
  let count := h.count.set delta.toNat (old + 1)
  let reached ← count[compared.toNat]?
  if reached > h.maxCount then
    let maxCount ← count[delta.toNat]?
    some ⟨count, maxCount, delta.toNat⟩
  else some { h with count }

/-- The loop over the bins, and in it over the data. -/
def histogram (delta compared : Data → UInt64) (m : MinAvgMax) (data : List Data) :
    Option Histogram := do
  let (low, width) ← bins m data
  let count ← countVector m (data.map delta)
  (List.range width.toNat).foldlM (fun h (c : Nat) =>
    data.foldlM (fun h d =>
      if toInt (d.min - low) = c ∧ delta d < 300 then addPoint (delta d) (compared d) h
      else some h) h) ⟨count, 0, 0⟩

def delta1Histogram : MinAvgMax → List Data → Option Histogram := histogram Data.delta1 Data.delta1

/-- The second loop compares the count of `delta1` too. -/
def delta2Histogram : MinAvgMax → List Data → Option Histogram := histogram Data.delta2 Data.delta1

/-- A round of `calibrate_delta` accepts a delta, or the measurement is done again. -/
inductive Round where
  | retry
  | accept (delta : Nat)
deriving DecidableEq

def round (m : MinAvgMax) (data : List Data) : Option Round := do
  let h1 ← delta1Histogram m data
  if h1.maxCount < 40000 then some .retry
  else
    let h2 ← delta2Histogram m data
    if h2.maxCount < 30000 ∨ h2.best ≠ h1.best then some .retry else some (.accept h1.best)

/-! ### Counting in a vector -/

structure Represents (size : Nat) (h : Histogram) (s : State UInt64) : Prop where
  length : h.count.length = size
  count : ∀ v : UInt64, v.toNat < size → h.count[v.toNat]? = some (s.seen.count v)
  maxCount : h.maxCount = s.most
  best : h.best = (s.best.map UInt64.toNat).getD 0

section Vector
variable {size : Nat} {h h' : Histogram} {s : State UInt64} {points : List (UInt64 × UInt64)}

theorem represents_init (size : Nat) :
    Represents size ⟨List.replicate size 0, 0, 0⟩ ⟨[], none, 0⟩ where
  length := List.length_replicate
  count _ hv := List.getElem?_replicate_of_lt hv
  maxCount := rfl
  best := rfl

theorem Represents.set_count (hrep : Represents size h s) {delta v : UInt64} (hv : v.toNat < size) :
    (h.count.set delta.toNat (s.seen.count delta + 1))[v.toNat]? =
      some ((s.seen ++ [delta]).count v) := by
  rw [count_snoc, List.getElem?_set]
  by_cases heq : delta = v
  · subst heq
    rw [if_pos rfl, if_pos (hrep.length ▸ hv), if_pos rfl]
  · have hne : delta.toNat ≠ v.toNat := fun h => heq (UInt64.toNat_inj.mp h)
    rw [if_neg hne, if_neg heq, hrep.count v hv]
    rfl

theorem addPoint_represents (hrep : Represents size h s) {delta compared : UInt64}
    (hdelta : delta.toNat < size) (hcompared : compared.toNat < size) :
    ∃ h', addPoint delta compared h = some h' ∧ Represents size h' (visit s (delta, compared)) := by
  have hlength : ∀ n, (h.count.set delta.toNat n).length = size := fun n =>
    List.length_set.trans hrep.length
  simp only [addPoint, visit, Option.bind_eq_bind, hrep.count delta hdelta, Option.bind_some,
    hrep.set_count hcompared, hrep.set_count hdelta, hrep.maxCount]
  split
  · exact ⟨_, rfl, hlength _, fun v hv => hrep.set_count hv, rfl, rfl⟩
  · exact ⟨_, rfl, hlength _, fun v hv => hrep.set_count hv, rfl, hrep.best⟩

theorem addPoint_none (hrep : Represents size h s) {delta compared : UInt64}
    (hcompared : size ≤ compared.toNat) : addPoint delta compared h = none := by
  have hnone : ∀ n, (h.count.set delta.toNat n)[compared.toNat]? = none := by
    intro n
    rw [List.getElem?_eq_none_iff, List.length_set, hrep.length]
    exact hcompared
  unfold addPoint
  cases h.count[delta.toNat]? with
  | none => rfl
  | some old => simp only [Option.bind_eq_bind, Option.bind_some, hnone, Option.bind_none]

theorem foldlM_addPoint (hrep : Represents size h s) (hkeys : ∀ p ∈ points, p.1.toNat < size)
    (hcompared : ∀ p ∈ points, p.2.toNat < size) :
    ∃ h', points.foldlM (fun h p => addPoint p.1 p.2 h) h = some h' ∧
      Represents size h' (points.foldl visit s) := by
  induction points generalizing h s with
  | nil => exact ⟨h, rfl, hrep⟩
  | cons p points ih =>
      obtain ⟨h', hadd, hrep'⟩ := addPoint_represents hrep (hkeys p List.mem_cons_self)
        (hcompared p List.mem_cons_self)
      rw [List.foldlM_cons, hadd]
      exact ih hrep' (fun q hq => hkeys q (List.mem_cons_of_mem p hq))
        fun q hq => hcompared q (List.mem_cons_of_mem p hq)

theorem compared_lt_of_foldlM (hrep : Represents size h s) (hkeys : ∀ p ∈ points, p.1.toNat < size)
    (hsome : points.foldlM (fun h p => addPoint p.1 p.2 h) h = some h') :
    ∀ p ∈ points, p.2.toNat < size := by
  induction points generalizing h s with
  | nil => exact fun p hp => absurd hp List.not_mem_nil
  | cons p points ih =>
      rw [List.foldlM_cons] at hsome
      by_cases hp : p.2.toNat < size
      · obtain ⟨h₁, hadd, hrep₁⟩ := addPoint_represents hrep (hkeys p List.mem_cons_self) hp
        rw [hadd] at hsome
        have hrest := ih hrep₁ (fun q hq => hkeys q (List.mem_cons_of_mem p hq)) hsome
        exact List.forall_mem_cons.mpr ⟨hp, hrest⟩
      · rw [addPoint_none hrep (Nat.le_of_not_lt hp)] at hsome
        cases hsome

end Vector

/-! ### The points in the bins -/

def low (m : MinAvgMax) (data : List Data) : Int := toInt (m.min (data.map Data.min))

def width (m : MinAvgMax) (data : List Data) : Int :=
  toInt (m.max (data.map Data.min)) - low m data + 1

/-- `width` does not overflow. -/
def BinsFit (m : MinAvgMax) (data : List Data) : Prop :=
  IsInt (width m data - 1) ∧ IsInt (width m data)

instance (m : MinAvgMax) (data : List Data) : Decidable (BinsFit m data) :=
  inferInstanceAs (Decidable (_ ∧ _))

/-- The points that are in a bin, in the order of their bins. -/
def binned (m : MinAvgMax) (data : List Data) : List Data :=
  inBins (fun d => toInt (d.min - low m data)) (width m data).toNat data

def counted (delta compared : Data → UInt64) (points : List Data) : List (UInt64 × UInt64) :=
  (points.filter fun d => delta d < 300).map fun d => (delta d, compared d)

section Points
variable {m : MinAvgMax} {data : List Data} {delta compared : Data → UInt64}

theorem toInt_of_isInt {x : Int} (h : IsInt x) : toInt x = x := by
  obtain ⟨hlow, hhigh⟩ := h
  rw [toInt, Int.bmod_def]
  split <;> omega

theorem bins_eq_some_iff {p : Int × Int} :
    bins m data = some p ↔ BinsFit m data ∧ p = (low m data, width m data) := by
  have hspan : toInt (m.max (data.map Data.min)) - toInt (m.min (data.map Data.min)) =
      width m data - 1 := by
    unfold width low
    omega
  simp only [bins, checked, hspan, Option.bind_eq_bind, BinsFit]
  by_cases hone : IsInt (width m data - 1)
  · by_cases htwo : IsInt (width m data)
    · simp [hone, htwo, low, eq_comm]
    · simp [hone, htwo]
  · simp [hone]

theorem binned_perm (m : MinAvgMax) (data : List Data) :
    (binned m data).Perm (data.filter fun d => 0 ≤ toInt (d.min - low m data) ∧
      toInt (d.min - low m data) < (width m data).toNat) :=
  inBins_perm_filter _ _ data

theorem mem_of_mem_binned {d : Data} (h : d ∈ binned m data) : d ∈ data :=
  (List.mem_filter.mp ((binned_perm m data).mem_iff.mp h)).1

theorem count_binned_le (delta : Data → UInt64) (v : UInt64) :
    ((binned m data).map delta).count v ≤ (data.map delta).count v := by
  rw [((binned_perm m data).map delta).count_eq v]
  exact (List.filter_sublist.map delta).count_le v

theorem foldlM_flatMap {ι β γ : Type} (f : ι → List β) (g : γ → β → Option γ) (is : List ι) (c : γ) :
    (is.flatMap f).foldlM g c = is.foldlM (fun c i => (f i).foldlM g c) c := by
  induction is generalizing c with
  | nil => rfl
  | cons i is ih =>
      rw [List.flatMap_cons, List.foldlM_append, List.foldlM_cons]
      congr 1
      funext c'
      exact ih c'

theorem foldlM_bin (low : Int) (data : List Data) (c : Nat) (h : Histogram) :
    data.foldlM (fun h d =>
      if toInt (d.min - low) = c ∧ delta d < 300 then addPoint (delta d) (compared d) h
      else some h) h =
    (data.filter fun d => toInt (d.min - low) = c).foldlM (fun h d =>
      if delta d < 300 then addPoint (delta d) (compared d) h else some h) h := by
  induction data generalizing h with
  | nil => rfl
  | cons d data ih =>
      rw [List.foldlM_cons]
      by_cases hc : toInt (d.min - low) = c
      · rw [List.filter_cons_of_pos (by simpa using hc), List.foldlM_cons]
        simp only [hc, true_and]
        congr 1
        funext h'
        exact ih h'
      · rw [List.filter_cons_of_neg (by simpa using hc)]
        simp only [hc, false_and, if_false]
        exact ih h

/-- A loop goes over the points in the bins, if their number does not overflow. -/
theorem histogram_eq_some_iff {h : Histogram} : histogram delta compared m data = some h ↔
    BinsFit m data ∧ ∃ count, countVector m (data.map delta) = some count ∧
      (counted delta compared (binned m data)).foldlM (fun h p => addPoint p.1 p.2 h)
        ⟨count, 0, 0⟩ = some h := by
  have hloop : ∀ count, (List.range (width m data).toNat).foldlM (fun h (c : Nat) =>
      data.foldlM (fun h d =>
        if toInt (d.min - low m data) = c ∧ delta d < 300 then addPoint (delta d) (compared d) h
        else some h) h) ⟨count, 0, 0⟩ =
      (counted delta compared (binned m data)).foldlM (fun h p => addPoint p.1 p.2 h)
        ⟨count, 0, 0⟩ := by
    intro count
    simp only [foldlM_bin (low m data) data]
    simp only [counted, binned, inBins, List.foldlM_map, List.foldlM_filter, foldlM_flatMap,
      decide_eq_true_eq]
    rfl
  rw [histogram, Option.bind_eq_bind, Option.bind_eq_some_iff]
  constructor
  · rintro ⟨p, hp, hrest⟩
    obtain ⟨hfits, rfl⟩ := bins_eq_some_iff.mp hp
    obtain ⟨count, hcount, hrun⟩ := Option.bind_eq_some_iff.mp hrest
    exact ⟨hfits, count, hcount, (hloop count).symm.trans hrun⟩
  · rintro ⟨hfits, count, hcount, hrun⟩
    refine ⟨_, bins_eq_some_iff.mpr ⟨hfits, rfl⟩, ?_⟩
    exact Option.bind_eq_some_iff.mpr ⟨count, hcount, (hloop count).trans hrun⟩

end Points

/-! ### The modes -/

structure IsBest (deltas : List UInt64) (v : UInt64) : Prop where
  mem : v ∈ deltas
  lt : v < 300
  most : ∀ w, w < 300 → deltas.count w ≤ deltas.count v

def HasMode (deltas : List UInt64) (h : Histogram) : Prop :=
  ((∀ v ∈ deltas, ¬ v < 300) ∧ h.best = 0 ∧ h.maxCount = 0) ∨
    ∃ v, IsBest deltas v ∧ h.best = v.toNat ∧ h.maxCount = deltas.count v

/-- The size of the vector is not negative and does not overflow. -/
def SizeFits (m : MinAvgMax) (deltas : List UInt64) : Prop :=
  -1 ≤ maxDelta m deltas ∧ maxDelta m deltas + 1 < 2 ^ 31

instance (m : MinAvgMax) (deltas : List UInt64) : Decidable (SizeFits m deltas) :=
  inferInstanceAs (Decidable (_ ∧ _))

/-- What is compared is in the vector. -/
def Inside (delta compared : Data → UInt64) (m : MinAvgMax) (data : List Data) : Prop :=
  ∀ d ∈ binned m data, delta d < 300 → ((compared d).toNat : Int) ≤ maxDelta m (data.map delta)

instance (delta compared : Data → UInt64) (m : MinAvgMax) (data : List Data) :
    Decidable (Inside delta compared m data) :=
  inferInstanceAs (Decidable (∀ d ∈ binned m data, _ → _))

/-- Nothing is to be found, or all the points with one of the best deltas are in the bins. -/
def BestBinned (delta : Data → UInt64) (m : MinAvgMax) (data : List Data) : Prop :=
  (∀ v ∈ data.map delta, ¬ v < 300) ∨
    ∃ v, IsBest (data.map delta) v ∧ ((binned m data).map delta).count v = (data.map delta).count v

section Modes
variable {m : MinAvgMax} {data : List Data} {deltas : List UInt64} {h : Histogram}
  {delta compared : Data → UInt64}

theorem countVector_eq_some_iff {count : List Nat} :
    countVector m deltas = some count ↔
      SizeFits m deltas ∧ count = List.replicate (maxDelta m deltas + 1).toNat 0 := by
  have hsize : SizeFits m deltas ↔ IsInt (maxDelta m deltas + 1) ∧ ¬ maxDelta m deltas + 1 < 0 := by
    unfold SizeFits IsInt
    omega
  rw [hsize]
  unfold countVector checked
  by_cases hint : IsInt (maxDelta m deltas + 1)
  · rw [if_pos hint, Option.bind_eq_bind, Option.bind_some]
    by_cases hneg : maxDelta m deltas + 1 < 0
    · rw [if_pos hneg]
      exact iff_of_false (fun heq => by cases heq) fun hright => hright.1.2 hneg
    · rw [if_neg hneg, Option.some_inj]
      exact ⟨fun heq => ⟨⟨hint, hneg⟩, heq.symm⟩, fun hright => hright.2.symm⟩
  · rw [if_neg hint]
    exact iff_of_false (fun heq => by cases heq) fun hright => hint hright.1.1

theorem le_maxDelta {v : UInt64} (hv : v ∈ deltas) (hlt : v < 300) :
    (v.toNat : Int) ≤ maxDelta m deltas := by
  have hsmall : v.toNat < 300 := UInt64.lt_iff_toNat_lt.mp hlt
  have hint : toInt v.toNat = v.toNat := toInt_of_isInt ⟨by omega, by omega⟩
  have hmem : (v.toNat : Int) ∈ deltas.map fun delta => toInt delta.toNat :=
    List.mem_map.mpr ⟨v, hv, hint⟩
  exact (m.isGreatest_max _ (List.ne_nil_of_mem hmem)).2 hmem

theorem mem_counted {points : List Data} {p : UInt64 × UInt64} :
    p ∈ counted delta compared points ↔ ∃ d ∈ points, delta d < 300 ∧ (delta d, compared d) = p := by
  simp only [counted, List.mem_map, List.mem_filter, and_assoc, decide_eq_true_eq]

theorem keys_counted (points : List Data) :
    keys (counted delta compared points) = (points.map delta).filter fun v => v < 300 := by
  rw [keys, counted, List.map_map, List.filter_map]
  rfl

theorem count_keys {points : List Data} {v : UInt64} (hv : v < 300) :
    (keys (counted delta compared points)).count v = (points.map delta).count v := by
  rw [keys_counted]
  exact List.count_filter (p := fun v : UInt64 => decide (v < 300)) (decide_eq_true hv)

theorem count_keys_eq_zero {points : List Data} {v : UInt64} (hv : ¬ v < 300) :
    (keys (counted delta compared points)).count v = 0 := by
  rw [keys_counted]
  exact List.count_eq_zero_of_not_mem (by simp [hv])

theorem counted_lt_size {p : UInt64 × UInt64} (hp : p ∈ counted delta compared (binned m data)) :
    p.1.toNat < (maxDelta m (data.map delta) + 1).toNat := by
  obtain ⟨d, hd, hlt, rfl⟩ := mem_counted.mp hp
  have hle := le_maxDelta (m := m) (List.mem_map_of_mem (f := delta) (mem_of_mem_binned hd)) hlt
  show (delta d).toNat < _
  omega

theorem inside_iff (delta compared : Data → UInt64) :
    Inside delta compared m data ↔ ∀ p ∈ counted delta compared (binned m data),
      p.2.toNat < (maxDelta m (data.map delta) + 1).toNat := by
  constructor
  · intro h p hp
    obtain ⟨d, hd, hlt, rfl⟩ := mem_counted.mp hp
    have hle := h d hd hlt
    show (compared d).toNat < _
    omega
  · intro h d hd hlt
    have hsmall : (compared d).toNat < _ := h _ (mem_counted.mpr ⟨d, hd, hlt, rfl⟩)
    omega

structure Fits (delta compared : Data → UInt64) (m : MinAvgMax) (data : List Data) : Prop where
  bins : BinsFit m data
  size : SizeFits m (data.map delta)
  inside : Inside delta compared m data

/-- The result of a loop, as a pass over the points that are counted. -/
abbrev Found (delta compared : Data → UInt64) (m : MinAvgMax) (data : List Data) (h : Histogram) :
    Prop :=
  Represents (maxDelta m (data.map delta) + 1).toNat h (run (counted delta compared (binned m data)))

theorem Fits.exists_histogram (hfits : Fits delta compared m data) :
    ∃ h, histogram delta compared m data = some h ∧ Found delta compared m data h := by
  have hinside := (inside_iff delta compared).mp hfits.inside
  obtain ⟨h, hloop, hrep⟩ := foldlM_addPoint
    (represents_init (maxDelta m (data.map delta) + 1).toNat) (fun _ => counted_lt_size) hinside
  refine ⟨h, histogram_eq_some_iff.mpr ⟨hfits.bins, _, ?_, hloop⟩, hrep⟩
  exact countVector_eq_some_iff.mpr ⟨hfits.size, rfl⟩

theorem fits_of_histogram (hsome : histogram delta compared m data = some h) :
    Fits delta compared m data ∧ Found delta compared m data h := by
  obtain ⟨hbins, count, hcount, hloop⟩ := histogram_eq_some_iff.mp hsome
  obtain ⟨hsize, rfl⟩ := countVector_eq_some_iff.mp hcount
  have hinit := represents_init (maxDelta m (data.map delta) + 1).toNat
  have hinside := compared_lt_of_foldlM hinit (fun _ => counted_lt_size) hloop
  have hfits : Fits delta compared m data := ⟨hbins, hsize, (inside_iff delta compared).mpr hinside⟩
  obtain ⟨h', hloop', hrep⟩ := foldlM_addPoint hinit (fun _ => counted_lt_size) hinside
  obtain rfl := Option.some_inj.mp (hloop'.symm.trans hloop)
  exact ⟨hfits, hrep⟩

theorem bestBinned_of_hasMode (hfound : Found delta compared m data h)
    (hmode : HasMode (data.map delta) h) : BestBinned delta m data := by
  rcases hmode with ⟨hnone, -, -⟩ | ⟨v, hv, hbest, hmost⟩
  · exact .inl hnone
  · obtain ⟨hunset, hreached⟩ := run_bounded (counted delta compared (binned m data))
    have hpos : 0 < (data.map delta).count v := List.count_pos_iff.mpr hv.mem
    have hcount := hfound.maxCount
    have hfoundBest := hfound.best
    cases hs : (run (counted delta compared (binned m data))).best with
    | none =>
        have hzero := hunset hs
        omega
    | some u =>
        rw [hs] at hfoundBest
        obtain rfl : u = v := UInt64.toNat_inj.mp (hfoundBest.symm.trans hbest)
        obtain ⟨-, hle⟩ := hreached u hs
        rw [run_seen, count_keys hv.lt] at hle
        exact .inr ⟨u, hv, le_antisymm (count_binned_le delta u) (by omega)⟩

/-- If the maximum becomes the number of occurrences of a best delta then a best delta
has been found. -/
theorem hasMode_of_most (hfound : Found delta compared m data h) {v : UInt64}
    (hv : IsBest (data.map delta) v)
    (hmost : (run (counted delta compared (binned m data))).most = (data.map delta).count v) :
    HasMode (data.map delta) h := by
  obtain ⟨hunset, hreached⟩ := run_bounded (counted delta compared (binned m data))
  have hpos : 0 < (data.map delta).count v := List.count_pos_iff.mpr hv.mem
  have hfoundBest := hfound.best
  cases hs : (run (counted delta compared (binned m data))).best with
  | none =>
      have hzero := hunset hs
      omega
  | some u =>
      rw [hs] at hfoundBest
      obtain ⟨hmem, hle⟩ := hreached u hs
      rw [run_seen] at hmem hle
      have hu : u < 300 := by
        rw [keys_counted] at hmem
        exact of_decide_eq_true (List.mem_filter.mp hmem).2
      rw [count_keys hu] at hle
      have hle' : ((binned m data).map delta).count u ≤ (data.map delta).count u := count_binned_le delta u
      have hmax := hv.most u hu
      have hbest : IsBest (data.map delta) u :=
        ⟨List.count_pos_iff.mp (by omega), hu, fun w hw => (hv.most w hw).trans (by omega)⟩
      exact .inr ⟨u, hbest, hfoundBest, by rw [hfound.maxCount]; omega⟩

theorem hasMode_of_none (hfound : Found delta compared m data h)
    (hnone : ∀ v ∈ data.map delta, ¬ v < 300) : HasMode (data.map delta) h := by
  have hempty : counted delta compared (binned m data) = [] := by
    refine List.eq_nil_iff_forall_not_mem.mpr fun p hp => ?_
    obtain ⟨d, hd, hlt, -⟩ := mem_counted.mp hp
    exact hnone _ (List.mem_map_of_mem (mem_of_mem_binned hd)) hlt
  have hbest := hfound.best
  have hmost := hfound.maxCount
  rw [hempty] at hbest hmost
  exact .inl ⟨hnone, hbest, hmost⟩

/-- The first loop compares what it counts, which is right for the points in the bins. -/
theorem delta1_hasMode_iff (hfound : Found Data.delta1 Data.delta1 m data h) :
    HasMode (data.map Data.delta1) h ↔ BestBinned Data.delta1 m data := by
  refine ⟨bestBinned_of_hasMode hfound, ?_⟩
  rintro (hnone | ⟨v, hv, hbinned⟩)
  · exact hasMode_of_none hfound hnone
  · refine hasMode_of_most hfound hv ?_
    have hequal : ∀ p ∈ counted Data.delta1 Data.delta1 (binned m data), p.1 = p.2 := by
      intro p hp
      obtain ⟨d, -, -, rfl⟩ := mem_counted.mp hp
      rfl
    have hmode := run_isMode hequal
    have hle := hmode.count_le v
    rw [count_keys hv.lt, hbinned] at hle
    refine le_antisymm ?_ hle
    -- The maximum is how often some delta below 300 occurs in the bins.
    cases hs : (run (counted Data.delta1 Data.delta1 (binned m data))).best with
    | none =>
        rw [hs] at hmode
        exact hmode.2.le.trans (Nat.zero_le _)
    | some u =>
        rw [hs] at hmode
        obtain ⟨hmem, hmost, -⟩ := hmode
        rw [keys_counted] at hmem
        have hu : u < 300 := of_decide_eq_true (List.mem_filter.mp hmem).2
        rw [hmost, count_keys hu]
        exact (count_binned_le _ u).trans (hv.most u hu)

/-- Where the second loop counts a best `delta2` for the last time, the `delta1` of that
point has occurred often enough as a `delta2` by then. -/
def ComparedAtBest (enough : Nat → Nat) (m : MinAvgMax) (data : List Data) : Prop :=
  (∀ v ∈ data.map Data.delta2, ¬ v < 300) ∨
    ∃ front d back, binned m data = front ++ d :: back ∧ IsBest (data.map Data.delta2) d.delta2 ∧
      ((front ++ [d]).map Data.delta2).count d.delta2 = (data.map Data.delta2).count d.delta2 ∧
      d.delta1 < 300 ∧
      enough ((data.map Data.delta2).count d.delta2) ≤ ((front ++ [d]).map Data.delta2).count d.delta1

theorem counted_append_cons (compared : Data → UInt64) (front back : List Data) {d : Data}
    (hd : delta d < 300) :
    counted delta compared (front ++ d :: back) =
      counted delta compared front ++ (delta d, compared d) :: counted delta compared back := by
  simp [counted, hd]

theorem delta2_hasMode (hfound : Found Data.delta2 Data.delta1 m data h)
    (hcompared : ComparedAtBest id m data) : HasMode (data.map Data.delta2) h := by
  rcases hcompared with hnone | ⟨front, d, back, hsplit, hbest, hlast, hlt, hother⟩
  · exact hasMode_of_none hfound hnone
  · have hpoints := counted_append_cons Data.delta1 front back hbest.lt
    have hfront := counted_append_cons Data.delta1 front [] hbest.lt
    rw [← hsplit] at hpoints
    refine hasMode_of_most hfound hbest (run_reaches hpoints ?_ ?_ ?_ ?_).2
    · exact List.count_pos_iff.mpr hbest.mem
    · intro w
      by_cases hw : w < 300
      · rw [count_keys hw]
        exact (count_binned_le _ w).trans (hbest.most w hw)
      · rw [count_keys_eq_zero hw]
        exact Nat.zero_le _
    · rw [← hlast, ← count_keys hbest.lt, hfront]
      rfl
    · rw [← count_keys hlt, hfront] at hother
      exact hother

/-- A point that is counted, in the list of all points. -/
theorem exists_of_counted_eq {points : List Data} {front back : List (UInt64 × UInt64)}
    {p : UInt64 × UInt64} (h : counted delta compared points = front ++ p :: back) :
    ∃ front' d back', points = front' ++ d :: back' ∧ counted delta compared front' = front ∧
      delta d < 300 ∧ (delta d, compared d) = p := by
  obtain ⟨kept, rest, hfilter, hfront, hrest⟩ := List.map_eq_append_iff.mp h
  obtain ⟨d, more, rfl, hd, -⟩ := List.map_eq_cons_iff.mp hrest
  obtain ⟨first, second, rfl, hkept, hsecond⟩ := List.filter_eq_append_iff.mp hfilter
  obtain ⟨skipped, back', rfl, hskipped, hlt, -⟩ := List.filter_eq_cons_iff.mp hsecond
  refine ⟨first ++ skipped, d, back', (List.append_assoc ..).symm, ?_, of_decide_eq_true hlt, hd⟩
  rw [counted, List.filter_append, hkept, List.filter_eq_nil_iff.mpr hskipped, List.append_nil, hfront]

theorem comparedAtBest_of_hasMode (hfound : Found Data.delta2 Data.delta1 m data h)
    (hmode : HasMode (data.map Data.delta2) h) : ComparedAtBest (fun _ => 1) m data := by
  rcases hmode with ⟨hnone, -, -⟩ | ⟨v, hv, hbest, hmost⟩
  · exact .inl hnone
  · have hpos : 0 < (data.map Data.delta2).count v := List.count_pos_iff.mpr hv.mem
    have hrun : (run (counted Data.delta2 Data.delta1 (binned m data))).most ≠ 0 := by
      rw [← hfound.maxCount, hmost]
      exact hpos.ne'
    obtain ⟨front, point, back, hsplit, hraised, hcount, hmem⟩ := exists_raise hrun
    have hfoundBest := hfound.best
    rw [hraised] at hfoundBest
    obtain rfl : point.1 = v := UInt64.toNat_inj.mp (hfoundBest.symm.trans hbest)
    obtain ⟨front', d, back', hbinned, rfl, hlt, rfl⟩ := exists_of_counted_eq hsplit
    have hkeys := counted_append_cons Data.delta1 front' [] hlt
    rw [show counted Data.delta2 Data.delta1 [] = [] from rfl] at hkeys
    rw [← hkeys] at hcount hmem
    rw [← hfound.maxCount, hmost, count_keys hlt] at hcount
    rw [keys_counted] at hmem
    obtain ⟨hthere, hsmall⟩ := List.mem_filter.mp hmem
    exact .inr ⟨front', d, back', hbinned, hv, hcount.symm, of_decide_eq_true hsmall,
      List.count_pos_iff.mpr hthere⟩

def FindsModes (m : MinAvgMax) (data : List Data) : Prop :=
  (∃ h, delta1Histogram m data = some h ∧ HasMode (data.map Data.delta1) h) ∧
    ∃ h, delta2Histogram m data = some h ∧ HasMode (data.map Data.delta2) h

/-- What both loops need, apart from what the second one compares. -/
structure Prepared (m : MinAvgMax) (data : List Data) : Prop where
  bins : BinsFit m data
  size1 : SizeFits m (data.map Data.delta1)
  size2 : SizeFits m (data.map Data.delta2)
  inside : Inside Data.delta2 Data.delta1 m data
  binned : BestBinned Data.delta1 m data

theorem inside_self (delta : Data → UInt64) (m : MinAvgMax) (data : List Data) :
    Inside delta delta m data :=
  fun _ hd hlt => le_maxDelta (List.mem_map_of_mem (mem_of_mem_binned hd)) hlt

/-- **The loops find the modes if the `delta1` that the second one compares has occurred
as often as the best `delta2`, where that is counted last; and they only find them if it has
occurred there at all.** -/
theorem finds_modes (m : MinAvgMax) (data : List Data) :
    (Prepared m data ∧ ComparedAtBest id m data → FindsModes m data) ∧
      (FindsModes m data → Prepared m data ∧ ComparedAtBest (fun _ => 1) m data) := by
  constructor
  · rintro ⟨⟨hbins, hsize1, hsize2, hinside, hbinned⟩, hcompared⟩
    have hfits1 : Fits Data.delta1 Data.delta1 m data := ⟨hbins, hsize1, inside_self _ _ _⟩
    have hfits2 : Fits Data.delta2 Data.delta1 m data := ⟨hbins, hsize2, hinside⟩
    obtain ⟨h1, hsome1, hfound1⟩ := hfits1.exists_histogram
    obtain ⟨h2, hsome2, hfound2⟩ := hfits2.exists_histogram
    exact ⟨⟨h1, hsome1, (delta1_hasMode_iff hfound1).mpr hbinned⟩,
      h2, hsome2, delta2_hasMode hfound2 hcompared⟩
  · rintro ⟨⟨h1, hsome1, hmode1⟩, h2, hsome2, hmode2⟩
    obtain ⟨hfits1, hfound1⟩ := fits_of_histogram hsome1
    obtain ⟨hfits2, hfound2⟩ := fits_of_histogram hsome2
    exact ⟨⟨hfits1.bins, hfits1.size, hfits2.size, hfits2.inside,
      (delta1_hasMode_iff hfound1).mp hmode1⟩, comparedAtBest_of_hasMode hfound2 hmode2⟩

theorem not_findsModes
    (hdisjoint : ∀ d ∈ data, ∀ e ∈ data, d.delta2 < 300 → e.delta2 < 300 → d.delta1 ≠ e.delta2)
    (hsome : ∃ d ∈ data, d.delta2 < 300) : ¬ FindsModes m data := by
  rintro ⟨-, h, hhistogram, hmode⟩
  obtain ⟨-, hfound⟩ := fits_of_histogram hhistogram
  rcases comparedAtBest_of_hasMode hfound hmode with hnone | ⟨front, d, back, hsplit, hbest, -, hlt, hseen⟩
  · obtain ⟨d, hd, hlt⟩ := hsome
    exact hnone _ (List.mem_map_of_mem hd) hlt
  · have hdata : ∀ e ∈ front ++ [d], e ∈ data := by
      intro e he
      refine mem_of_mem_binned (m := m) ?_
      rw [hsplit, ← List.singleton_append, ← List.append_assoc]
      exact List.mem_append_left _ he
    obtain ⟨e, he, hed⟩ := List.mem_map.mp (List.count_pos_iff.mp hseen)
    have hd : d ∈ front ++ [d] := List.mem_append_right _ (List.mem_singleton_self d)
    exact hdisjoint d (hdata d hd) e (hdata e he) hbest.lt (hed ▸ hlt) hed.symm

/-- An accepted delta is a most frequent `delta1` of the points in the bins, whatever the
second loop does. -/
theorem round_accept {accepted : Nat} (haccept : round m data = some (.accept accepted)) :
    ∃ v, IsBest ((binned m data).map Data.delta1) v ∧ v.toNat = accepted ∧
      40000 ≤ ((binned m data).map Data.delta1).count v := by
  obtain ⟨h1, hfirst, hrest⟩ := Option.bind_eq_some_iff.mp haccept
  obtain ⟨-, hfound⟩ := fits_of_histogram hfirst
  have hequal : ∀ p ∈ counted Data.delta1 Data.delta1 (binned m data), p.1 = p.2 := by
    intro p hp
    obtain ⟨d, -, -, rfl⟩ := mem_counted.mp hp
    rfl
  have hmode := run_isMode hequal
  have hbest := hfound.best
  have hcount := hfound.maxCount
  split at hrest
  · cases hrest
  · obtain ⟨h2, -, hsecond⟩ := Option.bind_eq_some_iff.mp hrest
    split at hsecond
    · cases hsecond
    · cases hsecond
      cases hs : (run (counted Data.delta1 Data.delta1 (binned m data))).best with
      | none =>
          rw [hs] at hmode
          have hzero := hmode.2
          omega
      | some v =>
          rw [hs] at hmode hbest
          obtain ⟨hmem, hmost, hle⟩ := hmode
          rw [keys_counted] at hmem
          obtain ⟨hv, hlt⟩ := List.mem_filter.mp hmem
          have hlt : v < 300 := of_decide_eq_true hlt
          rw [count_keys hlt] at hmost
          refine ⟨v, ⟨hv, hlt, fun w hw => ?_⟩, hbest.symm, by omega⟩
          have hcount := hle w
          rw [hmost, count_keys hw] at hcount
          exact hcount

def extremes : MinAvgMax where
  min points := points.min?.getD 0
  max points := points.max?.getD 0
  isLeast_min points hne := by
    obtain ⟨x, hx⟩ := Option.isSome_iff_exists.mp (List.isSome_min?_of_ne_nil hne)
    rw [hx]
    exact List.min?_eq_some_iff.mp hx
  isGreatest_max points hne := by
    obtain ⟨x, hx⟩ := Option.isSome_iff_exists.mp (List.isSome_max?_of_ne_nil hne)
    rw [hx]
    exact List.max?_eq_some_iff.mp hx

/-- The deltas of the first point differ, and the mins are not in `int`. -/
theorem finds_modes_pair : FindsModes extremes [⟨2 ^ 31, 4, 5⟩, ⟨2 ^ 31 + 1, 5, 5⟩] := by
  refine (finds_modes extremes _).1 ⟨⟨by decide, by decide, by decide, by decide, ?_⟩, ?_⟩
  · refine .inr ⟨4, ⟨by decide, by decide, fun w _ => ?_⟩, by decide⟩
    exact List.nodup_iff_count.mp (by decide) w
  · refine .inr ⟨[⟨2 ^ 31, 4, 5⟩], ⟨2 ^ 31 + 1, 5, 5⟩, [], by decide, ⟨by decide, by decide, ?_⟩,
      by decide, by decide, by decide⟩
    exact fun w _ => List.count_le_length

/-- Every `delta1` is 20 and every `delta2` is 30, so the count of 20 stays zero. -/
theorem misses_delta2 : ¬ FindsModes extremes (List.replicate 100000 ⟨0, 20, 30⟩) := by
  refine not_findsModes (fun d hd e he _ _ => ?_) ⟨⟨0, 20, 30⟩, ?_, by decide⟩
  · rw [List.eq_of_mem_replicate hd, List.eq_of_mem_replicate he]
    decide
  · exact List.mem_replicate.mpr ⟨by decide, rfl⟩

end Modes

end CalibrateDelta
