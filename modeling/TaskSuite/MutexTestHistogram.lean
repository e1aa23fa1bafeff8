import TaskSuite.RunningMode

/-! The clocks that `benchmark` of `mutex_test.cxx` has measured: the map in which it
counts them, the window of clocks around the most frequent one, and the number of
measurements in the window, by which their sum is divided. -/
namespace MutexTestHistogram

/-- The entries of `map`, in the order of their keys. -/
abbrev Map := List (Nat × Nat)

namespace Map

/-- A use of `map[key]`: an entry that is not there is inserted with the value zero. -/
def modify (f : Nat → Nat) (key : Nat) : Map → Map
  | [] => [(key, f 0)]
  | (k, n) :: m =>
      if key = k then (k, f n) :: m
      else if key < k then (key, f 0) :: (k, n) :: m
      else (k, n) :: modify f key m

def get (key : Nat) : Map → Nat
  | [] => 0
  | (k, n) :: m => if key = k then n else if key < k then 0 else get key m

/-- `sum` and `size` over the entries of the window. -/
def sums (minClks maxClks : Nat) : Map → Nat × Nat
  | [] => (0, 0)
  | (k, n) :: m =>
      let (sum, size) := sums minClks maxClks m
      if minClks ≤ k ∧ k ≤ maxClks then (sum + k * n, size + n) else (sum, size)

end Map

structure Count where
  map : Map
  maxCnt : Nat
  maxClks : Nat
  minClks : Nat

/-- The body of the loop that counts the clocks. -/
def count (s : Count) (clks : Nat) : Count :=
  let map := s.map.modify (· + 1) clks
  let v := map.get clks
  { map
    maxCnt := if v > s.maxCnt then v else s.maxCnt
    maxClks := if v > s.maxCnt then clks else s.maxClks
    minClks := if clks < s.minClks then clks else s.minClks }

def countAll (dt : List Nat) : Count := dt.foldl count ⟨[], 0, 0, 1000000⟩

structure Window where
  map : Map
  maxClks : Nat

/-- The body of the loop that looks for the end of the window. -/
def widen (maxCnt : Nat) (w : Window) (i : Nat) : Window :=
  let map := w.map.modify id i
  { map, maxClks := if map.get i ≥ maxCnt / 100 then i else w.maxClks }

def window (s : Count) : Window :=
  let mc := min 1000 (5 * s.maxClks)
  (List.range' s.minClks (mc - s.minClks)).foldl (widen s.maxCnt) ⟨s.map, 0⟩

def loopsize : Nat := 100000

def minClks (dt : List Nat) : Nat := (countAll dt).minClks

def maxClks (dt : List Nat) : Nat := (window (countAll dt)).maxClks

/-- The divisor of `clks = sum / size`. -/
def size (dt : List Nat) : Nat := ((window (countAll dt)).map.sums (minClks dt) (maxClks dt)).2

example : minClks [4, 5, 4, 7, 90, 4] = 4 ∧ maxClks [4, 5, 4, 7, 90, 4] = 19 ∧
    size [4, 5, 4, 7, 90, 4] = 5 := by
  decide +kernel

/-! ### The map -/

namespace Map

theorem get_modify (f : Nat → Nat) (key : Nat) (m : Map) (j : Nat) :
    (m.modify f key).get j = if j = key then f (m.get key) else m.get j := by
  induction m with
  | nil =>
      simp only [modify, get]
      split_ifs <;> rfl
  | cons entry m ih =>
      obtain ⟨k, n⟩ := entry
      rcases Nat.lt_trichotomy key k with hlt | rfl | hgt
      · simp only [modify, get, hlt.ne, hlt, if_true, if_false]
        split_ifs <;> first | rfl | omega
      · simp only [modify, get, if_true]
        split_ifs <;> rfl
      · simp only [modify, get, hgt.ne', hgt.le.not_gt, if_false, ih]
        split_ifs <;> first | rfl | omega

theorem size_modify (f : Nat → Nat) (key : Nat) (m : Map) (lo hi : Nat) :
    ((m.modify f key).sums lo hi).2 + (if lo ≤ key ∧ key ≤ hi then m.get key else 0) =
      (m.sums lo hi).2 + if lo ≤ key ∧ key ≤ hi then f (m.get key) else 0 := by
  induction m with
  | nil =>
      simp only [modify, get, sums]
      split_ifs <;> simp
  | cons entry m ih =>
      obtain ⟨k, n⟩ := entry
      rcases Nat.lt_trichotomy key k with hlt | rfl | hgt
      · simp only [modify, get, sums, hlt.ne, hlt, if_true, if_false]
        split_ifs <;> simp
      · simp only [modify, get, sums, if_true]
        split_ifs
        · dsimp only
          omega
        · rfl
      · simp only [modify, get, sums, hgt.ne', hgt.le.not_gt, if_false]
        split_ifs at ih ⊢
        all_goals
          dsimp only
          omega

end Map

/-! ### The clocks that were counted -/

def points (dt : List Nat) : List (Nat × Nat) := dt.map fun clks => (clks, clks)

theorem keys_points (dt : List Nat) : RunningMode.keys (points dt) = dt := by
  rw [RunningMode.keys, points, List.map_map]
  exact List.map_id dt

/-- What is known after the clocks `dt`. -/
structure Counted (dt : List Nat) (s : Count) : Prop where
  get : ∀ k, s.map.get k = dt.count k
  size : ∀ lo hi, (s.map.sums lo hi).2 = dt.countP fun clks => lo ≤ clks ∧ clks ≤ hi
  maxCnt : s.maxCnt = (RunningMode.run (points dt)).most
  maxClks : s.maxClks = (RunningMode.run (points dt)).best.getD 0
  le : ∀ clks ∈ dt, s.minClks ≤ clks
  mem : s.minClks ∈ dt ∨ s.minClks = 1000000

theorem Counted.count {dt : List Nat} {s : Count} (h : Counted dt s) (clks : Nat) :
    Counted (dt ++ [clks]) (count s clks) := by
  have hget : ∀ k, (s.map.modify (· + 1) clks).get k = (dt ++ [clks]).count k := by
    intro k
    rw [Map.get_modify, RunningMode.count_snoc, h.get, h.get]
    by_cases hk : k = clks
    · subst hk
      simp
    · simp [hk, Ne.symm hk]
  have hrun : RunningMode.run (points (dt ++ [clks])) =
      RunningMode.visit (RunningMode.run (points dt)) (clks, clks) := by
    rw [points, List.map_append]
    exact RunningMode.run_snoc _ _
  have hseen : (RunningMode.run (points dt)).seen = dt := by
    rw [RunningMode.run_seen, keys_points]
  refine ⟨hget, fun lo hi => ?_, ?_, ?_, ?_, ?_⟩
  · have hsize := Map.size_modify (· + 1) clks s.map lo hi
    rw [h.size] at hsize
    rw [List.countP_append, List.countP_singleton]
    simp only [MutexTestHistogram.count, decide_eq_true_eq]
    split_ifs at hsize ⊢ <;> omega
  · rw [hrun, RunningMode.visit, hseen]
    simp only [MutexTestHistogram.count, hget, h.maxCnt, gt_iff_lt]
    split_ifs <;> rfl
  · rw [hrun, RunningMode.visit, hseen]
    simp only [MutexTestHistogram.count, hget, h.maxCnt, gt_iff_lt]
    split_ifs
    · rfl
    · exact h.maxClks
  · rw [List.forall_mem_append, List.forall_mem_singleton]
    simp only [MutexTestHistogram.count]
    split_ifs with hless
    · exact ⟨fun x hx => hless.le.trans (h.le x hx), le_rfl⟩
    · exact ⟨h.le, Nat.le_of_not_lt hless⟩
  · simp only [MutexTestHistogram.count]
    split_ifs
    · exact .inl (List.mem_append_right _ (List.mem_singleton_self clks))
    · exact h.mem.imp_left fun hmem => List.mem_append_left _ hmem

theorem counted_countAll (dt : List Nat) : Counted dt (countAll dt) := by
  induction dt using List.reverseRecOn with
  | nil =>
      have hnone : ∀ clks ∈ ([] : List Nat), (countAll []).minClks ≤ clks := fun _ h =>
        absurd h List.not_mem_nil
      exact ⟨fun _ => rfl, fun _ _ => rfl, rfl, rfl, hnone, .inr rfl⟩
  | append_singleton dt clks ih =>
      rw [countAll, List.foldl_append]
      exact ih.count clks

section Clocks
variable {dt : List Nat}

theorem minClks_mem (hne : dt ≠ []) (hdt : ∀ clks ∈ dt, clks < 1000000) : minClks dt ∈ dt := by
  have h := counted_countAll dt
  obtain ⟨clks, hclks⟩ := List.exists_mem_of_ne_nil dt hne
  have hle := h.le clks hclks
  have hlt := hdt clks hclks
  rcases h.mem with hmem | heq
  · exact hmem
  · omega

/-- The most frequent clock, and how often it was measured. -/
theorem mode_spec (hne : dt ≠ []) :
    (countAll dt).maxClks ∈ dt ∧ (countAll dt).maxCnt = dt.count (countAll dt).maxClks ∧
      ∀ clks, dt.count clks ≤ (countAll dt).maxCnt := by
  have h := counted_countAll dt
  have hself : ∀ point ∈ points dt, point.1 = point.2 := by
    simp [points]
  have hmode := RunningMode.run_isMode hself
  rw [keys_points] at hmode
  rw [h.maxCnt, h.maxClks]
  cases hbest : (RunningMode.run (points dt)).best with
  | none =>
      rw [hbest] at hmode
      exact absurd hmode.1 hne
  | some clks =>
      rw [hbest] at hmode
      exact hmode

end Clocks

/-! ### The end of the window -/

section Window
variable {maxCnt : Nat} {w : Window} {l : List Nat}

/-- Looking at a count inserts an entry, but changes neither a count nor `size`. -/
theorem foldl_widen_map (maxCnt : Nat) (w : Window) (l : List Nat) :
    (∀ k, (l.foldl (widen maxCnt) w).map.get k = w.map.get k) ∧
      ∀ lo hi, ((l.foldl (widen maxCnt) w).map.sums lo hi).2 = (w.map.sums lo hi).2 := by
  induction l generalizing w with
  | nil => exact ⟨fun _ => rfl, fun _ _ => rfl⟩
  | cons i l ih =>
      obtain ⟨hget, hsize⟩ := ih (widen maxCnt w i)
      refine ⟨fun k => ?_, fun lo hi => ?_⟩
      · rw [List.foldl_cons, hget, widen, Map.get_modify]
        split_ifs with hk
        · rw [hk]
          rfl
        · rfl
      · have hsame := Map.size_modify id i w.map lo hi
        rw [List.foldl_cons, hsize]
        exact Nat.add_right_cancel hsame

theorem foldl_widen_maxClks (maxCnt : Nat) (w : Window) (l : List Nat) :
    (l.foldl (widen maxCnt) w).maxClks =
      ((l.filter fun i => maxCnt / 100 ≤ w.map.get i).getLast?).getD w.maxClks := by
  induction l using List.reverseRecOn with
  | nil => rfl
  | append_singleton l i ih =>
      have hget := (foldl_widen_map maxCnt w l).1
      rw [List.foldl_append, List.filter_append]
      simp only [List.foldl_cons, List.foldl_nil, widen, Map.get_modify, if_true, hget, id_eq]
      by_cases hi : maxCnt / 100 ≤ w.map.get i
      · simp [hi]
      · simp [hi, ih]

end Window

section Size
variable {dt : List Nat}

theorem size_eq (dt : List Nat) :
    size dt = dt.countP fun clks => minClks dt ≤ clks ∧ clks ≤ maxClks dt := by
  rw [size, window, (foldl_widen_map _ _ _).2, (counted_countAll dt).size]

theorem size_pos (dt : List Nat) :
    0 < size dt ↔ ∃ clks ∈ dt, minClks dt ≤ clks ∧ clks ≤ maxClks dt := by
  rw [size_eq, List.countP_pos_iff]
  simp only [decide_eq_true_eq]

structure Often (dt : List Nat) (i : Nat) : Prop where
  ge : minClks dt ≤ i
  lt : i < min 1000 (5 * (countAll dt).maxClks)
  count : (countAll dt).maxCnt / 100 ≤ dt.count i

/-- All clocks at which the window may end, in increasing order. -/
def oftenClks (dt : List Nat) : List Nat :=
  (List.range' (minClks dt) (min 1000 (5 * (countAll dt).maxClks) - minClks dt)).filter fun i =>
    (countAll dt).maxCnt / 100 ≤ dt.count i

theorem mem_oftenClks {i : Nat} : i ∈ oftenClks dt ↔ Often dt i := by
  rw [oftenClks, List.mem_filter, List.mem_range'_1, decide_eq_true_eq]
  constructor
  · rintro ⟨⟨hge, hlt⟩, hcount⟩
    exact ⟨hge, by omega, hcount⟩
  · rintro ⟨hge, hlt, hcount⟩
    exact ⟨⟨hge, by omega⟩, hcount⟩

theorem maxClks_eq (dt : List Nat) : maxClks dt = ((oftenClks dt).getLast?).getD 0 := by
  rw [maxClks, window, foldl_widen_maxClks]
  simp only [(counted_countAll dt).get]
  rfl

theorem minClks_le_maxClks_iff (dt : List Nat) :
    minClks dt ≤ maxClks dt ↔ minClks dt = 0 ∨ ∃ i, Often dt i := by
  rw [maxClks_eq]
  simp only [← mem_oftenClks]
  cases hlast : (oftenClks dt).getLast? with
  | none =>
      rw [List.getLast?_eq_none_iff.mp hlast]
      simp
  | some last =>
      have hin := List.mem_of_getLast? hlast
      exact ⟨fun _ => .inr ⟨last, hin⟩, fun _ => (mem_oftenClks.mp hin).ge⟩

def Frequent (dt : List Nat) (clks : Nat) : Prop :=
  clks ∈ dt ∧ clks < 1000 ∧ ∀ x ∈ dt, dt.count x / 100 ≤ dt.count clks

theorem Often.exists_frequent {i : Nat} (h : Often dt i) (hne : dt ≠ [])
    (hdt : ∀ clks ∈ dt, clks < 1000000) : ∃ clks, Frequent dt clks := by
  obtain ⟨-, -, hmost⟩ := mode_spec hne
  have hall : ∀ x, dt.count x / 100 ≤ (countAll dt).maxCnt / 100 := fun x =>
    Nat.div_le_div_right (hmost x)
  have hge := h.ge
  have hlt := h.lt
  have hcount := h.count
  by_cases hi : i ∈ dt
  · exact ⟨i, hi, by omega, fun x _ => (hall x).trans hcount⟩
  · -- Every clock is measured often enough.
    rw [List.count_eq_zero_of_not_mem hi] at hcount
    refine ⟨minClks dt, minClks_mem hne hdt, by omega, fun x _ => ?_⟩
    exact (hall x).trans (hcount.trans (Nat.zero_le _))

theorem Frequent.exists_often {clks : Nat} (h : Frequent dt clks) : 0 ∈ dt ∨ ∃ i, Often dt i := by
  obtain ⟨hmem, hlt, hall⟩ := h
  obtain ⟨hmode, hcount, -⟩ := mode_spec (List.ne_nil_of_mem hmem)
  have hle := (counted_countAll dt).le
  by_cases hzero : (countAll dt).maxClks = 0
  · exact .inl (hzero ▸ hmode)
  · by_cases hcap : 1000 ≤ 5 * (countAll dt).maxClks
    · have hoften := hall _ hmode
      rw [← hcount] at hoften
      exact .inr ⟨clks, hle clks hmem, by omega, hoften⟩
    · exact .inr ⟨_, hle _ hmode, by omega, hcount ▸ Nat.div_le_self _ 100⟩

theorem exists_mem_window_iff (hne : dt ≠ []) (hdt : ∀ clks ∈ dt, clks < 1000000) :
    (∃ clks ∈ dt, minClks dt ≤ clks ∧ clks ≤ maxClks dt) ↔ 0 ∈ dt ∨ ∃ clks, Frequent dt clks := by
  have hmin := minClks_mem hne hdt
  have hle := (counted_countAll dt).le
  constructor
  · rintro ⟨clks, -, hlow, hhigh⟩
    rcases (minClks_le_maxClks_iff dt).mp (hlow.trans hhigh) with hzero | ⟨i, hoften⟩
    · exact .inl (hzero ▸ hmin)
    · exact .inr (hoften.exists_frequent hne hdt)
  · intro hmeasured
    have hwindow : minClks dt = 0 ∨ ∃ i, Often dt i := by
      have hzero : 0 ∈ dt → minClks dt = 0 := fun hmem => Nat.le_zero.mp (hle 0 hmem)
      rcases hmeasured with hmem | ⟨clks, hfrequent⟩
      · exact .inl (hzero hmem)
      · exact hfrequent.exists_often.imp_left hzero
    exact ⟨_, hmin, le_rfl, (minClks_le_maxClks_iff dt).mpr hwindow⟩

end Size

/-- **The window has a measurement in it, and the divisor is positive, exactly if a clock
of zero was measured, or one below 1000 at least a hundredth as often as every other.** -/
theorem window_nonempty_iff (dt : List Nat) (hne : dt ≠ []) (hdt : ∀ clks ∈ dt, clks < 1000000) :
    ((∃ clks ∈ dt, minClks dt ≤ clks ∧ clks ≤ maxClks dt) ∧ 0 < size dt) ↔
      0 ∈ dt ∨ ∃ clks, Frequent dt clks := by
  rw [size_pos, and_self]
  exact exists_mem_window_iff hne hdt

theorem replicate_loopsize_ne_nil (clks : Nat) : List.replicate loopsize clks ≠ [] := by
  rw [Ne, List.replicate_eq_nil_iff]
  decide

theorem window_nonempty_forty :
    let dt := List.replicate loopsize 40
    (dt ≠ [] ∧ ∀ clks ∈ dt, clks < 1000000) ∧
      (∃ clks ∈ dt, minClks dt ≤ clks ∧ clks ≤ maxClks dt) ∧ 0 < size dt := by
  intro dt
  have hne : dt ≠ [] := replicate_loopsize_ne_nil 40
  have hmem : ∀ clks ∈ dt, clks = 40 := fun clks h => List.eq_of_mem_replicate h
  have hdt : ∀ clks ∈ dt, clks < 1000000 := by
    intro clks h
    rw [hmem clks h]
    decide
  have hfrequent : Frequent dt 40 := by
    refine ⟨List.mem_replicate.mpr ⟨by decide, rfl⟩, by decide, fun x hx => ?_⟩
    rw [hmem x hx]
    exact Nat.div_le_self _ 100
  exact ⟨⟨hne, hdt⟩, (window_nonempty_iff dt hne hdt).mpr (.inr ⟨40, hfrequent⟩)⟩

/-- If every measurement takes longer than the cap, then the window is empty. -/
theorem window_empty_two_thousand :
    let dt := List.replicate loopsize 2000
    (dt.length = loopsize ∧ ∀ clks ∈ dt, clks < 1000000) ∧ size dt = 0 ∧
      ¬ ∃ clks ∈ dt, minClks dt ≤ clks ∧ clks ≤ maxClks dt := by
  intro dt
  have hmem : ∀ clks ∈ dt, clks = 2000 := fun clks h => List.eq_of_mem_replicate h
  have hdt : ∀ clks ∈ dt, clks < 1000000 := by
    intro clks h
    rw [hmem clks h]
    decide
  have hempty : ¬ ∃ clks ∈ dt, minClks dt ≤ clks ∧ clks ≤ maxClks dt := by
    rw [exists_mem_window_iff (replicate_loopsize_ne_nil 2000) hdt]
    rintro (hzero | ⟨clks, hclks, hlt, -⟩)
    · exact absurd (hmem 0 hzero) (by decide)
    · rw [hmem clks hclks] at hlt
      exact absurd hlt (by decide)
  refine ⟨⟨List.length_replicate, hdt⟩, ?_, hempty⟩
  exact Nat.eq_zero_of_not_pos fun h => hempty ((size_pos dt).mp h)

end MutexTestHistogram
