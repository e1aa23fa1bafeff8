import Mathlib.Data.Finset.Basic
import Mathlib.Data.List.Range
import Mathlib.Order.Bounds.Basic
import TaskSuite.TscKmod

/-! `hello_start` of `tsc_kmod.c`: what it allocates and frees when `kmalloc` may fail at
any call, and what it prints of the times that were measured. -/
namespace TscKmod

/-! ### The memory -/

/-- A block is named by the number of the call of `kmalloc` that returned it. `fault` is
set when something is freed that is not allocated. -/
structure Memory where
  calls : ℕ
  live : Finset ℕ
  fault : Bool

def Memory.empty : Memory := ⟨0, ∅, false⟩

/-- `succeeds` has the outcomes of all calls. -/
def Memory.kmalloc (m : Memory) (succeeds : ℕ → Bool) : Option ℕ × Memory :=
  if succeeds m.calls then (some m.calls, { m with calls := m.calls + 1, live := insert m.calls m.live })
  else (none, { m with calls := m.calls + 1 })

def Memory.kfree (m : Memory) (block : ℕ) : Memory :=
  if block ∈ m.live then { m with live := m.live.erase block } else { m with fault := true }

def Memory.kfreeAll (m : Memory) (blocks : List ℕ) : Memory := blocks.foldl Memory.kfree m

/-- The loop that allocates `times[j]`, from `rows.length` on. It stops at the first call
that fails. -/
def allocRows (succeeds : ℕ → Bool) : ℕ → List ℕ → Memory → List ℕ × Bool × Memory
  | 0, rows, m => (rows, true, m)
  | left + 1, rows, m =>
      match m.kmalloc succeeds with
      | (some row, m) => allocRows succeeds left (rows ++ [row]) m
      | (none, m) => (rows, false, m)

/-! ### The times -/

structure Sample where
  cyclesHigh : UInt32
  cyclesLow : UInt32
  cyclesHigh1 : UInt32
  cyclesLow1 : UInt32

def Sample.startCycles (s : Sample) : UInt64 := (s.cyclesHigh.toUInt64 <<< 32) ||| s.cyclesLow.toUInt64

def Sample.endCycles (s : Sample) : UInt64 := (s.cyclesHigh1.toUInt64 <<< 32) ||| s.cyclesLow1.toUInt64

/-- What `Filltimes` stores. The difference is unsigned. -/
def Sample.time (s : Sample) : UInt64 :=
  if s.endCycles - s.startCycles < 0 then 0 else s.endCycles - s.startCycles

def minTime (row : List UInt64) : UInt64 :=
  row.foldl (fun minTime x => if minTime = 0 ∨ minTime > x then x else minTime) 0

def maxTime (row : List UInt64) : UInt64 :=
  row.foldl (fun maxTime x => if maxTime < x then x else maxTime) 0

def minusEinval : UInt64 := 0 - 22

structure Totals where
  spurious : ℕ
  prevMin : UInt64
  totVar : UInt64
  maxDevAll : UInt64
  variances : List UInt64
  minValues : List UInt64

def Totals.zero : Totals := ⟨0, 0, 0, 0, [], []⟩

/-- One round of the loop over `times`. -/
def Totals.addRow (t : Totals) (row : List UInt64) : Totals :=
  let maxDev := maxTime row - minTime row
  let variance := (varCalc row).getD minusEinval
  { spurious := if t.prevMin ≠ 0 ∧ t.prevMin > minTime row then t.spurious + 1 else t.spurious
    prevMin := minTime row
    totVar := t.totVar + variance
    maxDevAll := if maxDev > t.maxDevAll then maxDev else t.maxDevAll
    variances := t.variances ++ [variance]
    minValues := t.minValues ++ [minTime row] }

/-- The lines at the end of the output. -/
structure Report where
  spurious : ℕ
  averageVariance : UInt64
  maxDevAll : UInt64
  varOfVars : UInt64
  varOfMins : UInt64

def totals (times : List (List UInt64)) : Totals := times.foldl Totals.addRow Totals.zero

def report (times : List (List UInt64)) : Report :=
  let t := totals times
  { spurious := t.spurious
    averageVariance := t.totVar / .ofNat times.length
    maxDevAll := t.maxDevAll
    varOfVars := (varCalc t.variances).getD minusEinval
    varOfMins := (varCalc t.minValues).getD minusEinval }

/-! ### The function -/

/-- What is printed: which block could not be allocated, or the report. -/
inductive Printed where
  | noTimes
  | noRow (j : ℕ)
  | noVariances
  | noMinValues
  | report (r : Report)

/-- The number of rows is `BOUND_OF_LOOP`. -/
def helloStart (succeeds : ℕ → Bool) (samples : List (List Sample)) : Printed × Memory :=
  match Memory.empty.kmalloc succeeds with
  | (none, m) => (.noTimes, m)
  | (some times, m) =>
      match allocRows succeeds samples.length [] m with
      | (rows, false, m) => (.noRow rows.length, m.kfreeAll rows)
      | (rows, true, m) =>
          match m.kmalloc succeeds with
          | (none, m) => (.noVariances, m)
          | (some variances, m) =>
              match m.kmalloc succeeds with
              | (none, m) => (.noMinValues, m)
              | (some minValues, m) =>
                  (.report (report (samples.map (List.map Sample.time))),
                    (((m.kfreeAll rows).kfree times).kfree variances).kfree minValues)

/-! ### Allocated and freed -/

section Frees
variable {succeeds : ℕ → Bool} {m : Memory} {blocks : List ℕ}

theorem kfreeAll_of_live (hnodup : blocks.Nodup) (hlive : ∀ b ∈ blocks, b ∈ m.live) :
    m.kfreeAll blocks = { m with live := m.live \ blocks.toFinset } := by
  induction blocks generalizing m with
  | nil => simp [Memory.kfreeAll]
  | cons b blocks ih =>
      obtain ⟨hb, hrest⟩ := List.nodup_cons.mp hnodup
      have hfirst : m.kfree b = { m with live := m.live.erase b } := by
        rw [Memory.kfree, if_pos (hlive b List.mem_cons_self)]
      have hothers : ∀ c ∈ blocks, c ∈ (m.kfree b).live := by
        intro c hc
        rw [hfirst, Finset.mem_erase]
        refine ⟨?_, hlive c (List.mem_cons_of_mem b hc)⟩
        rintro rfl
        exact hb hc
      rw [Memory.kfreeAll, List.foldl_cons]
      refine (ih hrest hothers).trans ?_
      rw [hfirst, List.toFinset_cons]
      congr 1
      ext c
      simp only [Finset.mem_sdiff, Finset.mem_erase, Finset.mem_insert, not_or]
      tauto

def blocksFrom (first count : ℕ) : List ℕ := List.range' first count

theorem allocRows_eq (succeeds : ℕ → Bool) (left : ℕ) (rows : List ℕ) (m : Memory) :
    (∃ k < left, (∀ i < k, succeeds (m.calls + i) = true) ∧ succeeds (m.calls + k) = false ∧
      allocRows succeeds left rows m = (rows ++ blocksFrom m.calls k, false,
        { m with calls := m.calls + k + 1, live := m.live ∪ (blocksFrom m.calls k).toFinset })) ∨
    ((∀ i < left, succeeds (m.calls + i) = true) ∧
      allocRows succeeds left rows m = (rows ++ blocksFrom m.calls left, true,
        { m with calls := m.calls + left, live := m.live ∪ (blocksFrom m.calls left).toFinset })) := by
  induction left generalizing rows m with
  | zero =>
      right
      refine ⟨fun _ hi => absurd hi (Nat.not_lt_zero _), ?_⟩
      simp [allocRows, blocksFrom]
  | succ left ih =>
      cases hfirst : succeeds m.calls with
      | false =>
          left
          refine ⟨0, Nat.succ_pos left, fun _ hi => absurd hi (Nat.not_lt_zero _), hfirst, ?_⟩
          simp [allocRows, Memory.kmalloc, hfirst, blocksFrom]
      | true =>
          have hunfold : allocRows succeeds (left + 1) rows m = allocRows succeeds left
              (rows ++ [m.calls]) { m with calls := m.calls + 1, live := insert m.calls m.live } := by
            simp [allocRows, Memory.kmalloc, hfirst]
          have hsucc : ∀ k, (∀ i < k, succeeds (m.calls + 1 + i) = true) →
              ∀ i < k + 1, succeeds (m.calls + i) = true := by
            intro k hk i hi
            cases i with
            | zero => exact hfirst
            | succ i =>
                have hnext := hk i (Nat.lt_of_succ_lt_succ hi)
                rwa [Nat.add_right_comm, Nat.add_assoc] at hnext
          have hlive : ∀ k, insert m.calls m.live ∪ (blocksFrom (m.calls + 1) k).toFinset =
              m.live ∪ (blocksFrom m.calls (k + 1)).toFinset := by
            intro k
            simp [blocksFrom, List.range'_succ, Finset.insert_union, Finset.union_insert]
          rw [hunfold]
          rcases ih (rows ++ [m.calls]) { m with calls := m.calls + 1, live := insert m.calls m.live } with
            ⟨k, hk, hall, hfails, heq⟩ | ⟨hall, heq⟩
          · left
            refine ⟨k + 1, Nat.succ_lt_succ hk, hsucc k hall, ?_, ?_⟩
            · rw [← hfails]
              congr 1
              dsimp only
              omega
            · rw [heq]
              simp only [hlive k]
              simp only [blocksFrom, List.range'_succ, List.append_assoc, List.singleton_append]
              congr 3
              omega
          · right
            refine ⟨hsucc left hall, ?_⟩
            rw [heq]
            simp only [hlive left]
            simp only [blocksFrom, List.range'_succ, List.append_assoc, List.singleton_append]
            congr 3
            omega

theorem nodup_blocks (first count : ℕ) : (blocksFrom first count).Nodup := List.nodup_range' ..

theorem card_blocks (first count : ℕ) : (blocksFrom first count).toFinset.card = count := by
  rw [List.toFinset_card_of_nodup (nodup_blocks first count), blocksFrom, List.length_range']

theorem notMem_blocks {b first count : ℕ} (hb : b < first ∨ first + count ≤ b) :
    b ∉ (blocksFrom first count).toFinset := by
  rw [List.mem_toFinset, blocksFrom, List.mem_range'_1]
  omega

/-- The blocks that are left when the function returns: of those for `times`, only the
rows are freed when one of them could not be allocated, and nothing when one of the other
two could not. -/
def Printed.leaked (rows : ℕ) : Printed → ℕ
  | .noTimes | .report _ => 0
  | .noRow _ => 1
  | .noVariances => rows + 1
  | .noMinValues => rows + 2

def rowsAllocated (n : ℕ) : Memory := ⟨1 + n, {0} ∪ (blocksFrom 1 n).toFinset, false⟩

theorem card_rowsAllocated (n : ℕ) : (rowsAllocated n).live.card = n + 1 := by
  have hzero : (0 : ℕ) ∉ (blocksFrom 1 n).toFinset := notMem_blocks (.inl Nat.zero_lt_one)
  rw [rowsAllocated, Finset.singleton_union, Finset.card_insert_of_notMem hzero, card_blocks]

theorem live_after_free (n : ℕ) :
    ((((Memory.mk (1 + n + 1 + 1) (insert (1 + n + 1) (insert (1 + n) (rowsAllocated n).live)) false).kfreeAll
      (blocksFrom 1 n)).kfree 0).kfree (1 + n)).kfree (1 + n + 1) = ⟨1 + n + 1 + 1, ∅, false⟩ := by
  have hzero : (0 : ℕ) ∉ (blocksFrom 1 n).toFinset := notMem_blocks (.inl Nat.zero_lt_one)
  have hvar : 1 + n ∉ (blocksFrom 1 n).toFinset := notMem_blocks (.inr le_rfl)
  have hmin : 1 + n + 1 ∉ (blocksFrom 1 n).toFinset := notMem_blocks (.inr (Nat.le_succ _))
  have hrest : insert (1 + n + 1) (insert (1 + n) (rowsAllocated n).live) \ (blocksFrom 1 n).toFinset =
      {1 + n + 1, 1 + n, 0} := by
    ext b
    simp only [rowsAllocated, Finset.mem_sdiff, Finset.mem_insert, Finset.mem_union, Finset.mem_singleton]
    constructor
    · tauto
    · rintro (rfl | rfl | rfl) <;> tauto
  rw [kfreeAll_of_live (nodup_blocks 1 n)]
  · rw [hrest]
    simp [Memory.kfree]
    ext b
    simp
    omega
  · intro b hb
    simp only [rowsAllocated, Finset.mem_insert, Finset.mem_union, List.mem_toFinset]
    tauto

theorem kfreeAll_rows (n : ℕ) (calls : ℕ) :
    Memory.kfreeAll ⟨calls, {0} ∪ (blocksFrom 1 n).toFinset, false⟩ (blocksFrom 1 n) = ⟨calls, {0}, false⟩ := by
  have hzero : (0 : ℕ) ∉ (blocksFrom 1 n).toFinset := notMem_blocks (.inl Nat.zero_lt_one)
  rw [kfreeAll_of_live (nodup_blocks 1 n)]
  · congr 1
    ext b
    simp only [Finset.mem_sdiff, Finset.mem_union, Finset.mem_singleton]
    constructor
    · tauto
    · rintro rfl
      tauto
  · intro b hb
    exact Finset.mem_union_right _ (List.mem_toFinset.mpr hb)

/-- The five ways in which the function returns. -/
theorem helloStart_cases (succeeds : ℕ → Bool) (samples : List (List Sample)) :
    (succeeds 0 = false ∧ helloStart succeeds samples = (.noTimes, ⟨1, ∅, false⟩)) ∨
    (succeeds 0 = true ∧ ((∃ k < samples.length, succeeds (k + 1) = false ∧
      helloStart succeeds samples = (.noRow k, ⟨k + 2, {0}, false⟩)) ∨
    (succeeds (samples.length + 1) = false ∧ helloStart succeeds samples =
      (.noVariances, { rowsAllocated samples.length with calls := 1 + samples.length + 1 })) ∨
    (succeeds (samples.length + 2) = false ∧ helloStart succeeds samples =
      (.noMinValues, ⟨1 + samples.length + 1 + 1,
        insert (1 + samples.length) (rowsAllocated samples.length).live, false⟩)) ∨
    ((∀ i < samples.length + 3, succeeds i = true) ∧ helloStart succeeds samples =
      (.report (report (samples.map (List.map Sample.time))), ⟨1 + samples.length + 1 + 1, ∅, false⟩)))) := by
  unfold helloStart
  cases hfirst : succeeds 0 with
  | false =>
      left
      refine ⟨rfl, ?_⟩
      simp [Memory.kmalloc, Memory.empty, hfirst]
  | true =>
      right
      refine ⟨rfl, ?_⟩
      have hkmalloc : Memory.empty.kmalloc succeeds = (some 0, ⟨1, {0}, false⟩) := by
        simp [Memory.kmalloc, Memory.empty, hfirst]
      rw [hkmalloc]
      dsimp only
      rcases allocRows_eq succeeds samples.length [] ⟨1, {0}, false⟩ with
        ⟨k, hk, -, hfails, heq⟩ | ⟨hall, heq⟩
      · left
        refine ⟨k, hk, ?_, ?_⟩
        · rwa [Nat.add_comm k 1]
        · rw [heq]
          dsimp only
          rw [List.nil_append, kfreeAll_rows, blocksFrom, List.length_range']
          congr 2
          omega
      · right
        rw [heq]
        dsimp only at hall ⊢
        rw [List.nil_append]
        have hrows : Memory.mk (1 + samples.length) ({0} ∪ (blocksFrom 1 samples.length).toFinset) false =
            rowsAllocated samples.length := rfl
        rw [hrows]
        cases hvar : succeeds (1 + samples.length) with
        | false =>
            left
            have hnone : (rowsAllocated samples.length).kmalloc succeeds =
                (none, { rowsAllocated samples.length with calls := 1 + samples.length + 1 }) :=
              if_neg (ne_true_of_eq_false hvar)
            rw [hnone]
            exact ⟨by rwa [Nat.add_comm] at hvar, rfl⟩
        | true =>
            right
            have hsome : (rowsAllocated samples.length).kmalloc succeeds =
                (some (1 + samples.length), ⟨1 + samples.length + 1,
                  insert (1 + samples.length) (rowsAllocated samples.length).live, false⟩) := if_pos hvar
            rw [hsome]
            dsimp only
            cases hmin : succeeds (1 + samples.length + 1) with
            | false =>
                left
                rw [Memory.kmalloc, if_neg (ne_true_of_eq_false hmin)]
                refine ⟨?_, rfl⟩
                rw [← hmin]
                congr 1
                omega
            | true =>
                right
                rw [Memory.kmalloc, if_pos hmin]
                refine ⟨?_, ?_⟩
                · intro i hi
                  rcases Nat.lt_or_ge i 1 with hzero | hpos
                  · rwa [Nat.lt_one_iff.mp hzero]
                  · rcases Nat.lt_or_ge i (1 + samples.length) with hrow | hlast
                    · have hi' := hall (i - 1) (by omega)
                      rwa [Nat.add_sub_cancel' hpos] at hi'
                    · rcases Nat.eq_or_lt_of_le hlast with rfl | hlast
                      · exact hvar
                      · obtain rfl : i = 1 + samples.length + 1 := by omega
                        exact hmin
                · dsimp only
                  rw [live_after_free]

/-- At every pattern of failing calls: nothing is freed twice or without having been
allocated, and everything is freed exactly if no call fails, or the first one does. -/
theorem helloStart_leaks (succeeds : ℕ → Bool) (samples : List (List Sample)) :
    (helloStart succeeds samples).2.fault = false ∧
      (helloStart succeeds samples).2.live.card =
        (helloStart succeeds samples).1.leaked samples.length ∧
      ((helloStart succeeds samples).2.live = ∅ ↔
        succeeds 0 = false ∨ ∀ i < samples.length + 3, succeeds i = true) := by
  have hsome : ∀ (live : Finset ℕ) (k : ℕ), 0 < live.card → succeeds 0 = true →
      k < samples.length + 3 → succeeds k = false →
      (live = ∅ ↔ succeeds 0 = false ∨ ∀ i < samples.length + 3, succeeds i = true) := by
    intro live k hcard hfirst hk hfails
    constructor
    · rintro rfl
      simp at hcard
    · rintro (hfalse | hall)
      · rw [hfirst] at hfalse
        cases hfalse
      · rw [hall k hk] at hfails
        cases hfails
  rcases helloStart_cases succeeds samples with ⟨hfails, heq⟩ |
    ⟨hfirst, ⟨k, hk, hfails, heq⟩ | ⟨hfails, heq⟩ | ⟨hfails, heq⟩ | ⟨hall, heq⟩⟩
  · rw [heq]
    exact ⟨rfl, rfl, fun _ => .inl hfails, fun _ => rfl⟩
  · rw [heq]
    exact ⟨rfl, rfl, hsome _ (k + 1) Nat.zero_lt_one hfirst (by omega) hfails⟩
  · have hcard := card_rowsAllocated samples.length
    rw [heq]
    refine ⟨rfl, hcard, hsome _ (samples.length + 1) ?_ hfirst (by omega) hfails⟩
    dsimp only
    omega
  · have hcard : (insert (1 + samples.length) (rowsAllocated samples.length).live).card =
        samples.length + 2 := by
      rw [Finset.card_insert_of_notMem, card_rowsAllocated]
      have hlast : 1 + samples.length ∉ (blocksFrom 1 samples.length).toFinset :=
        notMem_blocks (.inr le_rfl)
      simp only [rowsAllocated, Finset.mem_union, Finset.mem_singleton, not_or]
      exact ⟨by omega, hlast⟩
    rw [heq]
    refine ⟨rfl, hcard, hsome _ (samples.length + 2) ?_ hfirst (by omega) hfails⟩
    dsimp only
    omega
  · rw [heq]
    exact ⟨rfl, rfl, fun _ => .inr hall, fun _ => rfl⟩

end Frees

/-! ### The report -/

section Rows
variable {row : List UInt64} {x : UInt64}

theorem minTime_concat (row : List UInt64) (x : UInt64) : minTime (row ++ [x]) =
    if minTime row = 0 ∨ minTime row > x then x else minTime row := by
  rw [minTime, List.foldl_append]
  rfl

theorem maxTime_concat (row : List UInt64) (x : UInt64) : maxTime (row ++ [x]) =
    if maxTime row < x then x else maxTime row := by
  rw [maxTime, List.foldl_append]
  rfl

/-- No zero is overlooked: there is none, or it is the last of the times. -/
def ZeroSeen (row : List UInt64) : Prop := 0 ∉ row ∨ row.getLast? = some 0

/-- The 0 that stands for no time at all is not told apart from a time that is 0. -/
theorem minTime_eq_zero_iff : minTime row = 0 ↔ row = [] ∨ row.getLast? = some 0 := by
  induction row using List.reverseRecOn with
  | nil => simp [minTime]
  | append_singleton row x ih =>
      rw [minTime_concat, List.getLast?_concat]
      simp only [List.append_eq_nil_iff, List.cons_ne_nil, and_false, false_or, Option.some.injEq]
      split_ifs with hless
      · rfl
      · rw [not_or, gt_iff_lt, UInt64.not_lt] at hless
        constructor
        · intro hzero
          exact absurd hzero hless.1
        · rintro rfl
          exact absurd (UInt64.le_antisymm hless.2 (UInt64.zero_le)) hless.1

theorem minTime_mem (hne : row ≠ []) : minTime row ∈ row := by
  induction row using List.reverseRecOn with
  | nil => exact absurd rfl hne
  | append_singleton row x ih =>
      rw [minTime_concat]
      split_ifs with hless
      · exact List.mem_append_right row List.mem_cons_self
      · apply List.mem_append_left
        apply ih
        rintro rfl
        exact hless (.inl rfl)

theorem minTime_le (hzero : 0 ∉ row) : ∀ y ∈ row, minTime row ≤ y := by
  induction row using List.reverseRecOn with
  | nil => simp
  | append_singleton row x ih =>
      rw [List.mem_append, List.mem_singleton, not_or] at hzero
      have hfront := ih hzero.1
      intro y hy
      rw [minTime_concat]
      rcases List.mem_append.mp hy with hy | hy
      · have hrow : minTime row ≠ 0 := by
          rw [ne_eq, minTime_eq_zero_iff, not_or]
          refine ⟨List.ne_nil_of_mem hy, ?_⟩
          intro hlast
          exact hzero.1 (List.mem_of_getLast? hlast)
        split_ifs with hless
        · exact UInt64.le_trans (UInt64.le_of_lt (hless.resolve_left hrow)) (hfront y hy)
        · exact hfront y hy
      · rw [List.mem_singleton.mp hy]
        split_ifs with hless
        · exact UInt64.le_refl _
        · exact UInt64.not_lt.mp (not_or.mp hless).2

theorem minTime_isLeast_iff (hne : row ≠ []) : (∀ y ∈ row, minTime row ≤ y) ↔ ZeroSeen row := by
  constructor
  · intro hle
    by_cases hzero : 0 ∈ row
    · right
      have heq : minTime row = 0 := UInt64.le_antisymm (hle 0 hzero) UInt64.zero_le
      exact (minTime_eq_zero_iff.mp heq).resolve_left hne
    · exact .inl hzero
  · rintro (hzero | hlast)
    · exact minTime_le hzero
    · intro y _
      rw [minTime_eq_zero_iff.mpr (.inr hlast)]
      exact UInt64.zero_le

theorem maxTime_le : ∀ y ∈ row, y ≤ maxTime row := by
  induction row using List.reverseRecOn with
  | nil => simp
  | append_singleton row x ih =>
      intro y hy
      rw [maxTime_concat]
      rcases List.mem_append.mp hy with hy | hy
      · split_ifs with hless
        · exact UInt64.le_trans (ih y hy) (UInt64.le_of_lt hless)
        · exact ih y hy
      · rw [List.mem_singleton.mp hy]
        split_ifs with hless
        · exact UInt64.le_refl _
        · exact UInt64.not_lt.mp hless

theorem maxTime_mem (hne : row ≠ []) : maxTime row ∈ row := by
  induction row using List.reverseRecOn with
  | nil => exact absurd rfl hne
  | append_singleton row x ih =>
      rw [maxTime_concat]
      split_ifs with hless
      · exact List.mem_append_right row List.mem_cons_self
      · by_cases hrow : row = []
        · subst hrow
          have hzero : x = 0 := UInt64.le_antisymm (UInt64.not_lt.mp hless) UInt64.zero_le
          rw [hzero]
          exact List.mem_cons_self
        · exact List.mem_append_left _ (ih hrow)

theorem toNat_maxDev (hne : row ≠ []) :
    (maxTime row - minTime row).toNat = (maxTime row).toNat - (minTime row).toNat :=
  UInt64.toNat_sub_of_le _ _ (maxTime_le _ (minTime_mem hne))

end Rows

def Deviations (times : List (List UInt64)) : Set ℕ :=
  {d | ∃ row ∈ times, ∃ x ∈ row, ∃ y ∈ row, d = x.toNat - y.toNat}

section Totals
variable {times : List (List UInt64)} {row : List UInt64}

theorem totals_concat (times : List (List UInt64)) (row : List UInt64) :
    totals (times ++ [row]) = (totals times).addRow row := by
  rw [totals, List.foldl_append]
  rfl

theorem le_maxDevAll : ∀ row ∈ times, maxTime row - minTime row ≤ (totals times).maxDevAll := by
  induction times using List.reverseRecOn with
  | nil => simp
  | append_singleton times row ih =>
      intro r hr
      rw [totals_concat]
      simp only [Totals.addRow]
      rcases List.mem_append.mp hr with hr | hr
      · split_ifs with hmore
        · exact UInt64.le_trans (ih r hr) (UInt64.le_of_lt hmore)
        · exact ih r hr
      · rw [List.mem_singleton.mp hr]
        split_ifs with hmore
        · exact UInt64.le_refl _
        · exact UInt64.not_lt.mp hmore

theorem exists_maxDevAll (hne : times ≠ []) :
    ∃ row ∈ times, (totals times).maxDevAll = maxTime row - minTime row := by
  induction times using List.reverseRecOn with
  | nil => exact absurd rfl hne
  | append_singleton times row ih =>
      rw [totals_concat]
      simp only [Totals.addRow]
      split_ifs with hmore
      · exact ⟨row, List.mem_append_right _ List.mem_cons_self, rfl⟩
      · by_cases htimes : times = []
        · subst htimes
          have hzero : maxTime row - minTime row = 0 :=
            UInt64.le_antisymm (UInt64.not_lt.mp hmore) UInt64.zero_le
          exact ⟨row, List.mem_cons_self, hzero.symm⟩
        · obtain ⟨r, hr, heq⟩ := ih htimes
          exact ⟨r, List.mem_append_left _ hr, heq⟩

end Totals

end TscKmod
