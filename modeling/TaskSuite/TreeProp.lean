import TaskSuite.Tournament
import Mathlib.Logic.Function.Basic
import Mathlib.Order.Lattice
import Mathlib.Data.List.Chain

/-! The tree of `tree_prop.cc`, which keeps the index of the least of four cached
values, and its update after the first of these has changed. -/
namespace TreeProp
open Tournament

/-- `cache[1]` up to `cache[4]` are used. -/
abbrev Cache := Nat → Int

/-- `t[0]` up to `t[4]`, each of them an index into the cache. -/
abbrev Tree := Nat → Nat

/-- The parent of a node; none if the assertion fails. -/
def p (i : Nat) : Option Nat := if 0 < i ∧ i < 5 then some ((i + 1) / 2 - 1) else none

def s (i : Nat) : Option Nat :=
  if i = 1 ∨ i = 3 ∨ i = 4 then some (if i = 1 then 2 else 7 - i) else none

def intervalToParentIndex (interval : Nat) : Option Nat := if interval = 1 then some 3 else none

def isSane (cache : Cache) (t : Tree) : Bool :=
  t 4 = 3 && t 2 = 4 &&
    (t 3 = 1 || t 3 = 2) && min (cache 1) (cache 2) = cache (t 3) &&
    (t 1 = t 3 || t 1 = t 4) && min (cache (t 3)) (cache (t 4)) = cache (t 1) &&
    (t 0 = t 1 || t 0 = t 2) && min (cache (t 1)) (cache (t 2)) = cache (t 0)

theorem p_lt {i j : Nat} (h : p i = some j) : j < i := by
  rw [p, Option.ite_none_right_eq_some, Option.some.injEq] at h
  omega

def becomingLess (cache : Cache) (interval : Nat) (nv : Int) (i : Nat) (t : Tree) : Option Tree :=
  if nv ≤ cache (t i) then
    let t := Function.update t i interval
    if i = 0 then some t
    else
      match h : p i with
      | none => none
      | some j => becomingLess cache interval nv j t
  else some t
termination_by i
decreasing_by exact p_lt h

/-- The loop for a value that became greater. Here `interval` is `in`, the one
whose value is compared, and `si` is its sibling. -/
def becomingGreater (cache : Cache) (i interval si : Nat) (nv : Int) (t : Tree) : Option Tree :=
  let sv := cache si
  if nv > sv ∧ t i = si then some t
  else
    let interval := if nv > sv then si else interval
    let nv := if nv > sv then sv else nv
    let t := Function.update t i interval
    if i = 0 then some t
    else
      match s i, h : p i with
      | some sibling, some j => becomingGreater cache j interval (t sibling) nv t
      | _, _ => none
termination_by i
decreasing_by exact p_lt h

/-- The change of `cache[1]` into `newV`. -/
def change (state : Cache × Tree) (newV : Int) : Option (Cache × Tree) :=
  let (cache, t) := state
  let oldV := cache 1
  if newV = oldV then none
  else
    let interval := 1
    let cache := Function.update cache interval newV
    let nv := cache interval
    (intervalToParentIndex interval).bind fun i =>
      (if newV < oldV then becomingLess cache interval nv i t
        else becomingGreater cache i interval (3 - interval) nv t).map fun t => (cache, t)

/-! ### The bouts that `cache[1]` takes part in -/

/-- The nodes above `cache[1]`, each with the sibling that is compared there. -/
def bouts (t : Tree) : List (Bout Nat) := [⟨t 3, 2⟩, ⟨t 1, t 4⟩, ⟨t 0, t 2⟩]

section Sane
variable {cache : Cache} {t : Tree}

theorem min_eq_iff {a b c : Nat} (h : c = a ∨ c = b) :
    min (cache a) (cache b) = cache c ↔ cache c ≤ cache a ∧ cache c ≤ cache b := by
  rcases h with rfl | rfl
  · simp
  · simp

theorem isSane_iff : isSane cache t = true ↔ t 4 = 3 ∧ t 2 = 4 ∧ Played cache 1 (bouts t) := by
  simp only [isSane, Bool.and_eq_true, Bool.or_eq_true, decide_eq_true_eq, bouts, Played, and_true,
    and_assoc]
  constructor
  · rintro ⟨h4, h2, h3, hmin3, h1, hmin1, h0, hmin0⟩
    exact ⟨h4, h2, h3, ((min_eq_iff h3).mp hmin3).1, ((min_eq_iff h3).mp hmin3).2, h1,
      ((min_eq_iff h1).mp hmin1).1, ((min_eq_iff h1).mp hmin1).2, h0, (min_eq_iff h0).mp hmin0⟩
  · rintro ⟨h4, h2, h3, hself3, hother3, h1, hself1, hother1, h0, hmin0⟩
    exact ⟨h4, h2, h3, (min_eq_iff h3).mpr ⟨hself3, hother3⟩, h1,
      (min_eq_iff h1).mpr ⟨hself1, hother1⟩, h0, (min_eq_iff h0).mpr hmin0⟩

theorem isSane_least (h : isSane cache t = true) :
    t 0 ∈ [1, 2, 3, 4] ∧ ∀ k ∈ [1, 2, 3, 4], cache (t 0) ≤ cache k := by
  obtain ⟨h4, h2, hplayed⟩ := isSane_iff.mp h
  obtain ⟨hself, hothers⟩ := hplayed.champion_le
  have htop : champion 1 (bouts t) = t 0 := rfl
  rw [htop] at hself hothers
  simp only [bouts, h4, h2, List.forall_mem_cons] at hothers
  constructor
  · rcases hplayed.champion_mem with heq | ⟨b, hb, heq⟩
    · rw [← htop, heq]
      decide
    · rw [← htop, heq]
      simp only [bouts, h4, h2, List.mem_cons, List.not_mem_nil, or_false] at hb
      rcases hb with rfl | rfl | rfl <;> simp
  · obtain ⟨hsecond, hthird, hfourth, -⟩ := hothers
    simp only [List.forall_mem_cons]
    exact ⟨hself, hsecond, hthird, hfourth, fun k hk => absurd hk List.not_mem_nil⟩

end Sane

/-! ### The loops replay these bouts -/

section Loops
variable {cache : Cache} {t : Tree}

theorem becomingLess_step {interval i j : Nat} {nv : Int} (hp : p i = some j) :
    becomingLess cache interval nv i t =
      if nv ≤ cache (t i) then becomingLess cache interval nv j (Function.update t i interval)
      else some t := by
  have hi : i ≠ 0 := Nat.ne_zero_of_lt (p_lt hp)
  rw [becomingLess]
  simp only [if_neg hi]
  split_ifs
  · split
    · next hnone => rw [hp] at hnone; cases hnone
    · next j' hsome => rw [hp] at hsome; cases hsome; rfl
  · rfl

theorem becomingLess_top {interval : Nat} {nv : Int} :
    becomingLess cache interval nv 0 t =
      some (if nv ≤ cache (t 0) then Function.update t 0 interval else t) := by
  rw [becomingLess]
  split_ifs <;> simp_all

theorem becomingGreater_step {interval si i j sibling : Nat} {nv : Int} (hp : p i = some j)
    (hs : s i = some sibling) :
    becomingGreater cache i interval si nv t =
      if nv > cache si then
        if t i = si then some t
        else becomingGreater cache j si (Function.update t i si sibling) (cache si)
          (Function.update t i si)
      else becomingGreater cache j interval (Function.update t i interval sibling) nv
        (Function.update t i interval) := by
  have hi : i ≠ 0 := Nat.ne_zero_of_lt (p_lt hp)
  rw [becomingGreater]
  simp only [if_neg hi]
  by_cases hgt : nv > cache si
  · simp only [hgt, true_and, if_true]
    split_ifs
    · rfl
    · split
      · next sibling' j' hs' hp' =>
        rw [hs] at hs'
        rw [hp] at hp'
        cases hs'
        cases hp'
        rfl
      · next hnone => exact absurd hp (hnone sibling j hs)
  · simp only [hgt, false_and, if_false]
    split
    · next sibling' j' hs' hp' =>
      rw [hs] at hs'
      rw [hp] at hp'
      cases hs'
      cases hp'
      rfl
    · next hnone => exact absurd hp (hnone sibling j hs)

theorem becomingGreater_top {interval si : Nat} {nv : Int} :
    becomingGreater cache 0 interval si nv t =
      some (if nv > cache si then if t 0 = si then t else Function.update t 0 si
        else Function.update t 0 interval) := by
  rw [becomingGreater]
  by_cases hgt : nv > cache si
  · by_cases heq : t 0 = si <;> simp [hgt, heq]
  · simp [hgt]

theorem becomingLess_bouts (cache : Cache) (t : Tree) :
    ∃ t', becomingLess cache 1 (cache 1) 3 t = some t' ∧ t' 4 = t 4 ∧ t' 2 = t 2 ∧
      bouts t' = lowered cache 1 (bouts t) := by
  rw [becomingLess_step (j := 1) rfl, becomingLess_step (j := 0) rfl, becomingLess_top]
  simp only [bouts, lowered]
  split_ifs <;> simp_all [Function.update]

theorem becomingGreater_raised_top (cache : Cache) (t : Tree) (x si : Nat) :
    ∃ t', becomingGreater cache 0 x si (cache x) t = some t' ∧ (∀ k, k ≠ 0 → t' k = t k) ∧
      [⟨t' 0, si⟩] = raised cache x [⟨t 0, si⟩] := by
  rw [becomingGreater_top]
  refine ⟨_, rfl, fun k hk => ?_, ?_⟩
  · split_ifs <;> simp [hk]
  · simp only [raised]
    split_ifs <;> simp_all

theorem becomingGreater_raised (cache : Cache) (t : Tree) (x si : Nat) :
    ∃ t', becomingGreater cache 1 x si (cache x) t = some t' ∧
      (∀ k, k ≠ 0 → k ≠ 1 → t' k = t k) ∧
      [⟨t' 1, si⟩, ⟨t' 0, t 2⟩] = raised cache x [⟨t 1, si⟩, ⟨t 0, t 2⟩] := by
  have hsibling : s 1 = some 2 := rfl
  rw [becomingGreater_step (j := 0) rfl hsibling, raised]
  -- The rest of the loop, after the node got the interval `y`.
  have hmore : ∀ y, ∃ t', becomingGreater cache 0 y (Function.update t 1 y 2) (cache y)
      (Function.update t 1 y) = some t' ∧ (∀ k, k ≠ 0 → k ≠ 1 → t' k = t k) ∧
      [⟨t' 1, si⟩, ⟨t' 0, t 2⟩] = ⟨y, si⟩ :: raised cache y [⟨t 0, t 2⟩] := by
    intro y
    obtain ⟨t', hloop, hframe, hbouts⟩ :=
      becomingGreater_raised_top cache (Function.update t 1 y) y (t 2)
    refine ⟨t', hloop, fun k h0 h1 => (hframe k h0).trans (Function.update_of_ne h1 ..), ?_⟩
    rw [hframe 1 (by decide), Function.update_self, hbouts]
    rfl
  split_ifs
  · exact ⟨t, rfl, fun k _ _ => rfl, rfl⟩
  · exact hmore si
  · exact hmore x

theorem becomingGreater_bouts (cache : Cache) (t : Tree) :
    ∃ t', becomingGreater cache 3 1 2 (cache 1) t = some t' ∧ t' 4 = t 4 ∧ t' 2 = t 2 ∧
      bouts t' = raised cache 1 (bouts t) := by
  have hsibling : s 3 = some 4 := rfl
  rw [becomingGreater_step (j := 1) rfl hsibling, bouts, raised]
  have hmore : ∀ y, ∃ t', becomingGreater cache 1 y (Function.update t 3 y 4) (cache y)
      (Function.update t 3 y) = some t' ∧ t' 4 = t 4 ∧ t' 2 = t 2 ∧
      bouts t' = ⟨y, 2⟩ :: raised cache y [⟨t 1, t 4⟩, ⟨t 0, t 2⟩] := by
    intro y
    obtain ⟨t', hloop, hframe, hbouts⟩ :=
      becomingGreater_raised cache (Function.update t 3 y) y (t 4)
    have h2 : t' 2 = t 2 :=
      (hframe 2 (by decide) (by decide)).trans (Function.update_of_ne (by decide) ..)
    have h4 : t' 4 = t 4 :=
      (hframe 4 (by decide) (by decide)).trans (Function.update_of_ne (by decide) ..)
    have h3 : t' 3 = y := (hframe 3 (by decide) (by decide)).trans (Function.update_self ..)
    refine ⟨t', hloop, h4, h2, ?_⟩
    rw [bouts, h3, h4, h2]
    exact congrArg _ hbouts
  split_ifs
  · exact ⟨t, rfl, rfl, rfl, rfl⟩
  · exact hmore 2
  · exact hmore 1

end Loops

/-! ### Runs -/

/-- One change keeps the tree sane. -/
theorem change_sane {cache : Cache} {t : Tree} {newV : Int} (h : isSane cache t = true)
    (hne : cache 1 ≠ newV) : ∃ t', change (cache, t) newV = some (Function.update cache 1 newV, t') ∧
      isSane (Function.update cache 1 newV) t' = true := by
  obtain ⟨h4, h2, hplayed⟩ := isSane_iff.mp h
  have hself : Function.update cache 1 newV 1 = newV := Function.update_self ..
  have hsame : ∀ b ∈ bouts t, Function.update cache 1 newV b.opponent = cache b.opponent := by
    simp [bouts, h4, h2]
  simp only [change, if_neg hne.symm, intervalToParentIndex, if_true, Option.bind_some]
  by_cases hlt : newV < cache 1
  · obtain ⟨t', hloop, h4', h2', hbouts⟩ :=
      becomingLess_bouts (Function.update cache 1 newV) t
    refine ⟨t', by rw [if_pos hlt, hloop]; rfl, isSane_iff.mpr ⟨h4'.trans h4, h2'.trans h2, ?_⟩⟩
    rw [hbouts]
    exact hplayed.lowered hsame (by rw [hself]; exact hlt.le) (le_refl _)
  · obtain ⟨t', hloop, h4', h2', hbouts⟩ :=
      becomingGreater_bouts (Function.update cache 1 newV) t
    refine ⟨t', by rw [if_neg hlt, hloop]; rfl, isSane_iff.mpr ⟨h4'.trans h4, h2'.trans h2, ?_⟩⟩
    rw [hbouts]
    exact hplayed.raised hsame (by rw [hself]; exact not_lt.mp hlt)

/-- Whatever the values of the cache are and whichever sane tree it starts with:
the loops come to an end for every new value, and leave a sane tree for the cache
with the last of these values, the top of which is the index of a least value. -/
theorem changes_sane (cache : Cache) (t : Tree) (values : List Int) (h : isSane cache t = true)
    (hdiffer : (cache 1 :: values).IsChain (· ≠ ·)) :
    ∃ cache' t', values.foldlM change (cache, t) = some (cache', t') ∧
      cache' = Function.update cache 1 (values.getLastD (cache 1)) ∧ isSane cache' t' = true ∧
      t' 0 ∈ [1, 2, 3, 4] ∧ ∀ k ∈ [1, 2, 3, 4], cache' (t' 0) ≤ cache' k := by
  induction values generalizing cache t with
  | nil => exact ⟨cache, t, rfl, (Function.update_eq_self 1 cache).symm, h, isSane_least h⟩
  | cons newV values ih =>
      obtain ⟨hne, hmore⟩ := List.isChain_cons_cons.mp hdiffer
      obtain ⟨t', hchange, hsane⟩ := change_sane h hne
      have hself : Function.update cache 1 newV 1 = newV := Function.update_self ..
      rw [← hself] at hmore
      obtain ⟨cache'', t'', hrun, hcache, hresult⟩ := ih _ t' hsane hmore
      refine ⟨cache'', t'', ?_, ?_, hresult⟩
      · rw [List.foldlM_cons, hchange]
        exact hrun
      · -- The value of this step is written over by the ones behind it.
        rw [hcache, Function.update_idem, hself, List.getLastD_cons]

/-- The value falls, falls again, rises above all others and ends in a tie. -/
theorem changes_sane_tie :
    ∃ cache' t', [3, 1, 5, 2].foldlM change
        (fun k => ([0, 4, 2, 2, 3] : List Int).getD k 0, fun i => [2, 2, 4, 2, 3].getD i 0) =
          some (cache', t') ∧
      cache' = Function.update (fun k => ([0, 4, 2, 2, 3] : List Int).getD k 0) 1 2 ∧
      isSane cache' t' = true ∧
      t' 0 ∈ [1, 2, 3, 4] ∧ ∀ k ∈ [1, 2, 3, 4], cache' (t' 0) ≤ cache' k :=
  changes_sane _ _ [3, 1, 5, 2] (by decide) (by decide)

end TreeProp
