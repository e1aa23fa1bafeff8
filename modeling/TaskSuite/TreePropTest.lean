import TaskSuite.Ranks
import TaskSuite.TreeProp

/-! The test that `tree_prop.cc` is. Its main takes 100 up to 500 for each of the values, and
says that in this way every possibility is tested. -/
namespace TreeProp
open Ranks

/-- `cache[1]` up to `cache[4]`, and at index 0, which the cache does not use, `new_v`. -/
abbrev Values := Fin 5 → Int

def cacheOf (v : Values) : Cache := fun k => if h : k < 5 then v ⟨k, h⟩ else 0

def changed (v : Values) : Values := fun i => v (if i = 1 then 0 else i)

def treeOf (t3 t1 t0 : Nat) : Tree := fun i => [t0, t1, 4, t3, 3].getD i 0

/-- One of the loops over the two nodes that a node may point to. -/
def choices (cache : Cache) (a b : Nat) : List Nat :=
  [a, b].filter fun k => ¬ cache k > min (cache a) (cache b)

def trees (cache : Cache) : List (Nat × Nat × Nat) :=
  (choices cache 1 2).flatMap fun t3 => (choices cache t3 3).flatMap fun t1 =>
    (choices cache t1 4).map fun t0 => (t3, t1, t0)

def levels : List Int := [100, 200, 300, 400, 500]

/-- What is done to the tree after the change of `cache[1]` into a new value. -/
abbrev Algorithm := Cache → Tree → Int → Option Tree

def loops : Algorithm := fun cache t newV => (change (cache, t) newV).map Prod.snd

section Algorithm
variable (alg : Algorithm)

def Keeps (v : Values) (t3 t1 t0 : Nat) : Prop :=
  ∃ t, alg (cacheOf v) (treeOf t3 t1 t0) (v 0) = some t ∧ isSane (cacheOf (changed v)) t = true

def Passes : Prop :=
  ∀ v : Values, (∀ i, v i ∈ levels) → v 0 ≠ v 1 → ∀ x ∈ trees (cacheOf v), Keeps alg v x.1 x.2.1 x.2.2

/-- What is done to a sane tree depends on nothing but the order of the values. -/
def ComparisonBased : Prop :=
  ∀ v w : Values, SameOrder v w → ∀ t3 t1 t0, isSane (cacheOf v) (treeOf t3 t1 t0) = true →
    alg (cacheOf v) (treeOf t3 t1 t0) (v 0) = alg (cacheOf w) (treeOf t3 t1 t0) (w 0)

end Algorithm

section Values
variable {v w : Values} {t3 t1 t0 : Nat}

theorem update_cacheOf (v : Values) : Function.update (cacheOf v) 1 (v 0) = cacheOf (changed v) := by
  funext k
  by_cases hk : k = 1
  · subst hk
    rw [Function.update_self]
    rfl
  · rw [Function.update_of_ne hk]
    unfold cacheOf changed
    split_ifs with hlt hone
    · exact absurd (congrArg Fin.val hone) hk
    · rfl
    · rfl

theorem sameOrder_changed (h : SameOrder v w) : SameOrder (changed v) (changed w) :=
  h.comp fun i => if i = 1 then 0 else i

theorem cacheOf_le_iff (h : SameOrder v w) {a b : Nat} (ha : a < 5) (hb : b < 5) :
    cacheOf v a ≤ cacheOf v b ↔ cacheOf w a ≤ cacheOf w b := by
  simp only [cacheOf, dif_pos ha, dif_pos hb]
  exact h _ _

theorem cacheOf_lt_iff (h : SameOrder v w) {a b : Nat} (ha : a < 5) (hb : b < 5) :
    cacheOf v a < cacheOf v b ↔ cacheOf w a < cacheOf w b := by
  rw [← not_le, ← not_le, cacheOf_le_iff h hb ha]

theorem mem_choices {cache : Cache} {a b k : Nat} :
    k ∈ choices cache a b ↔ (k = a ∨ k = b) ∧ min (cache a) (cache b) = cache k := by
  simp only [choices, List.mem_filter, List.mem_cons, List.not_mem_nil, or_false, gt_iff_lt, not_lt,
    decide_eq_true_eq]
  refine and_congr_right fun hk => ?_
  rw [min_eq_iff hk, le_min_iff]

theorem mem_trees {cache : Cache} : (t3, t1, t0) ∈ trees cache ↔ isSane cache (treeOf t3 t1 t0) = true := by
  have hfour : treeOf t3 t1 t0 4 = 3 := rfl
  have hthree : treeOf t3 t1 t0 3 = t3 := rfl
  have htwo : treeOf t3 t1 t0 2 = 4 := rfl
  have hone : treeOf t3 t1 t0 1 = t1 := rfl
  have hzero : treeOf t3 t1 t0 0 = t0 := rfl
  simp only [trees, List.mem_flatMap, List.mem_map, Prod.mk.injEq, mem_choices, isSane, hfour, hthree, htwo,
    hone, hzero, Bool.and_eq_true, Bool.or_eq_true, decide_eq_true_eq]
  constructor
  · rintro ⟨_, ⟨h3, hmin3⟩, _, ⟨h1, hmin1⟩, _, ⟨h0, hmin0⟩, rfl, rfl, rfl⟩
    exact ⟨⟨⟨⟨⟨⟨⟨trivial, trivial⟩, h3⟩, hmin3⟩, h1⟩, hmin1⟩, h0⟩, hmin0⟩
  · rintro ⟨⟨⟨⟨⟨⟨-, h3⟩, hmin3⟩, h1⟩, hmin1⟩, h0⟩, hmin0⟩
    exact ⟨t3, ⟨h3, hmin3⟩, t1, ⟨h1, hmin1⟩, t0, ⟨h0, hmin0⟩, rfl, rfl, rfl⟩

theorem isSane_of_sameOrder {t : Tree} (h : SameOrder v w) (hsane : isSane (cacheOf v) t = true) :
    isSane (cacheOf w) t = true := by
  rw [isSane_iff] at hsane ⊢
  obtain ⟨h4, h2, hplayed⟩ := hsane
  refine ⟨h4, h2, ?_⟩
  simp only [bouts, Tournament.Played, h4, h2, and_true] at hplayed ⊢
  obtain ⟨h3, hself3, hother3, h1, hself1, hother1, h0, hself0, hother0⟩ := hplayed
  have ht3 : t 3 < 5 := by omega
  have ht1 : t 1 < 5 := by omega
  have ht0 : t 0 < 5 := by omega
  exact ⟨h3, (cacheOf_le_iff h ht3 (by decide)).mp hself3, (cacheOf_le_iff h ht3 (by decide)).mp hother3,
    h1, (cacheOf_le_iff h ht1 ht3).mp hself1, (cacheOf_le_iff h ht1 (by decide)).mp hother1,
    h0, (cacheOf_le_iff h ht0 ht1).mp hself0, (cacheOf_le_iff h ht0 (by decide)).mp hother0⟩

end Values

/-! ### The loops only compare values -/

section Loops
variable {v w : Values} {t : Tree}

theorem becomingLess_congr (h : SameOrder v w) (ht3 : t 3 < 5) (ht1 : t 1 < 5) (ht0 : t 0 < 5) :
    becomingLess (cacheOf v) 1 (cacheOf v 1) 3 t = becomingLess (cacheOf w) 1 (cacheOf w 1) 3 t := by
  have hone : (1 : Nat) < 5 := by decide
  rw [becomingLess_step (j := 1) rfl, becomingLess_step (j := 0) rfl, becomingLess_top,
    becomingLess_step (j := 1) rfl, becomingLess_step (j := 0) rfl, becomingLess_top]
  have hnode1 : Function.update t 3 1 1 = t 1 := Function.update_of_ne (by decide) ..
  have hnode0 : Function.update (Function.update t 3 1) 1 1 0 = t 0 := by
    rw [Function.update_of_ne (by decide), Function.update_of_ne (by decide)]
  simp only [hnode1, hnode0, cacheOf_le_iff h hone ht3, cacheOf_le_iff h hone ht1, cacheOf_le_iff h hone ht0]

theorem becomingGreater_congr_top (h : SameOrder v w) {x si : Nat} (hx : x < 5) (hsi : si < 5) :
    becomingGreater (cacheOf v) 0 x si (cacheOf v x) t =
      becomingGreater (cacheOf w) 0 x si (cacheOf w x) t := by
  simp only [becomingGreater_top, gt_iff_lt, cacheOf_lt_iff h hsi hx]

theorem becomingGreater_congr_middle (h : SameOrder v w) {x si : Nat} (hx : x < 5) (hsi : si < 5)
    (ht2 : t 2 < 5) :
    becomingGreater (cacheOf v) 1 x si (cacheOf v x) t =
      becomingGreater (cacheOf w) 1 x si (cacheOf w x) t := by
  have hsibling : s 1 = some 2 := rfl
  have hnode : ∀ y, Function.update t 1 y 2 = t 2 := fun y => Function.update_of_ne (by decide) ..
  rw [becomingGreater_step (j := 0) rfl hsibling, becomingGreater_step (j := 0) rfl hsibling]
  simp only [gt_iff_lt, cacheOf_lt_iff h hsi hx, hnode, becomingGreater_congr_top h hsi ht2,
    becomingGreater_congr_top h hx ht2]

theorem becomingGreater_congr (h : SameOrder v w) (ht4 : t 4 < 5) (ht2 : t 2 < 5) :
    becomingGreater (cacheOf v) 3 1 2 (cacheOf v 1) t = becomingGreater (cacheOf w) 3 1 2 (cacheOf w 1) t := by
  have hsibling : s 3 = some 4 := rfl
  have hone : (1 : Nat) < 5 := by decide
  have htwo : (2 : Nat) < 5 := by decide
  have hnode4 : ∀ y, Function.update t 3 y 4 = t 4 := fun y => Function.update_of_ne (by decide) ..
  have hnode2 : ∀ y, Function.update t 3 y 2 < 5 := by
    intro y
    rwa [Function.update_of_ne (by decide)]
  rw [becomingGreater_step (j := 1) rfl hsibling, becomingGreater_step (j := 1) rfl hsibling]
  simp only [gt_iff_lt, cacheOf_lt_iff h htwo hone, hnode4]
  rw [becomingGreater_congr_middle h htwo ht4 (hnode2 2), becomingGreater_congr_middle h hone ht4 (hnode2 1)]

theorem loops_comparisonBased : ComparisonBased loops := by
  intro v w h t3 t1 t0 hsane
  obtain ⟨-, -, hplayed⟩ := isSane_iff.mp hsane
  simp only [bouts, Tournament.Played, and_true] at hplayed
  obtain ⟨h3, -, -, h1, -, -, h0, -⟩ := hplayed
  have hfour : treeOf t3 t1 t0 4 = 3 := rfl
  have htwo : treeOf t3 t1 t0 2 = 4 := rfl
  have hold : ∀ u : Values, cacheOf u 1 = u 1 := fun _ => rfl
  have hafter := sameOrder_changed h
  simp only [loops, change, update_cacheOf, intervalToParentIndex, if_true, Option.bind_some, hold,
    Nat.reduceSub, h.eq_iff 0 1, h.lt_iff 0 1]
  split_ifs with hsame hless
  · rfl
  · have hloop := becomingLess_congr hafter (t := treeOf t3 t1 t0) (by omega) (by omega) (by omega)
    rw [hold, hold] at hloop
    rw [hloop, Option.map_map, Option.map_map]
    rfl
  · have hloop := becomingGreater_congr hafter (t := treeOf t3 t1 t0) (by omega) (by omega)
    rw [hold, hold] at hloop
    rw [hloop, Option.map_map, Option.map_map]
    rfl

/-- Main prints Success. -/
theorem passes_loops : Passes loops := by
  rintro v - hne ⟨t3, t1, t0⟩ hx
  have hold : cacheOf v 1 ≠ v 0 := fun heq => hne heq.symm
  obtain ⟨t, hchange, hsane⟩ := change_sane (mem_trees.mp hx) hold
  rw [update_cacheOf] at hsane
  exact ⟨t, by rw [loops, hchange]; rfl, hsane⟩

end Loops

/-! ### What the test is good for -/

def leveled (v : Values) : Values := fun i => 100 * (rank v i + 1 : Nat)

theorem sameOrder_leveled (v : Values) : SameOrder v (leveled v) := by
  apply (sameOrder_rank v).strictMono (f := fun n : Nat => (100 * (n + 1 : Nat) : Int))
  intro m n hmn
  dsimp only
  omega

theorem leveled_mem (v : Values) (i : Fin 5) : leveled v i ∈ levels := by
  have hlt := rank_lt_card v i
  rw [Fintype.card_fin] at hlt
  simp only [leveled, levels, List.mem_cons, List.not_mem_nil, or_false]
  omega

/-- Every possibility is tested: whatever is done to the tree, if it only compares values,
then it keeps all sane trees sane, for all integers, exactly if it passes the test. -/
theorem passes_iff (alg : Algorithm) (h : ComparisonBased alg) :
    Passes alg ↔ ∀ (v : Values) (t3 t1 t0 : Nat), v 0 ≠ v 1 →
      isSane (cacheOf v) (treeOf t3 t1 t0) = true → Keeps alg v t3 t1 t0 := by
  constructor
  · intro hpasses v t3 t1 t0 hne hsane
    have hsame := sameOrder_leveled v
    have hthere : (t3, t1, t0) ∈ trees (cacheOf (leveled v)) :=
      mem_trees.mpr (isSane_of_sameOrder hsame hsane)
    have hdiffer : leveled v 0 ≠ leveled v 1 := mt (hsame.eq_iff 0 1).mpr hne
    obtain ⟨t, ht, hkept⟩ := hpasses (leveled v) (leveled_mem v) hdiffer _ hthere
    refine ⟨t, ?_, isSane_of_sameOrder (sameOrder_changed hsame).symm hkept⟩
    rw [h v (leveled v) hsame t3 t1 t0 hsane]
    exact ht
  · rintro hall v - hne ⟨t3, t1, t0⟩ hx
    exact hall v t3 t1 t0 hne (mem_trees.mp hx)

/-- The loops of main are such a thing. -/
theorem passes_iff_loops : Passes loops ↔ ∀ (v : Values) (t3 t1 t0 : Nat), v 0 ≠ v 1 →
    isSane (cacheOf v) (treeOf t3 t1 t0) = true → Keeps loops v t3 t1 t0 :=
  passes_iff loops loops_comparisonBased

end TreeProp
