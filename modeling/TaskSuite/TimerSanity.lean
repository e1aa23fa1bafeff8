import TaskSuite.Tournament
import Mathlib.Data.Nat.Bitwise

/-! The two loops of `sanity_check` over the tree of implementation 2, which
keeps for each node the interval with the least cached expiration point. -/
namespace Timers.Sanity
open Tournament

/-- What is used of `threadpool::RunningTimers`, which is a submodule. -/
structure RunningTimers where
  treeSize : Nat
  intervalToParentIndex : Nat → Nat
  parentOf : Nat → Nat
  siblingOf : Nat → Nat
  power : ∃ k, treeSize = 2 ^ (k + 1)
  parent_index : ∀ interval, intervalToParentIndex interval = (interval + treeSize) / 2
  parent_of : ∀ i, parentOf i = i / 2
  sibling_of : ∀ i, siblingOf i = i ^^^ 1

variable {β : Type*} [LinearOrder β]

def intervalAsserts (R : RunningTimers) (cache : Nat → β) (tree : Nat → Nat) (interval : Nat) : Bool :=
  let ti := R.intervalToParentIndex interval
  tree ti / 2 * 2 = interval && cache (tree ti ^^^ 1) ≥ cache (tree ti)

def nodeAsserts (R : RunningTimers) (cache : Nat → β) (tree : Nat → Nat) (ti : Nat) : Bool :=
  let pi := R.parentOf ti
  let si := R.siblingOf ti
  let pin := tree pi
  let tin := tree ti
  let sin := tree si
  (pin = tin || pin = sin) &&
    let oin := tin + sin - pin
    cache pin ≤ cache oin

/-- All asserts of the two loops hold: for the even intervals below `tree_size`,
and for the nodes from `tree_size - 1` down to 2. -/
def sanityCheck (R : RunningTimers) (cache : Nat → β) (tree : Nat → Nat) : Bool :=
  (List.range' 0 ((R.treeSize + 1) / 2) 2).all (intervalAsserts R cache tree) &&
    (List.range' 2 (R.treeSize - 2)).reverse.all (nodeAsserts R cache tree)

namespace RunningTimers
variable (R : RunningTimers)

/-- The interval has this node as its parent. -/
def Leaf (i interval : Nat) : Prop := interval < R.treeSize ∧ R.intervalToParentIndex interval = i

/-- The node `c` has the node `i` as its parent. -/
def Child (c i : Nat) : Prop := 2 ≤ c ∧ c < R.treeSize ∧ R.parentOf c = i

/-- The interval is in the range of leaves below the node. -/
def InRange (i interval : Nat) : Prop := Below R.Leaf R.Child i interval

end RunningTimers

section Sound
variable {R : RunningTimers} {cache : Nat → β} {tree : Nat → Nat} {i j : Nat}

theorem treeSize_even (R : RunningTimers) : R.treeSize % 2 = 0 ∧ 2 ≤ R.treeSize := by
  obtain ⟨k, hk⟩ := R.power
  have hpos := Nat.one_le_two_pow (n := k)
  rw [pow_succ] at hk
  omega

theorem xor_one (x : Nat) : x ^^^ 1 = if x % 2 = 0 then x + 1 else x - 1 := by
  have hdiv : (x ^^^ 1) / 2 = x / 2 := by rw [Nat.xor_div_two]; simp
  have hmod : (x ^^^ 1) % 2 = (x + 1) % 2 := Nat.xor_mod_two_eq
  split_ifs <;> omega

theorem intervalAsserts_of_sanityCheck (h : sanityCheck R cache tree = true) (hj : j < R.treeSize)
    (heven : j % 2 = 0) : intervalAsserts R cache tree j = true := by
  obtain ⟨hfirst, -⟩ := Bool.and_eq_true_iff.mp h
  refine List.all_eq_true.mp hfirst j (List.mem_range'.mpr ⟨j / 2, ?_, ?_⟩)
  · omega
  · omega

theorem nodeAsserts_of_sanityCheck (h : sanityCheck R cache tree = true) (hi : 2 ≤ i)
    (hsize : i < R.treeSize) : nodeAsserts R cache tree i = true := by
  obtain ⟨-, hsecond⟩ := Bool.and_eq_true_iff.mp h
  refine List.all_eq_true.mp hsecond i (List.mem_reverse.mpr (List.mem_range'.mpr ⟨i - 2, ?_, ?_⟩))
  · omega
  · omega

theorem records_interval (h : sanityCheck R cache tree = true) (hsize : i < R.treeSize)
    (hleaf : R.treeSize ≤ 2 * i) : Records R.Leaf R.Child cache tree i := by
  obtain ⟨heven, -⟩ := treeSize_even R
  have hasserts := intervalAsserts_of_sanityCheck (j := 2 * i - R.treeSize) h (by omega) (by omega)
  have hparent : R.intervalToParentIndex (2 * i - R.treeSize) = i := by
    rw [R.parent_index]
    omega
  simp only [intervalAsserts, hparent, Bool.and_eq_true, decide_eq_true_eq, ge_iff_le] at hasserts
  obtain ⟨htree, hother⟩ := hasserts
  refine ⟨.inl ⟨by omega, by rw [R.parent_index]; omega⟩, ?_, ?_⟩
  · rintro j ⟨hj, hij⟩
    rw [R.parent_index] at hij
    -- The interval is the recorded one or the other one of the pair.
    have hpair : j = tree i ∨ j = tree i ^^^ 1 := by
      rw [xor_one]
      split_ifs <;> omega
    rcases hpair with rfl | rfl
    · exact le_refl _
    · exact hother
  · rintro c ⟨-, hc, hci⟩
    rw [R.parent_of] at hci
    omega

/-- A node above two nodes. -/
theorem records_node (h : sanityCheck R cache tree = true) (hi : 1 ≤ i) (hnode : 2 * i < R.treeSize) :
    Records R.Leaf R.Child cache tree i := by
  obtain ⟨heven, -⟩ := treeSize_even R
  have hasserts := nodeAsserts_of_sanityCheck (i := 2 * i) h (by omega) hnode
  have hparent : R.parentOf (2 * i) = i := by
    rw [R.parent_of]
    omega
  have hsibling : R.siblingOf (2 * i) = 2 * i + 1 := by
    rw [R.sibling_of, xor_one, if_pos (by omega)]
  simp only [nodeAsserts, hparent, hsibling, Bool.and_eq_true, Bool.or_eq_true, decide_eq_true_eq]
    at hasserts
  obtain ⟨hwinner, hloser⟩ := hasserts
  have hleft : R.Child (2 * i) i := ⟨by omega, hnode, hparent⟩
  have hright : R.Child (2 * i + 1) i := ⟨by omega, by omega, by rw [R.parent_of]; omega⟩
  refine ⟨.inr ?_, ?_, ?_⟩
  · rcases hwinner with heq | heq
    · exact ⟨2 * i, hleft, heq⟩
    · exact ⟨2 * i + 1, hright, heq⟩
  · rintro j ⟨hj, hij⟩
    rw [R.parent_index] at hij
    omega
  · rintro c ⟨-, hc, hci⟩
    rw [R.parent_of] at hci
    have hle : cache (tree i) ≤ cache (tree (2 * i)) ∧ cache (tree i) ≤ cache (tree (2 * i + 1)) := by
      rcases hwinner with heq | heq
      · rw [heq, Nat.add_sub_cancel_left] at hloser
        rw [heq]
        exact ⟨le_refl _, hloser⟩
      · rw [heq, Nat.add_sub_cancel] at hloser
        rw [heq]
        exact ⟨hloser, le_refl _⟩
    obtain rfl | rfl : c = 2 * i ∨ c = 2 * i + 1 := by omega
    · exact hle.1
    · exact hle.2

theorem child_wellFounded (R : RunningTimers) : WellFounded R.Child := by
  refine Subrelation.wf ?_ (measure fun i => R.treeSize - i).wf
  rintro c i ⟨hc, hsize, hparent⟩
  rw [R.parent_of] at hparent
  change R.treeSize - c < R.treeSize - i
  omega

theorem inRange_lt (h : R.InRange i j) : j < R.treeSize := by
  induction h with
  | leaf hleaf => exact hleaf.1
  | node _ _ ih => exact ih

theorem inRange_top (R : RunningTimers) (hj : j < R.treeSize) : R.InRange 1 j := by
  obtain ⟨-, hsize⟩ := treeSize_even R
  have hup : ∀ i, 1 ≤ i → i < R.treeSize → R.InRange i j → R.InRange 1 j := by
    intro i
    induction i using Nat.strong_induction_on with
    | _ i ih =>
        intro hi hisize hrange
        by_cases htop : i = 1
        · exact htop ▸ hrange
        · refine ih (i / 2) (by omega) (by omega) (by omega) (.node ?_ hrange)
          exact ⟨by omega, hisize, R.parent_of i⟩
  refine hup (R.intervalToParentIndex j) ?_ ?_ (.leaf ⟨hj, rfl⟩)
  · rw [R.parent_index]
    omega
  · rw [R.parent_index]
    omega

end Sound

/-- If the asserts of both loops hold, then every node has an interval below it
with the least value below it, and the top has one with the least value of all. -/
theorem sanity_check_sound (R : RunningTimers) (cache : Nat → β) (tree : Nat → Nat)
    (h : sanityCheck R cache tree = true) :
    (∀ i, 1 ≤ i → i < R.treeSize →
      R.InRange i (tree i) ∧ ∀ j, R.InRange i j → cache (tree i) ≤ cache j) ∧
    tree 1 < R.treeSize ∧ ∀ j, j < R.treeSize → cache (tree 1) ≤ cache j := by
  have hrecords : ∀ i, 1 ≤ i ∧ i < R.treeSize → Records R.Leaf R.Child cache tree i := by
    rintro i ⟨hi, hsize⟩
    by_cases hnode : 2 * i < R.treeSize
    · exact records_node h hi hnode
    · exact records_interval h hsize (by omega)
  have hclosed : ∀ i c, 1 ≤ i ∧ i < R.treeSize → R.Child c i → 1 ≤ c ∧ c < R.treeSize :=
    fun i c _ hchild => ⟨by have := hchild.1; omega, hchild.2.1⟩
  have hnodes : ∀ i, 1 ≤ i → i < R.treeSize →
      R.InRange i (tree i) ∧ ∀ j, R.InRange i j → cache (tree i) ≤ cache j := by
    intro i hi hsize
    exact ⟨winner_below (child_wellFounded R) hclosed hrecords ⟨hi, hsize⟩,
      fun j hj => hj.winner_le hclosed hrecords ⟨hi, hsize⟩⟩
  obtain ⟨-, hsize⟩ := treeSize_even R
  obtain ⟨htop, hleast⟩ := hnodes 1 (le_refl 1) hsize
  exact ⟨hnodes, inRange_lt htop, fun j hj => hleast j (inRange_top R hj)⟩

def four : RunningTimers where
  treeSize := 4
  intervalToParentIndex interval := (interval + 4) / 2
  parentOf i := i / 2
  siblingOf i := i ^^^ 1
  power := ⟨1, rfl⟩
  parent_index _ := rfl
  parent_of _ := rfl
  sibling_of _ := rfl

/-- The first two intervals are equal, and the top has the second of them. -/
theorem sanity_check_sound_tie :
    let cache : Nat → Int := fun j => [2, 2, 7, 5].getD j 0
    let tree : Nat → Nat := fun i => [0, 1, 1, 3].getD i 0
    (∀ i, 1 ≤ i → i < four.treeSize →
      four.InRange i (tree i) ∧ ∀ j, four.InRange i j → cache (tree i) ≤ cache j) ∧
    tree 1 < four.treeSize ∧ ∀ j, j < four.treeSize → cache (tree 1) ≤ cache j := by
  intro cache tree
  exact sanity_check_sound four cache tree (by decide)

end Timers.Sanity
