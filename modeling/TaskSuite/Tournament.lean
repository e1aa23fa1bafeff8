import Mathlib.Order.Lattice
import Mathlib.Data.Nat.Basic
import Mathlib.Tactic.SplitIfs

/-! Tournaments: the player with the least value wins, and of two that are equal
either may be recorded as the winner. -/
namespace Tournament

variable {α β : Type*} [LinearOrder β]

/-! ### The bouts of one player -/

/-- A bout with its recorded winner, seen from the side of one of the two players. -/
structure Bout (α : Type*) where
  winner : α
  opponent : α

/-- The bouts from the one that `a` plays up to the final are recorded correctly.
In each the winner of the one before it plays. -/
def Played (value : α → β) : α → List (Bout α) → Prop
  | _, [] => True
  | a, b :: bouts =>
      (b.winner = a ∨ b.winner = b.opponent) ∧ value b.winner ≤ value a ∧
        value b.winner ≤ value b.opponent ∧ Played value b.winner bouts

def champion (a : α) : List (Bout α) → α
  | [] => a
  | b :: bouts => champion b.winner bouts

section Replay
variable {value value' : α → β} {a w x : α} {bouts : List (Bout α)}

theorem Played.champion_mem (h : Played value a bouts) :
    champion a bouts = a ∨ ∃ b ∈ bouts, champion a bouts = b.opponent := by
  induction bouts generalizing a with
  | nil => exact .inl rfl
  | cons b bouts ih =>
      obtain ⟨hwinner, -, -, hmore⟩ := h
      rcases ih hmore with heq | ⟨b', hb', heq⟩
      · rw [champion, heq]
        exact hwinner.imp_right fun hopponent => ⟨b, List.mem_cons_self .., hopponent⟩
      · exact .inr ⟨b', List.mem_cons_of_mem _ hb', heq⟩

theorem Played.champion_le (h : Played value a bouts) : value (champion a bouts) ≤ value a ∧
    ∀ b ∈ bouts, value (champion a bouts) ≤ value b.opponent := by
  induction bouts generalizing a with
  | nil => exact ⟨le_refl _, fun b hb => absurd hb List.not_mem_nil⟩
  | cons b bouts ih =>
      obtain ⟨-, hself, hopponent, hmore⟩ := h
      obtain ⟨hwinner, hothers⟩ := ih hmore
      exact ⟨hwinner.trans hself,
        List.forall_mem_cons.mpr ⟨hwinner.trans hopponent, hothers⟩⟩

theorem Played.congr (h : Played value a bouts) (ha : value' a = value a)
    (hsame : ∀ b ∈ bouts, value' b.opponent = value b.opponent) : Played value' a bouts := by
  induction bouts generalizing a with
  | nil => trivial
  | cons b bouts ih =>
      obtain ⟨hwinner, hself, hopponent, hmore⟩ := h
      obtain ⟨hb, hsame⟩ := List.forall_mem_cons.mp hsame
      have hw : value' b.winner = value b.winner := by
        rcases hwinner with heq | heq
        · rw [heq, ha]
        · rw [heq, hb]
      refine ⟨hwinner, ?_, ?_, ih hmore hw hsame⟩
      · rw [hw, ha]
        exact hself
      · rw [hw, hb]
        exact hopponent

/-- The bouts after the value of `a` became less: `a` wins until its value is
greater than that of a recorded winner. -/
def lowered (value : α → β) (a : α) : List (Bout α) → List (Bout α)
  | [] => []
  | b :: bouts =>
      if value a ≤ value b.winner then { b with winner := a } :: lowered value a bouts
      else b :: bouts

/-- The bouts after the value of the player or of what it represents became
greater, where `x` is the one that plays now. -/
def raised [DecidableEq α] (value : α → β) : α → List (Bout α) → List (Bout α)
  | _, [] => []
  | x, b :: bouts =>
      if value b.opponent < value x then
        if b.winner = b.opponent then b :: bouts
        else { b with winner := b.opponent } :: raised value b.opponent bouts
      else { b with winner := x } :: raised value x bouts

/-- `w` played so far, and from here on `a` does, whose value is not greater. -/
theorem Played.lowered (h : Played value w bouts)
    (hsame : ∀ b ∈ bouts, value' b.opponent = value b.opponent) (hw : value' w ≤ value w)
    (ha : value' a ≤ value' w) : Played value' a (lowered value' a bouts) := by
  induction bouts generalizing w with
  | nil => trivial
  | cons b bouts ih =>
      obtain ⟨hwinner, hself, hopponent, hmore⟩ := h
      obtain ⟨hb, hsame⟩ := List.forall_mem_cons.mp hsame
      rw [Tournament.lowered]
      split_ifs with hle
      · have hdown : value' b.winner ≤ value b.winner := by
          rcases hwinner with heq | heq
          · rw [heq]
            exact hw
          · rw [heq, hb]
        refine ⟨.inl rfl, le_refl _, ?_, ih hmore hsame hdown hle⟩
        rw [hb]
        exact (hle.trans hdown).trans hopponent
      · -- The winner is not `w`, so it is the opponent, and nothing changes above it.
        have heq : b.winner = b.opponent := by
          refine hwinner.resolve_left fun heq => hle ?_
          rw [heq]
          exact ha
        refine ⟨.inr heq, (lt_of_not_ge hle).le, heq ▸ le_refl _, hmore.congr ?_ hsame⟩
        rw [heq, hb]

/-- `w` played so far, and from here on `x` does, whose value is not less. -/
theorem Played.raised [DecidableEq α] (h : Played value w bouts)
    (hsame : ∀ b ∈ bouts, value' b.opponent = value b.opponent) (hx : value w ≤ value' x) :
    Played value' x (raised value' x bouts) := by
  induction bouts generalizing w x with
  | nil => trivial
  | cons b bouts ih =>
      obtain ⟨hwinner, hself, hopponent, hmore⟩ := h
      obtain ⟨hb, hsame⟩ := List.forall_mem_cons.mp hsame
      rw [Tournament.raised]
      split_ifs with hlt heq
      · refine ⟨.inr heq, heq ▸ hlt.le, heq ▸ le_refl _, hmore.congr ?_ hsame⟩
        rw [heq, hb]
      · refine ⟨.inr rfl, hlt.le, le_refl _, ih hmore hsame ?_⟩
        rw [hb]
        exact hopponent
      · exact ⟨.inl rfl, le_refl _, not_lt.mp hlt, ih hmore hsame (hself.trans hx)⟩

end Replay

/-! ### A whole tree -/

section Tree
variable {ι : Type*} {leaf : ι → α → Prop} {child : ι → ι → Prop} {value : α → β} {winner : ι → α}
variable {S : ι → Prop} {i : ι} {a : α}

inductive Below (leaf : ι → α → Prop) (child : ι → ι → Prop) : ι → α → Prop
  | leaf {i : ι} {a : α} : leaf i a → Below leaf child i a
  | node {i c : ι} {a : α} : child c i → Below leaf child c a → Below leaf child i a

/-- The winner recorded at a node is one of its leaves, or the winner at one of
its children, and none of these has a lesser value. -/
structure Records (leaf : ι → α → Prop) (child : ι → ι → Prop) (value : α → β) (winner : ι → α)
    (i : ι) : Prop where
  mem : leaf i (winner i) ∨ ∃ c, child c i ∧ winner i = winner c
  leaf_le : ∀ a, leaf i a → value (winner i) ≤ value a
  child_le : ∀ c, child c i → value (winner i) ≤ value (winner c)

/-- Records that are correct at each node are correct for the tree below it. -/
theorem Below.winner_le (h : Below leaf child i a) (hS : ∀ i c, S i → child c i → S c)
    (hrecords : ∀ i, S i → Records leaf child value winner i) (hi : S i) :
    value (winner i) ≤ value a := by
  induction h with
  | leaf hleaf => exact (hrecords _ hi).leaf_le _ hleaf
  | node hchild _ ih => exact ((hrecords _ hi).child_le _ hchild).trans (ih (hS _ _ hi hchild))

theorem winner_below (hwf : WellFounded child) (hS : ∀ i c, S i → child c i → S c)
    (hrecords : ∀ i, S i → Records leaf child value winner i) (hi : S i) :
    Below leaf child i (winner i) := by
  induction i using hwf.induction with
  | _ i ih =>
      rcases (hrecords i hi).mem with hleaf | ⟨c, hchild, heq⟩
      · exact .leaf hleaf
      · rw [heq]
        exact .node hchild (ih c hchild (hS i c hi hchild))

end Tree

end Tournament
