import Mathlib.Data.Multiset.Sort
import Mathlib.Data.List.Sort
import Mathlib.Order.Defs.LinearOrder

/-! Priority queues by their specification alone: a representation with a
multiset of contents, of which `top` shows some element with the least key.
Which one of several is left to the implementation. -/

structure PriorityQueue (κ α : Type) [LinearOrder κ] where
  Rep : Type
  empty : Rep
  push : Rep → κ × α → Rep
  top : Rep → Option (κ × α)
  pop : Rep → Rep
  contents : Rep → Multiset (κ × α)
  contents_empty : contents empty = 0
  contents_push : ∀ q d, contents (push q d) = d ::ₘ contents q
  top_eq_none : ∀ q, top q = none ↔ contents q = 0
  top_le : ∀ q d, top q = some d → ∀ e ∈ contents q, d.1 ≤ e.1
  contents_pop : ∀ q d, top q = some d → contents q = d ::ₘ contents (pop q)

namespace PriorityQueue
variable {κ α : Type} [LinearOrder κ] (Q : PriorityQueue κ α)

def size (q : Q.Rep) : Nat := (Q.contents q).card

variable {Q}

theorem top_mem {q : Q.Rep} {d : κ × α} (h : Q.top q = some d) : d ∈ Q.contents q := by
  rw [Q.contents_pop q d h]
  exact Multiset.mem_cons_self d _

theorem size_pop {q : Q.Rep} {d : κ × α} (h : Q.top q = some d) :
    Q.size q = Q.size (Q.pop q) + 1 := by
  rw [size, Q.contents_pop q d h, Multiset.card_cons, size]

theorem top_eq_none_of_size {q : Q.Rep} (h : Q.size q = 0) : Q.top q = none :=
  (Q.top_eq_none q).mpr (Multiset.card_eq_zero.mp h)

def KeyLe (d e : κ × α) : Prop := d.1 ≤ e.1

instance : DecidableRel (KeyLe : κ × α → κ × α → Prop) :=
  fun d e => inferInstanceAs (Decidable (d.1 ≤ e.1))

instance : Std.Total (KeyLe : κ × α → κ × α → Prop) := ⟨fun d e => le_total d.1 e.1⟩

instance : IsTrans (κ × α) KeyLe := ⟨fun _ _ _ h k => le_trans h k⟩

/-- The simplest implementation, to run concrete queues with. -/
def sorted (κ α : Type) [LinearOrder κ] : PriorityQueue κ α where
  Rep := { l : List (κ × α) // l.Pairwise KeyLe }
  empty := ⟨[], List.Pairwise.nil⟩
  push q d := ⟨q.1.orderedInsert KeyLe d, q.2.orderedInsert d q.1⟩
  top q := q.1.head?
  pop q := ⟨q.1.tail, q.2.tail⟩
  contents q := q.1
  contents_empty := rfl
  contents_push q d := Multiset.coe_eq_coe.mpr (q.1.perm_orderedInsert KeyLe d)
  top_eq_none q := by simp
  top_le q d h e he := by
    obtain ⟨l, hl⟩ := List.head?_eq_some_iff.mp h
    have hs := q.2
    rw [hl] at hs
    simp only [hl, Multiset.mem_coe, List.mem_cons] at he
    rcases he with rfl | he
    · exact le_rfl
    · exact (List.pairwise_cons.mp hs).1 e he
  contents_pop q d h := by
    obtain ⟨l, hl⟩ := List.head?_eq_some_iff.mp h
    simp [hl]

end PriorityQueue
