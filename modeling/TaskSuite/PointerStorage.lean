import TaskSuite.Completion
import TaskSuite.Shares
import Mathlib.Data.Fintype.EquivFin

/-! The threads of `pointer_storage_test.cxx`, which share one `PointerStorage`. That
class is not part of the repository; what the test relies on is a parameter. -/
namespace PointerStorage
open Machine Shares

/-- A container that picks the index of what is put into it. `contents` is what
`for_each` goes through. -/
structure Storage (α : Type) where
  Carrier : Type
  empty : Carrier
  insert : Carrier → α → Carrier × ℕ
  get : Carrier → ℕ → Option α
  erase : Carrier → ℕ → Carrier
  contents : Carrier → Multiset (ℕ × α)
  contents_empty : contents empty = 0
  contents_insert (c : Carrier) (a : α) :
    contents (insert c a).1 = ((insert c a).2, a) ::ₘ contents c
  insert_fresh (c : Carrier) (a : α) : (insert c a).2 ∉ (contents c).map Prod.fst
  get_eq {c : Carrier} {i : ℕ} {a : α} : ((contents c).map Prod.fst).Nodup → (i, a) ∈ contents c →
    get c i = some a
  contents_erase {c : Carrier} {i : ℕ} {a : α} : ((contents c).map Prod.fst).Nodup →
    (i, a) ∈ contents c → contents c = (i, a) ::ₘ contents (erase c i)

structure Obj where
  n : ℤ
  m : ℕ
  deriving DecidableEq, Repr

/-- The places in the loop of `thread`, with what was computed before. `left` is the
number of turns of the inner loop that are still to be done, `pos` where `positions` is
going to lose an index. -/
inductive Pc where
  | head
  /-- `new B(n, j)` -/
  | grow (left : ℕ)
  /-- `ps.insert(a)` -/
  | insert (left a : ℕ)
  /-- `positions->push_back(index)` -/
  | pushBack (left index : ℕ)
  /-- `ramp % positions->size()` -/
  | shrink (left : ℕ)
  /-- `ps.get(index)` -/
  | get (left pos index : ℕ)
  /-- `ps.erase(index)` -/
  | erase (left pos index a : ℕ)
  /-- `delete a` -/
  | delete (left pos a : ℕ)
  /-- `positions->erase(pos)` -/
  | remove (left pos : ℕ)
  /-- `ASSERT(positions->size() == target)` -/
  | check
  | done
  deriving DecidableEq, Repr

structure Thread where
  pc : Pc
  j : ℕ
  positions : List ℕ
  deriving DecidableEq, Repr

/-- Objects are named by their addresses. `failed` is set by an ASSERT that does not
hold, an index that is not in use, an object that is not there any more, and a division
by zero. -/
structure State (S : Storage ℕ) (threads : ℕ) where
  ps : S.Carrier
  heap : ℕ → Option Obj
  counter : ℤ
  failed : Bool
  thread : Fin threads → Thread

variable {S : Storage ℕ} {threads : ℕ}

def initial : State S threads := ⟨S.empty, fun _ => none, 0, false, fun _ => ⟨.head, 0, []⟩⟩

def ramp (j : ℕ) : ℕ := j % 1000

def target (r j : ℕ) : ℕ := r + ramp j

def State.set (s : State S threads) (t : Fin threads) (x : Thread) : State S threads :=
  { s with thread := Function.update s.thread t x }

def State.fail (s : State S threads) (t : Fin threads) : State S threads :=
  { s with failed := true }.set t { s.thread t with pc := .done }

/-- `ASSERT(n_ >= 0)` in the destructor of `B`, and that of `A`. -/
def deleteObj (s : State S threads) (a : ℕ) (o : Obj) : State S threads :=
  { s with
    heap := Function.update s.heap a none
    counter := s.counter - 1
    failed := s.failed || o.n < 0 }

/-- The label has the thread, and the address that `new` gives to it. -/
def step (rn : Fin threads → List ℕ) (s : State S threads) (label : Fin threads × ℕ) :
    Option (State S threads) :=
  let (t, fresh) := label
  let x := s.thread t
  match x.pc with
  | .head =>
      match (rn t)[x.j]? with
      | none => some (s.set t { x with pc := .done })
      | some r =>
          let current := x.positions.length
          let target := target r x.j
          if target > current then some (s.set t { x with pc := .grow (target - current) })
          else some (s.set t { x with pc := .shrink (current - target) })
  | .grow 0 | .shrink 0 => some (s.set t { x with pc := .check })
  | .grow (left + 1) =>
      if s.heap fresh = none then
        some ({ s with
          heap := Function.update s.heap fresh (some ⟨t.val, x.j⟩)
          counter := s.counter + 1 }.set t { x with pc := .insert left fresh })
      else none
  | .insert left a =>
      let (ps, index) := S.insert s.ps a
      some ({ s with ps }.set t { x with pc := .pushBack left index })
  | .pushBack left index =>
      some (s.set t { x with pc := .grow left, positions := x.positions ++ [index] })
  | .shrink (left + 1) =>
      match x.positions[ramp x.j % x.positions.length]? with
      | none => some (s.fail t)
      | some index => some (s.set t { x with pc := .get left (ramp x.j % x.positions.length) index })
  | .get left pos index =>
      match S.get s.ps index with
      | none => some (s.fail t)
      | some a => some (s.set t { x with pc := .erase left pos index a })
  | .erase left pos index a =>
      some ({ s with ps := S.erase s.ps index }.set t { x with pc := .delete left pos a })
  | .delete left pos a =>
      match s.heap a with
      | none => some (s.fail t)
      | some o => some ((deleteObj s a o).set t { x with pc := .remove left pos })
  | .remove left pos =>
      some (s.set t { x with pc := .shrink left, positions := x.positions.eraseIdx pos })
  | .check =>
      match (rn t)[x.j]? with
      | none => some (s.fail t)
      | some r => some ({ s with
          failed := s.failed || x.positions.length ≠ target r x.j }.set t
            { x with pc := .head, j := x.j + 1 })
  | .done => none

/-! ### Who has what -/

/-- The indices that a thread is answerable for. -/
def Thread.indices (x : Thread) : Multiset ℕ :=
  match x.pc with
  | .pushBack _ index => index ::ₘ x.positions
  | .delete _ pos _ | .remove _ pos => x.positions.eraseIdx pos
  | _ => x.positions

def Thread.objects (x : Thread) : Multiset ℕ :=
  match x.pc with
  | .insert _ a | .delete _ _ a => {a}
  | _ => 0

/-- The size of `positions`, and what the thread remembers of it. -/
def Thread.Sized (rn : List ℕ) (x : Thread) : Prop :=
  match x.pc with
  | .head => x.j ≤ rn.length ∧ ∀ j r, x.j = j + 1 → rn[j]? = some r → x.positions.length = target r j
  | .done => x.j = rn.length ∧ ∀ j r, x.j = j + 1 → rn[j]? = some r → x.positions.length = target r j
  | .grow left => ∃ r, rn[x.j]? = some r ∧ x.positions.length + left = target r x.j
  | .insert left _ | .pushBack left _ =>
      ∃ r, rn[x.j]? = some r ∧ x.positions.length + left + 1 = target r x.j
  | .shrink left => ∃ r, rn[x.j]? = some r ∧ x.positions.length = target r x.j + left
  | .get left pos index | .erase left pos index _ =>
      (∃ r, rn[x.j]? = some r ∧ x.positions.length = target r x.j + left + 1) ∧
        x.positions[pos]? = some index
  | .delete left pos _ | .remove left pos =>
      (∃ r, rn[x.j]? = some r ∧ x.positions.length = target r x.j + left + 1) ∧
        pos < x.positions.length
  | .check => ∃ r, rn[x.j]? = some r ∧ x.positions.length = target r x.j

def State.indices (s : State S threads) : Multiset ℕ := total Thread.indices s.thread

/-- The objects in the storage and those in the hands of the threads. -/
def State.objects (s : State S threads) : Multiset ℕ :=
  (S.contents s.ps).map Prod.snd + total Thread.objects s.thread

structure Inv (rn : Fin threads → List ℕ) (s : State S threads) : Prop where
  indices : (S.contents s.ps).map Prod.fst = s.indices
  nodup : s.indices.Nodup
  objects : s.objects.Nodup
  heap : ∀ a, s.heap a ≠ none ↔ a ∈ s.objects
  alive : ∀ a o, s.heap a = some o → 0 ≤ o.n
  counter : s.counter = s.objects.card
  sized : ∀ t, (s.thread t).Sized (rn t)
  got : ∀ t left pos index a, (s.thread t).pc = .erase left pos index a → (index, a) ∈ S.contents s.ps
  sound : s.failed = false

theorem inv_initial (rn : Fin threads → List ℕ) : Inv rn (initial : State S threads) := by
  have hindices : (initial : State S threads).indices = 0 := total_const _ _ rfl
  have hobjects : (initial : State S threads).objects = 0 := by
    have hnone : total Thread.objects (initial : State S threads).thread = 0 := total_const _ _ rfl
    rw [State.objects, hnone, initial, S.contents_empty]
    rfl
  exact {
    indices := by
      rw [hindices, initial, S.contents_empty]
      rfl
    nodup := by
      rw [hindices]
      exact Multiset.nodup_zero
    objects := by
      rw [hobjects]
      exact Multiset.nodup_zero
    heap := by
      intro a
      rw [hobjects]
      simp [initial]
    alive := by
      intro a o ho
      cases ho
    counter := by
      rw [hobjects]
      rfl
    sized := fun _ => ⟨Nat.zero_le _, fun _ _ hj => absurd hj (Nat.succ_ne_zero _).symm⟩
    got := by
      intro t left pos index a hpc
      cases hpc
    sound := rfl }

section Steps
variable {rn : Fin threads → List ℕ} {s s' : State S threads} {t : Fin threads} {y : Thread}

theorem got_update (h : ∀ u left pos index a, (s.thread u).pc = .erase left pos index a →
      (index, a) ∈ S.contents s.ps)
    (hthread : s'.thread = Function.update s.thread t y)
    (hother : ∀ u left pos index a, u ≠ t → (s.thread u).pc = .erase left pos index a →
      (index, a) ∈ S.contents s.ps → (index, a) ∈ S.contents s'.ps)
    (hself : ∀ left pos index a, y.pc = .erase left pos index a → (index, a) ∈ S.contents s'.ps)
    (u : Fin threads) (left pos index a : ℕ) (hpc : (s'.thread u).pc = .erase left pos index a) :
    (index, a) ∈ S.contents s'.ps := by
  rw [hthread] at hpc
  by_cases hut : u = t
  · subst hut
    rw [Function.update_self] at hpc
    exact hself left pos index a hpc
  · rw [Function.update_of_ne hut] at hpc
    exact hother u left pos index a hut hpc (h u left pos index a hpc)

theorem Inv.sized_update (h : Inv rn s) (hthread : s'.thread = Function.update s.thread t y)
    (hy : y.Sized (rn t)) (u : Fin threads) : (s'.thread u).Sized (rn u) := by
  rw [hthread]
  by_cases hut : u = t
  · subst hut
    rwa [Function.update_self]
  · rw [Function.update_of_ne hut]
    exact h.sized u

theorem Inv.move (h : Inv rn s) (hps : s'.ps = s.ps) (hheap : s'.heap = s.heap)
    (hcounter : s'.counter = s.counter) (hfailed : s'.failed = s.failed)
    (hthread : s'.thread = Function.update s.thread t y)
    (hindices : y.indices = (s.thread t).indices) (hobjects : y.objects = (s.thread t).objects)
    (hy : y.Sized (rn t))
    (hgot : ∀ left pos index a, y.pc = .erase left pos index a → (index, a) ∈ S.contents s.ps) :
    Inv rn s' := by
  have hi : s'.indices = s.indices := by
    rw [State.indices, hthread, total_update_of_eq hindices, State.indices]
  have ho : s'.objects = s.objects := by
    rw [State.objects, hthread, hps, total_update_of_eq hobjects, State.objects]
  exact {
    indices := by rw [hi, hps, h.indices]
    nodup := hi ▸ h.nodup
    objects := ho ▸ h.objects
    heap := by
      rw [ho, hheap]
      exact h.heap
    alive := by
      rw [hheap]
      exact h.alive
    counter := by rw [ho, hcounter, h.counter]
    sized := h.sized_update hthread hy
    got := got_update h.got hthread (fun _ _ _ _ _ _ _ hin => hps ▸ hin) (hps ▸ hgot)
    sound := by rw [hfailed, h.sound] }

theorem Inv.new (h : Inv rn s) {left fresh : ℕ} (hpc : (s.thread t).pc = .grow (left + 1))
    (hfresh : s.heap fresh = none) (hps : s'.ps = s.ps)
    (hheap : s'.heap = Function.update s.heap fresh (some ⟨t.val, (s.thread t).j⟩))
    (hcounter : s'.counter = s.counter + 1) (hfailed : s'.failed = s.failed)
    (hthread : s'.thread = Function.update s.thread t { s.thread t with pc := .insert left fresh }) :
    Inv rn s' := by
  have hnot : fresh ∉ s.objects := fun hin => (h.heap fresh).mpr hin hfresh
  have hi : s'.indices = s.indices := by
    rw [State.indices, hthread, total_update_of_eq, State.indices]
    simp only [Thread.indices, hpc]
  have ho : s'.objects = fresh ::ₘ s.objects := by
    have hthis : ({ s.thread t with pc := .insert left fresh } : Thread).objects =
        fresh ::ₘ (s.thread t).objects := by
      simp only [Thread.objects, hpc]
      rfl
    rw [State.objects, hthread, hps, total_update_cons hthis, Multiset.add_cons, State.objects]
  have hsized := h.sized t
  simp only [Thread.Sized, hpc] at hsized
  exact {
    indices := by rw [hi, hps, h.indices]
    nodup := hi ▸ h.nodup
    objects := by
      rw [ho, Multiset.nodup_cons]
      exact ⟨hnot, h.objects⟩
    heap := by
      intro a
      rw [hheap, ho, Multiset.mem_cons]
      by_cases ha : a = fresh
      · subst ha
        simp
      · rw [Function.update_of_ne ha, h.heap a]
        simp [ha]
    alive := by
      intro a o hobj
      rw [hheap] at hobj
      by_cases ha : a = fresh
      · subst ha
        rw [Function.update_self, Option.some_inj] at hobj
        subst hobj
        exact Int.natCast_nonneg t.val
      · rw [Function.update_of_ne ha] at hobj
        exact h.alive a o hobj
    counter := by
      rw [ho, hcounter, h.counter, Multiset.card_cons]
      rfl
    sized := h.sized_update hthread (by
      obtain ⟨r, hr, hlen⟩ := hsized
      exact ⟨r, hr, hlen⟩)
    got := got_update h.got hthread (fun _ _ _ _ _ _ _ hin => hps ▸ hin) (by simp)
    sound := by rw [hfailed, h.sound] }

theorem Inv.insert (h : Inv rn s) {left a : ℕ} (hpc : (s.thread t).pc = .insert left a)
    (hps : s'.ps = (S.insert s.ps a).1) (hheap : s'.heap = s.heap) (hcounter : s'.counter = s.counter)
    (hfailed : s'.failed = s.failed)
    (hthread : s'.thread = Function.update s.thread t
      { s.thread t with pc := .pushBack left (S.insert s.ps a).2 }) : Inv rn s' := by
  have hi : s'.indices = (S.insert s.ps a).2 ::ₘ s.indices := by
    have hthis : ({ s.thread t with pc := .pushBack left (S.insert s.ps a).2 } : Thread).indices =
        (S.insert s.ps a).2 ::ₘ (s.thread t).indices := by
      simp only [Thread.indices, hpc]
    rw [State.indices, hthread, total_update_cons hthis, State.indices]
  have ho : s'.objects = s.objects := by
    have hthis : (s.thread t).objects =
        a ::ₘ ({ s.thread t with pc := .pushBack left (S.insert s.ps a).2 } : Thread).objects := by
      simp only [Thread.objects, hpc]
      rfl
    rw [State.objects, State.objects, hps, S.contents_insert, Multiset.map_cons, Multiset.cons_add,
      ← Multiset.add_cons, hthread, cons_total_update hthis]
  have hsized := h.sized t
  simp only [Thread.Sized, hpc] at hsized
  exact {
    indices := by rw [hi, hps, S.contents_insert, Multiset.map_cons, h.indices]
    nodup := by
      rw [hi, Multiset.nodup_cons, ← h.indices]
      exact ⟨S.insert_fresh s.ps a, h.indices ▸ h.nodup⟩
    objects := ho ▸ h.objects
    heap := by
      rw [ho, hheap]
      exact h.heap
    alive := by
      rw [hheap]
      exact h.alive
    counter := by rw [ho, hcounter, h.counter]
    sized := h.sized_update hthread hsized
    got := by
      refine got_update h.got hthread ?_ (by simp)
      intro u _ _ index b _ _ hin
      rw [hps, S.contents_insert]
      exact Multiset.mem_cons_of_mem hin
    sound := by rw [hfailed, h.sound] }

/-- `ps.erase(index)`: the object was found under an index that only this thread has. -/
theorem Inv.erase (h : Inv rn s) {left pos index a : ℕ} (hpc : (s.thread t).pc = .erase left pos index a)
    (hps : s'.ps = S.erase s.ps index) (hheap : s'.heap = s.heap) (hcounter : s'.counter = s.counter)
    (hfailed : s'.failed = s.failed)
    (hthread : s'.thread = Function.update s.thread t { s.thread t with pc := .delete left pos a }) :
    Inv rn s' := by
  have hsized := h.sized t
  simp only [Thread.Sized, hpc] at hsized
  obtain ⟨hlen, hpos⟩ := hsized
  obtain ⟨hlt, hindex⟩ := List.getElem?_eq_some_iff.mp hpos
  have hkeys : ((S.contents s.ps).map Prod.fst).Nodup := h.indices ▸ h.nodup
  have herase := S.contents_erase hkeys (h.got t left pos index a hpc)
  have hthis : (s.thread t).indices =
      index ::ₘ ({ s.thread t with pc := .delete left pos a } : Thread).indices := by
    simp only [Thread.indices, hpc]
    rw [Multiset.cons_coe, Multiset.coe_eq_coe, ← hindex]
    exact (List.getElem_cons_eraseIdx_perm hlt).symm
  have hi : index ::ₘ s'.indices = s.indices := by
    rw [State.indices, hthread, cons_total_update hthis, State.indices]
  have ho : s'.objects = s.objects := by
    have hmine : ({ s.thread t with pc := .delete left pos a } : Thread).objects =
        a ::ₘ (s.thread t).objects := by
      simp only [Thread.objects, hpc]
      rfl
    rw [State.objects, State.objects, herase, hthread, total_update_cons hmine, hps, Multiset.map_cons,
      Multiset.add_cons, Multiset.cons_add]
  have hnodup := h.nodup
  rw [← hi, Multiset.nodup_cons] at hnodup
  exact {
    indices := by
      have hall := h.indices
      rw [← hi, herase, Multiset.map_cons] at hall
      rw [hps]
      exact (Multiset.cons_inj_right index).mp hall
    nodup := hnodup.2
    objects := ho ▸ h.objects
    heap := by
      rw [ho, hheap]
      exact h.heap
    alive := by
      rw [hheap]
      exact h.alive
    counter := by rw [ho, hcounter, h.counter]
    sized := h.sized_update hthread ⟨hlen, hlt⟩
    got := by
      refine got_update h.got hthread ?_ (by simp)
      intro u left' pos' index' b hut hpcu hin
      rw [hps]
      rw [herase, Multiset.mem_cons] at hin
      rcases hin with heq | hin
      · -- two threads do not have the same index
        obtain ⟨rfl, rfl⟩ := Prod.mk.inj heq
        have hsizedu := h.sized u
        simp only [Thread.Sized, hpcu] at hsizedu
        have hu : index' ∈ (s.thread u).indices := by
          simp only [Thread.indices, hpcu]
          exact List.mem_of_getElem? hsizedu.2
        have ht : index' ∈ (s.thread t).indices := by
          rw [hthis]
          exact Multiset.mem_cons_self _ _
        exact absurd (owner_unique h.nodup hu ht) hut
      · exact hin
    sound := by rw [hfailed, h.sound] }

/-- The object of a thread is still there when it is deleted. -/
theorem Inv.alive_of_objects (h : Inv rn s) {a : ℕ} (ha : a ∈ (s.thread t).objects) :
    ∃ o, s.heap a = some o ∧ 0 ≤ o.n := by
  have hin : a ∈ s.objects := by
    rw [State.objects, Multiset.mem_add, mem_total]
    exact .inr ⟨t, ha⟩
  obtain ⟨o, ho⟩ := Option.ne_none_iff_exists'.mp ((h.heap a).mpr hin)
  exact ⟨o, ho, h.alive a o ho⟩

theorem Inv.delete (h : Inv rn s) {left pos a : ℕ} {o : Obj} (hpc : (s.thread t).pc = .delete left pos a)
    (hobj : s.heap a = some o) :
    Inv rn ((deleteObj s a o).set t { s.thread t with pc := .remove left pos }) := by
  have hsized := h.sized t
  simp only [Thread.Sized, hpc] at hsized
  have hi : ((deleteObj s a o).set t { s.thread t with pc := .remove left pos }).indices = s.indices := by
    rw [State.indices, State.set, total_update_of_eq, State.indices]
    · rfl
    · simp only [Thread.indices, deleteObj, hpc]
  have ho : a ::ₘ ((deleteObj s a o).set t { s.thread t with pc := .remove left pos }).objects =
      s.objects := by
    have hmine : (s.thread t).objects =
        a ::ₘ ({ s.thread t with pc := .remove left pos } : Thread).objects := by
      simp only [Thread.objects, hpc]
      rfl
    rw [State.objects, State.objects, ← Multiset.add_cons]
    exact congrArg _ (cons_total_update hmine)
  have hnodup := h.objects
  rw [← ho, Multiset.nodup_cons] at hnodup
  exact {
    indices := by
      rw [hi]
      exact h.indices
    nodup := hi ▸ h.nodup
    objects := hnodup.2
    heap := by
      intro b
      have hb := h.heap b
      rw [← ho, Multiset.mem_cons] at hb
      simp only [State.set, deleteObj]
      by_cases hba : b = a
      · subst hba
        rw [Function.update_self]
        simp only [ne_eq, not_true, false_iff]
        exact hnodup.1
      · rw [Function.update_of_ne hba, hb]
        simp [hba]
        rfl
    alive := by
      intro b p hp
      simp only [State.set, deleteObj] at hp
      by_cases hba : b = a
      · subst hba
        rw [Function.update_self] at hp
        cases hp
      · rw [Function.update_of_ne hba] at hp
        exact h.alive b p hp
    counter := by
      have hcount := h.counter
      rw [← ho, Multiset.card_cons] at hcount
      simp only [State.set, deleteObj] at hcount ⊢
      omega
    sized := h.sized_update (y := { s.thread t with pc := .remove left pos }) rfl hsized
    got := got_update (t := t) h.got rfl (fun _ _ _ _ _ _ _ hin => hin) (by simp)
    sound := by
      have halive := h.alive a o hobj
      simp only [State.set, deleteObj, h.sound, Bool.false_or, decide_eq_false_iff_not]
      omega }

theorem Inv.exists_get (h : Inv rn s) {index : ℕ} (hin : index ∈ (s.thread t).indices) :
    ∃ a, S.get s.ps index = some a ∧ (index, a) ∈ S.contents s.ps := by
  have hkey : index ∈ (S.contents s.ps).map Prod.fst := by
    rw [h.indices, State.indices, mem_total]
    exact ⟨t, hin⟩
  obtain ⟨⟨i, a⟩, hpair, rfl⟩ := Multiset.mem_map.mp hkey
  exact ⟨a, S.get_eq (h.indices ▸ h.nodup) hpair, hpair⟩

theorem Inv.head (h : Inv rn s) {fresh : ℕ} (hpc : (s.thread t).pc = .head)
    (hs : step rn s (t, fresh) = some s') : Inv rn s' := by
  have hsized := h.sized t
  simp only [step, hpc] at hs
  simp only [Thread.Sized, hpc] at hsized
  obtain ⟨hle, hprevious⟩ := hsized
  split at hs
  · next hnone =>
      cases hs
      have hend : (s.thread t).j = (rn t).length := le_antisymm hle (List.getElem?_eq_none_iff.mp hnone)
      exact h.move rfl rfl rfl rfl rfl (by simp only [Thread.indices, hpc])
        (by simp only [Thread.objects, hpc]) ⟨hend, hprevious⟩ (by simp)
  · next r hr =>
      split_ifs at hs with hgrow
      · cases hs
        exact h.move rfl rfl rfl rfl rfl (by simp only [Thread.indices, hpc])
          (by simp only [Thread.objects, hpc]) ⟨r, hr, Nat.add_sub_cancel' (le_of_lt hgrow)⟩ (by simp)
      · cases hs
        exact h.move rfl rfl rfl rfl rfl (by simp only [Thread.indices, hpc])
          (by simp only [Thread.objects, hpc])
          ⟨r, hr, (Nat.add_sub_cancel' (not_lt.mp hgrow)).symm⟩ (by simp)

theorem Inv.grow (h : Inv rn s) {fresh left : ℕ} (hpc : (s.thread t).pc = .grow left)
    (hs : step rn s (t, fresh) = some s') : Inv rn s' := by
  have hsized := h.sized t
  simp only [Thread.Sized, hpc] at hsized
  cases left with
  | zero =>
      simp only [step, hpc, Option.some.injEq] at hs
      subst hs
      exact h.move rfl rfl rfl rfl rfl (by simp only [Thread.indices, hpc])
        (by simp only [Thread.objects, hpc]) hsized (by simp)
  | succ left =>
      simp only [step, hpc] at hs
      split_ifs at hs with hfresh
      cases hs
      exact h.new hpc hfresh rfl rfl rfl rfl rfl

theorem Inv.pushBack (h : Inv rn s) {fresh left index : ℕ} (hpc : (s.thread t).pc = .pushBack left index)
    (hs : step rn s (t, fresh) = some s') : Inv rn s' := by
  have hsized := h.sized t
  simp only [step, hpc, Option.some.injEq] at hs
  subst hs
  simp only [Thread.Sized, hpc] at hsized
  obtain ⟨r, hr, hlen⟩ := hsized
  refine h.move rfl rfl rfl rfl rfl ?_ (by simp only [Thread.objects, hpc]) ⟨r, hr, ?_⟩ (by simp)
  · simp only [Thread.indices, hpc]
    rw [Multiset.cons_coe, Multiset.coe_eq_coe]
    exact List.perm_append_singleton index _
  · rw [List.length_append, List.length_singleton]
    dsimp only
    omega

theorem Inv.shrink (h : Inv rn s) {fresh left : ℕ} (hpc : (s.thread t).pc = .shrink left)
    (hs : step rn s (t, fresh) = some s') : Inv rn s' := by
  have hsized := h.sized t
  simp only [Thread.Sized, hpc] at hsized
  cases left with
  | zero =>
      simp only [step, hpc, Option.some.injEq] at hs
      subst hs
      exact h.move rfl rfl rfl rfl rfl (by simp only [Thread.indices, hpc])
        (by simp only [Thread.objects, hpc]) hsized (by simp)
  | succ left =>
      obtain ⟨r, hr, hlen⟩ := hsized
      have hlt : ramp (s.thread t).j % (s.thread t).positions.length < (s.thread t).positions.length := by
        apply Nat.mod_lt
        omega
      simp only [step, hpc, List.getElem?_eq_getElem hlt, Option.some.injEq] at hs
      subst hs
      exact h.move rfl rfl rfl rfl rfl (by simp only [Thread.indices, hpc])
        (by simp only [Thread.objects, hpc]) ⟨⟨r, hr, hlen⟩, List.getElem?_eq_getElem hlt⟩ (by simp)

theorem Inv.get (h : Inv rn s) {fresh left pos index : ℕ} (hpc : (s.thread t).pc = .get left pos index)
    (hs : step rn s (t, fresh) = some s') : Inv rn s' := by
  have hsized := h.sized t
  simp only [Thread.Sized, hpc] at hsized
  have hin : index ∈ (s.thread t).indices := by
    simp only [Thread.indices, hpc]
    exact List.mem_of_getElem? hsized.2
  obtain ⟨a, ha, hpair⟩ := h.exists_get hin
  simp only [step, hpc, ha, Option.some.injEq] at hs
  subst hs
  refine h.move rfl rfl rfl rfl rfl (by simp only [Thread.indices, hpc])
    (by simp only [Thread.objects, hpc]) hsized ?_
  rintro _ _ _ _ ⟨⟩
  exact hpair

theorem Inv.remove (h : Inv rn s) {fresh left pos : ℕ} (hpc : (s.thread t).pc = .remove left pos)
    (hs : step rn s (t, fresh) = some s') : Inv rn s' := by
  have hsized := h.sized t
  simp only [step, hpc, Option.some.injEq] at hs
  subst hs
  simp only [Thread.Sized, hpc] at hsized
  obtain ⟨⟨r, hr, hlen⟩, hlt⟩ := hsized
  refine h.move rfl rfl rfl rfl rfl (by simp only [Thread.indices, hpc])
    (by simp only [Thread.objects, hpc]) ⟨r, hr, ?_⟩ (by simp)
  rw [List.length_eraseIdx_of_lt hlt]
  dsimp only
  omega

theorem Inv.check (h : Inv rn s) {fresh : ℕ} (hpc : (s.thread t).pc = .check)
    (hs : step rn s (t, fresh) = some s') : Inv rn s' := by
  have hsized := h.sized t
  simp only [Thread.Sized, hpc] at hsized
  obtain ⟨r, hr, hlen⟩ := hsized
  simp only [step, hpc, hr, Option.some.injEq] at hs
  subst hs
  refine h.move rfl rfl rfl (by simp [State.set, hlen]) rfl (by simp only [Thread.indices, hpc])
    (by simp only [Thread.objects, hpc]) ⟨?_, ?_⟩ (by simp)
  · exact Nat.succ_le_of_lt (List.getElem?_eq_some_iff.mp hr).1
  · intro j r' hj hr'
    obtain rfl : (s.thread t).j = j := Nat.succ.inj hj
    rw [hr] at hr'
    cases hr'
    exact hlen

theorem step_inv (h : Inv rn s) {label : Fin threads × ℕ}
    (hs : step rn s label = some s') : Inv rn s' := by
  obtain ⟨t, fresh⟩ := label
  cases hpc : (s.thread t).pc with
  | done => simp [step, hpc] at hs
  | head => exact h.head hpc hs
  | grow left => exact h.grow hpc hs
  | insert left a =>
      simp only [step, hpc, Option.some.injEq] at hs
      subst hs
      exact h.insert hpc rfl rfl rfl rfl rfl
  | pushBack left index => exact h.pushBack hpc hs
  | shrink left => exact h.shrink hpc hs
  | get left pos index => exact h.get hpc hs
  | erase left pos index a =>
      simp only [step, hpc, Option.some.injEq] at hs
      subst hs
      exact h.erase hpc rfl rfl rfl rfl rfl
  | delete left pos a =>
      have hin : a ∈ (s.thread t).objects := by
        simp only [Thread.objects, hpc, Multiset.mem_singleton]
      obtain ⟨o, ho, -⟩ := h.alive_of_objects hin
      simp only [step, hpc, ho, Option.some.injEq] at hs
      subst hs
      exact h.delete hpc ho
  | remove left pos => exact h.remove hpc hs
  | check => exact h.check hpc hs

/-- In every order of the steps, and wherever new objects are put: no ASSERT fails, no
index is used that is not in use, no object is used after it was deleted, and no two
positions have the same index. -/
theorem threads_keep_apart (S : Storage ℕ) (threads : ℕ) (rn : Fin threads → List ℕ)
    (labels : List (Fin threads × ℕ)) {s : State S threads}
    (hrun : run (step rn) initial labels = some s) :
    s.failed = false ∧ ∀ t, (s.thread t).indices.Nodup ∧
      ∀ u, u ≠ t → Disjoint (s.thread t).indices (s.thread u).indices := by
  have h : Inv rn s :=
    invariant (I := Inv rn) (fun _ _ _ hu hs => step_inv hu hs) (inv_initial rn) hrun
  refine ⟨h.sound, fun t => ⟨?_, ?_⟩⟩
  · exact Multiset.nodup_of_le (share_le_total _ _ t) h.nodup
  · intro u hut
    rw [Multiset.disjoint_left]
    intro index ht hu
    exact hut (owner_unique h.nodup hu ht)

/-! ### Every thread comes to its end -/

def stepsFrom (j size : ℕ) : List ℕ → ℕ
  | [] => 1
  | r :: rn =>
      3 + 5 * (target r j - size) + 5 * (size - target r j) + stepsFrom (j + 1) (target r j) rn

def stepsBehind (rn : List ℕ) (j : ℕ) : ℕ :=
  match rn[j]? with
  | some r => stepsFrom (j + 1) (target r j) (rn.drop (j + 1))
  | none => 0

def Thread.ahead (rn : List ℕ) (x : Thread) : ℕ :=
  match x.pc with
  | .head => stepsFrom x.j x.positions.length (rn.drop x.j)
  | .grow left => 3 * left + 2 + stepsBehind rn x.j
  | .insert left _ => 3 * left + 4 + stepsBehind rn x.j
  | .pushBack left _ => 3 * left + 3 + stepsBehind rn x.j
  | .shrink left => 5 * left + 2 + stepsBehind rn x.j
  | .get left _ _ => 5 * left + 6 + stepsBehind rn x.j
  | .erase left _ _ _ => 5 * left + 5 + stepsBehind rn x.j
  | .delete left _ _ => 5 * left + 4 + stepsBehind rn x.j
  | .remove left _ => 5 * left + 3 + stepsBehind rn x.j
  | .check => 1 + stepsBehind rn x.j
  | .done => 0

def State.ahead (rn : Fin threads → List ℕ) (s : State S threads) : ℕ :=
  ∑ t, (s.thread t).ahead (rn t)

theorem ahead_lt_of_update (hthread : s'.thread = Function.update s.thread t y)
    (hless : y.ahead (rn t) < (s.thread t).ahead (rn t)) : s'.ahead rn < s.ahead rn := by
  unfold State.ahead
  rw [hthread]
  exact sum_update_lt (fun u (x : Thread) => x.ahead (rn u)) hless

theorem ahead_step (h : Inv rn s) {label : Fin threads × ℕ} (hs : step rn s label = some s') :
    s'.ahead rn < s.ahead rn := by
  obtain ⟨t, fresh⟩ := label
  have hsized := h.sized t
  cases hpc : (s.thread t).pc with
  | done => simp [step, hpc] at hs
  | head =>
      simp only [step, hpc] at hs
      split at hs
      · next hnone =>
          cases hs
          refine ahead_lt_of_update rfl ?_
          simp only [Thread.ahead, hpc]
          rw [List.drop_eq_nil_iff.mpr (List.getElem?_eq_none_iff.mp hnone), stepsFrom]
          omega
      · next r hr =>
          obtain ⟨hlt, hget⟩ := List.getElem?_eq_some_iff.mp hr
          have hdrop : (rn t).drop (s.thread t).j = r :: (rn t).drop ((s.thread t).j + 1) := by
            rw [List.drop_eq_getElem_cons hlt, hget]
          split_ifs at hs with hgrow <;> cases hs <;> refine ahead_lt_of_update rfl ?_ <;>
            simp only [Thread.ahead, hpc, stepsBehind, hr, hdrop, stepsFrom] <;> omega
  | grow left =>
      cases left with
      | zero =>
          simp only [step, hpc, Option.some.injEq] at hs
          subst hs
          refine ahead_lt_of_update rfl ?_
          simp only [Thread.ahead, hpc]
          omega
      | succ left =>
          simp only [step, hpc] at hs
          split_ifs at hs with hfresh
          cases hs
          refine ahead_lt_of_update rfl ?_
          simp only [Thread.ahead, hpc]
          omega
  | shrink left =>
      cases left with
      | zero =>
          simp only [step, hpc, Option.some.injEq] at hs
          subst hs
          refine ahead_lt_of_update rfl ?_
          simp only [Thread.ahead, hpc]
          omega
      | succ left =>
          simp only [step, hpc] at hs
          split at hs <;> cases hs <;> refine ahead_lt_of_update rfl ?_ <;>
            simp only [Thread.ahead, hpc] <;> omega
  | get left pos index =>
      simp only [step, hpc] at hs
      split at hs <;> cases hs <;> refine ahead_lt_of_update rfl ?_ <;>
        simp only [Thread.ahead, hpc] <;> omega
  | delete left pos a =>
      simp only [step, hpc] at hs
      split at hs <;> cases hs <;> refine ahead_lt_of_update rfl ?_ <;>
        simp only [Thread.ahead, hpc] <;> omega
  | check =>
      simp only [Thread.Sized, hpc] at hsized
      obtain ⟨r, hr, hlen⟩ := hsized
      simp only [step, hpc, hr, Option.some.injEq] at hs
      subst hs
      refine ahead_lt_of_update rfl ?_
      simp only [Thread.ahead, hpc, stepsBehind, hr, hlen]
      omega
  | insert left a | pushBack left index | erase left pos index a | remove left pos =>
      simp only [step, hpc, Option.some.injEq] at hs
      subst hs
      refine ahead_lt_of_update rfl ?_
      simp only [Thread.ahead, hpc]
      omega

/-- Nothing holds a thread up: there always is another address for `new`. -/
theorem exists_step (h : Inv rn s) (ht : (s.thread t).pc ≠ .done) :
    ∃ label s', step rn s label = some s' := by
  obtain ⟨fresh, hfresh⟩ := Infinite.exists_notMem_finset s.objects.toFinset
  rw [Multiset.mem_toFinset, ← h.heap, not_not] at hfresh
  refine ⟨(t, fresh), ?_⟩
  cases hpc : (s.thread t).pc with
  | done => exact absurd hpc ht
  | head =>
      simp only [step, hpc]
      split
      · exact ⟨_, rfl⟩
      · split_ifs <;> exact ⟨_, rfl⟩
  | grow left =>
      cases left with
      | zero =>
          simp only [step, hpc]
          exact ⟨_, rfl⟩
      | succ left =>
          simp only [step, hpc, hfresh, if_true]
          exact ⟨_, rfl⟩
  | shrink left =>
      cases left with
      | zero =>
          simp only [step, hpc]
          exact ⟨_, rfl⟩
      | succ left =>
          simp only [step, hpc]
          split <;> exact ⟨_, rfl⟩
  | get left pos index | delete left pos a | check =>
      simp only [step, hpc]
      split <;> exact ⟨_, rfl⟩
  | insert left a | pushBack left index | erase left pos index a | remove left pos =>
      simp only [step, hpc]
      exact ⟨_, rfl⟩

/-- What main() finds when it has joined the threads: `counter`, the sizes of the lists of
positions and the number of objects that `for_each` visits are the same, the storage has
all objects, and each list has the size that the last random number of its thread asks for. -/
structure Joined (rn : Fin threads → List ℕ) (s : State S threads) : Prop where
  done : ∀ t, (s.thread t).pc = .done
  total_eq : s.counter = ((∑ t, (s.thread t).positions.length : ℕ) : ℤ)
  count_eq : s.counter = (S.contents s.ps).card
  objects : ∀ a, s.heap a ≠ none ↔ a ∈ (S.contents s.ps).map Prod.snd
  sizes : ∀ t j r, (rn t).length = j + 1 → (rn t)[j]? = some r →
    (s.thread t).positions.length = target r j
  not_empty : ∀ t, rn t ≠ [] → (∀ r ∈ rn t, 1 ≤ r) → S.contents s.ps ≠ 0

theorem Inv.joined (h : Inv rn s) (hdone : ∀ t, (s.thread t).pc = .done) : Joined rn s := by
  have hhands : total Thread.objects s.thread = 0 := by
    apply Finset.sum_eq_zero
    intro t _
    simp only [Thread.objects, hdone t]
  have hobjects : s.objects = (S.contents s.ps).map Prod.snd := by
    rw [State.objects, hhands, add_zero]
  have hcount : s.counter = (S.contents s.ps).card := by
    rw [h.counter, hobjects, Multiset.card_map]
  have hsizes : ∀ t j r, (rn t).length = j + 1 → (rn t)[j]? = some r →
      (s.thread t).positions.length = target r j := by
    intro t j r hj hr
    have hsized := h.sized t
    simp only [Thread.Sized, hdone t] at hsized
    exact hsized.2 j r (hsized.1.trans hj) hr
  refine ⟨hdone, ?_, hcount, ?_, hsizes, ?_⟩
  · have hcard : s.indices.card = ∑ t, (s.thread t).positions.length := by
      rw [State.indices, total, Multiset.card_sum]
      apply Finset.sum_congr rfl
      intro t _
      simp only [Thread.indices, hdone t]
      rfl
    rw [hcount, ← hcard, ← h.indices, Multiset.card_map]
  · intro a
    rw [h.heap a, hobjects]
  · intro t hne hpos hempty
    obtain ⟨j, hj⟩ : ∃ j, (rn t).length = j + 1 :=
      Nat.exists_eq_succ_of_ne_zero (mt List.length_eq_zero_iff.mp hne)
    have hlt : j < (rn t).length := by omega
    have hsize := hsizes t j _ hj (List.getElem?_eq_getElem hlt)
    have hone := hpos _ (List.getElem_mem hlt)
    have hindices : (s.thread t).indices = 0 := by
      have hall : s.indices = 0 := by
        rw [← h.indices, hempty]
        rfl
      rw [← nonpos_iff_eq_zero, ← hall]
      exact share_le_total _ _ t
    simp only [Thread.indices, hdone t, Multiset.coe_eq_zero] at hindices
    rw [hindices, target, List.length_nil] at hsize
    omega

/-- In every order of the steps the threads come to their end, and main() does not find
anything wrong then. -/
theorem threads_complete (S : Storage ℕ) (threads : ℕ) (rn : Fin threads → List ℕ) :
    Completes (step rn) (Joined rn) (initial : State S threads) := by
  refine completes (I := Inv rn) (fun _ _ _ hu hs => step_inv hu hs)
    (fun _ _ _ hu hs => ahead_step hu hs) ?_ (inv_initial rn)
  intro s h hnot
  by_contra hno
  apply hnot
  apply h.joined
  intro t
  by_contra ht
  exact hno (exists_step h ht)

end Steps

/-! ### A storage -/

def beyond (c : List (ℕ × ℕ)) : ℕ := c.foldr (fun e m => max (e.1 + 1) m) 0

theorem lt_beyond {c : List (ℕ × ℕ)} {e : ℕ × ℕ} (he : e ∈ c) : e.1 < beyond c := by
  induction c with
  | nil => cases he
  | cons d c ih =>
      simp only [beyond, List.foldr_cons, lt_max_iff] at ih ⊢
      rcases List.mem_cons.mp he with rfl | he
      · exact .inl (Nat.lt_succ_self _)
      · exact .inr (ih he)

def Storage.pairs : Storage ℕ where
  Carrier := List (ℕ × ℕ)
  empty := []
  insert c a := ((beyond c, a) :: c, beyond c)
  get c i := (c.find? fun e => e.1 = i).map Prod.snd
  erase c i := c.eraseP fun e => e.1 = i
  contents c := c
  contents_empty := rfl
  contents_insert _ _ := rfl
  insert_fresh c a := by
    intro hin
    rw [Multiset.map_coe, Multiset.mem_coe] at hin
    obtain ⟨e, he, heq⟩ := List.mem_map.mp hin
    exact absurd heq (ne_of_lt (lt_beyond he))
  get_eq := by
    intro c i a hnodup hin
    rw [Multiset.map_coe, Multiset.coe_nodup] at hnodup
    cases hfind : c.find? fun e => decide (e.1 = i) with
    | none => simpa using List.find?_eq_none.mp hfind _ hin
    | some e =>
        have hkey : e.1 = i := by simpa using List.find?_some hfind
        have heq := List.inj_on_of_nodup_map hnodup (List.mem_of_find?_eq_some hfind) hin hkey
        rw [heq]
        rfl
  contents_erase := by
    intro c i a hnodup hin
    rw [Multiset.map_coe, Multiset.coe_nodup] at hnodup
    obtain ⟨e, front, back, -, hkey, hc, herase⟩ :=
      List.exists_of_eraseP (p := fun e : ℕ × ℕ => decide (e.1 = i)) hin (by simp)
    have heq : e = (i, a) := by
      apply List.inj_on_of_nodup_map hnodup ?_ hin (by simpa using hkey)
      rw [hc]
      simp
    rw [herase, hc, heq, Multiset.cons_coe, Multiset.coe_eq_coe]
    exact List.perm_middle

/-- Two threads, of which the first one puts three objects in and takes one of them out
again, while the second one is at work. -/
theorem threads_keep_apart_two :
    let rn : Fin 2 → List ℕ := fun t => if t = 0 then [3, 1] else [1]
    let labels := List.map (fun n => (0, n)) (List.range 5) ++ [(1, 20), (1, 21), (1, 22)] ++
      List.map (fun n => (0, n + 5)) (List.range 13)
    ∃ s : State Storage.pairs 2, run (step rn) initial labels = some s ∧ s.failed = false ∧
      (s.thread 0).positions = [0, 3] ∧ (s.thread 1).pc = .pushBack 0 1 ∧
      Disjoint (s.thread 0).indices (s.thread 1).indices := by
  intro rn labels
  have hpositions : (run (step rn) (initial : State Storage.pairs 2) labels).map
      (fun s => ((s.thread 0).positions, (s.thread 1).pc)) = some ([0, 3], .pushBack 0 1) := by decide
  obtain ⟨s, hrun, hs⟩ := Option.map_eq_some_iff.mp hpositions
  obtain ⟨hsound, hapart⟩ := threads_keep_apart Storage.pairs 2 rn labels hrun
  exact ⟨s, hrun, hsound, congrArg Prod.fst hs, congrArg Prod.snd hs, (hapart 0).2 1 (by decide)⟩

end PointerStorage
