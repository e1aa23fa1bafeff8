import TaskSuite.Completion
import Mathlib.Algebra.Order.Ring.Int
import Mathlib.Data.List.Nodup

/-! The callbacks of `timer_thread.cxx`. A timer that expires adds tasks to a queue of the
thread pool, as far as there is room, and then notifies the pool once for each of them,
while the pool takes tasks out of the queue. -/
namespace TimerThread
open Machine

structure Callback (κ : Type) where
  nr : ℕ
  queueHandle : κ

/-- The places in `callback()`; `added` is `added_tasks`. -/
inductive Pc where
  /-- The timer has not expired yet. -/
  | idle
  /-- `producer_access()` -/
  | access
  /-- `queue_access.length()` -/
  | length
  | moveIn (i added : ℕ)
  /-- the destructor of `queue_access` -/
  | release (added : ℕ)
  /-- `notify_one()` -/
  | notify (i added : ℕ)
  | done (added : ℕ)
  deriving DecidableEq, Repr

/-- A task is known by the callback that added it and its number there. `overflow` is set
by a `move_in` into a queue that is full. -/
structure State (κ ι : Type) where
  producer : κ → Option ι
  queue : κ → List (ι × ℕ)
  executed : κ → List (ι × ℕ)
  notified : κ → ℕ
  overflow : Bool
  pc : ι → Pc

inductive Label (κ ι : Type) where
  | expire (i : ι)
  | callback (i : ι)
  /-- A thread of the pool takes the next task. -/
  | execute (q : κ)

variable {κ ι : Type}

def initial : State κ ι :=
  ⟨fun _ => none, fun _ => [], fun _ => [], fun _ => 0, false, fun _ => .idle⟩

section Steps
variable [DecidableEq κ] [DecidableEq ι] (size : ℕ) (callbacks : ι → Callback κ)

def State.set (s : State κ ι) (i : ι) (x : Pc) : State κ ι := { s with pc := Function.update s.pc i x }

/-- `length` is what `queue_access.length()` returns. -/
def addedTasks (nr length : ℕ) : ℕ := if length < size then min (size - length) (10 * (nr + 1)) else 0

def stepCallback (s : State κ ι) (i : ι) : Option (State κ ι) :=
  let q := (callbacks i).queueHandle
  match s.pc i with
  | .idle | .done _ => none
  | .access =>
      if s.producer q = none then
        some ({ s with producer := Function.update s.producer q (some i) }.set i .length)
      else none
  | .length => some (s.set i (.moveIn 0 (addedTasks size (callbacks i).nr (s.queue q).length)))
  | .moveIn n added =>
      if n < added then
        some ({ s with
          queue := Function.update s.queue q (s.queue q ++ [(i, n)])
          overflow := s.overflow || decide (size ≤ (s.queue q).length) }.set i (.moveIn (n + 1) added))
      else some (s.set i (.release added))
  | .release added =>
      some ({ s with producer := Function.update s.producer q none }.set i (.notify 0 added))
  | .notify n added =>
      if n < added then
        some ({ s with notified := Function.update s.notified q (s.notified q + 1) }.set i
          (.notify (n + 1) added))
      else some (s.set i (.done added))

/-- Nothing can be taken out of a full queue while a producer has access to it. -/
def stepExecute (s : State κ ι) (q : κ) : Option (State κ ι) :=
  match s.queue q with
  | [] => none
  | task :: tasks =>
      if (s.queue q).length < size ∨ s.producer q = none then
        some { s with
          queue := Function.update s.queue q tasks
          executed := Function.update s.executed q (s.executed q ++ [task]) }
      else none

def step (s : State κ ι) : Label κ ι → Option (State κ ι)
  | .expire i => if s.pc i = .idle then some (s.set i .access) else none
  | .callback i => stepCallback size callbacks s i
  | .execute q => stepExecute size s q

end Steps

/-! ### What the callbacks have done -/

def Pc.accessing : Pc → Bool
  | .length | .moveIn _ _ | .release _ => true
  | _ => false

/-- The callback has got access to its queue, now or before. -/
def Pc.entered : Pc → Bool
  | .idle | .access => false
  | _ => true

def Pc.moved : Pc → ℕ
  | .moveIn n _ => n
  | .release added | .notify _ added | .done added => added
  | .idle | .access | .length => 0

def Pc.posted : Pc → ℕ
  | .notify n _ => n
  | .done added => added
  | _ => 0

/-- What the loops of the callback are limited to. -/
def Pc.Sound (size : ℕ) (callback : Callback κ) : Pc → Prop
  | .moveIn n added | .notify n added => n ≤ added ∧ added ≤ min size (10 * (callback.nr + 1))
  | .release added | .done added => added ≤ min size (10 * (callback.nr + 1))
  | .idle | .access | .length => True

def batch (i : ι) (n : ℕ) : List (ι × ℕ) := (List.range n).map fun k => (i, k)

/-- `order` has the callbacks that got access to the queue, one after the other. What has
been in the queue are their tasks in that order, those of one callback together. -/
structure Served (callbacks : ι → Callback κ) (s : State κ ι) (q : κ) (order : List ι) : Prop where
  nodup : order.Nodup
  mem : ∀ i, i ∈ order ↔ (callbacks i).queueHandle = q ∧ (s.pc i).entered = true
  last : ∀ i, s.producer q = some i → order.getLast? = some i
  tasks : s.executed q ++ s.queue q = order.flatMap fun i => batch i (s.pc i).moved
  notified : s.notified q = (order.map fun i => (s.pc i).posted).sum

structure Inv (size : ℕ) (callbacks : ι → Callback κ) (s : State κ ι) : Prop where
  holds : ∀ q i, s.producer q = some i ↔ (callbacks i).queueHandle = q ∧ (s.pc i).accessing = true
  pcs : ∀ i, (s.pc i).Sound size (callbacks i)
  bounded : ∀ q, (s.queue q).length ≤ size
  room : ∀ i n added, s.pc i = .moveIn n added →
    (s.queue (callbacks i).queueHandle).length + (added - n) ≤ size
  sound : s.overflow = false
  served : ∀ q, ∃ order, Served callbacks s q order

section Invariant
variable {size : ℕ} {callbacks : ι → Callback κ} {s s' : State κ ι} {q : κ} {i : ι} {x : Pc} {order : List ι}

theorem inv_initial (size : ℕ) (callbacks : ι → Callback κ) : Inv size callbacks initial where
  holds q i := by simp [initial, Pc.accessing]
  pcs _ := trivial
  bounded _ := Nat.zero_le size
  room i n added h := by cases h
  sound := rfl
  served q := ⟨[], List.nodup_nil, by simp [initial, Pc.entered], by simp [initial], rfl, rfl⟩

theorem batch_succ (i : ι) (n : ℕ) : batch i (n + 1) = batch i n ++ [(i, n)] := by
  simp [batch, List.range_succ]

theorem addedTasks_le (size nr length : ℕ) : addedTasks size nr length ≤ min size (10 * (nr + 1)) := by
  unfold addedTasks
  split_ifs <;> omega

theorem add_addedTasks_le {length : ℕ} (nr : ℕ) (h : length ≤ size) :
    length + addedTasks size nr length ≤ size := by
  unfold addedTasks
  split_ifs <;> omega

theorem Served.keep (h : Served callbacks s q order)
    (hentered : ∀ j, (callbacks j).queueHandle = q → (s'.pc j).entered = (s.pc j).entered)
    (hmoved : ∀ j, (callbacks j).queueHandle = q → (s'.pc j).moved = (s.pc j).moved)
    (hposted : ∀ j, (callbacks j).queueHandle = q → (s'.pc j).posted = (s.pc j).posted)
    (hproducer : ∀ j, s'.producer q = some j → s.producer q = some j)
    (htasks : s'.executed q ++ s'.queue q = s.executed q ++ s.queue q)
    (hnotified : s'.notified q = s.notified q) : Served callbacks s' q order where
  nodup := h.nodup
  mem := by
    intro j
    rw [h.mem j]
    constructor
    · rintro ⟨hj, hthere⟩
      exact ⟨hj, (hentered j hj).trans hthere⟩
    · rintro ⟨hj, hthere⟩
      exact ⟨hj, (hentered j hj).symm.trans hthere⟩
  last := fun j hj => h.last j (hproducer j hj)
  tasks := by
    rw [htasks, h.tasks]
    apply List.flatMap_congr
    intro j hj
    rw [hmoved j ((h.mem j).mp hj).1]
  notified := by
    rw [hnotified, h.notified]
    congr 1
    apply List.map_congr_left
    intro j hj
    rw [hposted j ((h.mem j).mp hj).1]

theorem Inv.producer_of_moveIn (h : Inv size callbacks s) {j : ι} {n added : ℕ}
    (hj : s.pc j = .moveIn n added) :
    s.producer (callbacks j).queueHandle = some j := by
  rw [h.holds]
  refine ⟨rfl, ?_⟩
  rw [hj]
  rfl

variable [DecidableEq ι]

/-- A step of a callback as it is seen from a queue that it has nothing to do with. -/
theorem Served.other (h : Served callbacks s q order) (hq : (callbacks i).queueHandle ≠ q)
    (hpc : s'.pc = Function.update s.pc i x) (hproducer : s'.producer q = s.producer q)
    (hqueue : s'.queue q = s.queue q) (hexecuted : s'.executed q = s.executed q)
    (hnotified : s'.notified q = s.notified q) : Served callbacks s' q order := by
  have hsame : ∀ j, (callbacks j).queueHandle = q → s'.pc j = s.pc j := by
    intro j hj
    have hji : j ≠ i := by
      rintro rfl
      exact hq hj
    rw [hpc, Function.update_of_ne hji]
  refine h.keep ?_ ?_ ?_ ?_ ?_ hnotified
  · exact fun j hj => by rw [hsame j hj]
  · exact fun j hj => by rw [hsame j hj]
  · exact fun j hj => by rw [hsame j hj]
  · exact fun j hj => by rw [← hproducer, hj]
  · rw [hqueue, hexecuted]

theorem Inv.pcs_update (h : Inv size callbacks s) (hsound : x.Sound size (callbacks i)) (j : ι) :
    (Function.update s.pc i x j).Sound size (callbacks j) := by
  by_cases hj : j = i
  · subst hj
    rwa [Function.update_self]
  · rw [Function.update_of_ne hj]
    exact h.pcs j

theorem Inv.holds_update (h : Inv size callbacks s) (haccessing : x.accessing = (s.pc i).accessing)
    (q : κ) (j : ι) : s.producer q = some j ↔
      (callbacks j).queueHandle = q ∧ (Function.update s.pc i x j).accessing = true := by
  by_cases hj : j = i
  · subst hj
    rw [Function.update_self, haccessing]
    exact h.holds q j
  · rw [Function.update_of_ne hj]
    exact h.holds q j

theorem Inv.move (h : Inv size callbacks s) (hentered : x.entered = (s.pc i).entered)
    (haccessing : x.accessing = (s.pc i).accessing) (hmoved : x.moved = (s.pc i).moved)
    (hposted : x.posted = (s.pc i).posted) (hsound : x.Sound size (callbacks i))
    (hroom : ∀ n added, x = .moveIn n added →
      (s.queue (callbacks i).queueHandle).length + (added - n) ≤ size) : Inv size callbacks (s.set i x) where
  holds := h.holds_update haccessing
  pcs := h.pcs_update hsound
  bounded := h.bounded
  room := by
    intro j n added hpc
    by_cases hj : j = i
    · subst hj
      simp only [State.set, Function.update_self] at hpc
      exact hroom n added hpc
    · simp only [State.set, Function.update_of_ne hj] at hpc
      exact h.room j n added hpc
  sound := h.sound
  served := by
    intro q
    obtain ⟨order, horder⟩ := h.served q
    have hsame : ∀ {β : Type} (f : Pc → β), f x = f (s.pc i) → ∀ j, f ((s.set i x).pc j) = f (s.pc j) := by
      intro β f hf j
      by_cases hj : j = i
      · subst hj
        simpa only [State.set, Function.update_self] using hf
      · simp only [State.set, Function.update_of_ne hj]
    exact ⟨order, horder.keep (fun j _ => hsame Pc.entered hentered j) (fun j _ => hsame Pc.moved hmoved j)
      (fun j _ => hsame Pc.posted hposted j) (fun _ hj => hj) rfl rfl⟩

variable [DecidableEq κ]

theorem Inv.access (h : Inv size callbacks s) (hpc : s.pc i = .access)
    (hfree : s.producer (callbacks i).queueHandle = none) :
    Inv size callbacks ({ s with
      producer := Function.update s.producer (callbacks i).queueHandle (some i) }.set i .length) where
  holds := by
    intro q j
    by_cases hj : j = i
    · subst hj
      by_cases hq : q = (callbacks j).queueHandle
      · subst hq
        simp [State.set, Pc.accessing]
      · have hnot := h.holds q j
        rw [hpc] at hnot
        simp [State.set, hq, Ne.symm hq, hnot]
    · by_cases hq : q = (callbacks i).queueHandle
      · subst hq
        have hnot := h.holds (callbacks i).queueHandle j
        rw [hfree] at hnot
        simp only [State.set, Function.update_self, Function.update_of_ne hj, Option.some.injEq, ← hnot,
          reduceCtorEq, iff_false]
        exact Ne.symm hj
      · simp only [State.set, Function.update_of_ne hq, Function.update_of_ne hj]
        exact h.holds q j
  pcs := h.pcs_update trivial
  bounded := h.bounded
  room := by
    intro j n added hj
    by_cases hji : j = i
    · subst hji
      simp [State.set] at hj
    · simp only [State.set, Function.update_of_ne hji] at hj
      exact h.room j n added hj
  sound := h.sound
  served := by
    intro q
    obtain ⟨order, horder⟩ := h.served q
    by_cases hq : (callbacks i).queueHandle = q
    · subst hq
      have hnew : i ∉ order := by
        rw [horder.mem, hpc]
        rintro ⟨-, hentered⟩
        cases hentered
      have hsame : ∀ j ∈ order, Function.update s.pc i .length j = s.pc j := by
        intro j hj
        apply Function.update_of_ne
        rintro rfl
        exact hnew hj
      refine ⟨order ++ [i], List.nodup_append.mpr ⟨horder.nodup, List.nodup_singleton i, ?_⟩, ?_, ?_, ?_, ?_⟩
      · rintro j hj k hk rfl
        rw [List.mem_singleton.mp hk] at hj
        exact hnew hj
      · intro j
        rw [List.mem_append, List.mem_singleton, horder.mem]
        by_cases hj : j = i
        · subst hj
          simp [State.set, Pc.entered]
        · simp [State.set, hj]
      · intro j hj
        simp only [State.set, Function.update_self, Option.some.injEq] at hj
        rw [hj, List.getLast?_concat]
      · change s.executed _ ++ s.queue _ = _
        rw [List.flatMap_append, horder.tasks]
        simp only [State.set, List.flatMap_singleton, Function.update_self, Pc.moved, batch, List.range_zero,
          List.map_nil, List.append_nil]
        exact List.flatMap_congr fun j hj => by rw [hsame j hj]
      · change s.notified _ = _
        rw [List.map_append, List.sum_append, horder.notified]
        simp only [State.set, List.map_cons, List.map_nil, Function.update_self, Pc.posted, List.sum_cons,
          List.sum_nil, Nat.add_zero]
        congr 1
        exact List.map_congr_left fun j hj => by rw [hsame j hj]
    · exact ⟨order, horder.other hq rfl (Function.update_of_ne (Ne.symm hq) _ _) rfl rfl rfl⟩

/-- The producer puts one more task behind the others. -/
theorem Inv.push (h : Inv size callbacks s) {n added : ℕ} (hpc : s.pc i = .moveIn n added)
    (hmore : n < added) :
    Inv size callbacks ({ s with
      queue := Function.update s.queue (callbacks i).queueHandle
        (s.queue (callbacks i).queueHandle ++ [(i, n)])
      overflow := s.overflow || decide (size ≤ (s.queue (callbacks i).queueHandle).length)
      }.set i (.moveIn (n + 1) added)) where
  holds := h.holds_update (by rw [hpc]; rfl)
  pcs := by
    apply h.pcs_update
    have hi := h.pcs i
    rw [hpc] at hi
    exact ⟨hmore, hi.2⟩
  bounded := by
    intro q
    have hroom := h.room i n added hpc
    by_cases hq : q = (callbacks i).queueHandle
    · subst hq
      simp only [State.set, Function.update_self, List.length_append, List.length_singleton]
      omega
    · simpa only [State.set, Function.update_of_ne hq] using h.bounded q
  room := by
    intro j k more hj
    by_cases hji : j = i
    · subst hji
      have hroom := h.room j n added hpc
      simp only [State.set, Function.update_self, Pc.moveIn.injEq] at hj ⊢
      obtain ⟨rfl, rfl⟩ := hj
      rw [List.length_append, List.length_singleton]
      omega
    · simp only [State.set, Function.update_of_ne hji] at hj ⊢
      -- Another producer cannot be in the same queue.
      have hq : (callbacks j).queueHandle ≠ (callbacks i).queueHandle := by
        intro hq
        have hother := h.producer_of_moveIn hj
        rw [hq, h.producer_of_moveIn hpc] at hother
        exact hji (Option.some.inj hother).symm
      rw [Function.update_of_ne hq]
      exact h.room j k more hj
  sound := by
    have hroom := h.room i n added hpc
    have hfits : ¬ size ≤ (s.queue (callbacks i).queueHandle).length := by omega
    simp [State.set, h.sound, hfits]
  served := by
    intro q
    obtain ⟨order, horder⟩ := h.served q
    by_cases hq : (callbacks i).queueHandle = q
    · subst hq
      obtain ⟨front, rfl⟩ := List.getLast?_eq_some_iff.mp (horder.last i (h.producer_of_moveIn hpc))
      have hnew : i ∉ front := by
        intro hi
        exact (List.nodup_append.mp horder.nodup).2.2 i hi i List.mem_cons_self rfl
      have hsame : ∀ j ∈ front, Function.update s.pc i (.moveIn (n + 1) added) j = s.pc j := by
        intro j hj
        apply Function.update_of_ne
        rintro rfl
        exact hnew hj
      refine ⟨front ++ [i], horder.nodup, ?_, horder.last, ?_, ?_⟩
      · intro j
        rw [horder.mem]
        by_cases hj : j = i
        · subst hj
          simp [State.set, hpc, Pc.entered]
        · simp [State.set, hj]
      · have htasks := horder.tasks
        simp only [List.flatMap_append, List.flatMap_singleton, hpc, Pc.moved] at htasks
        simp only [State.set, Function.update_self, List.flatMap_append, List.flatMap_singleton, Pc.moved, batch_succ]
        rw [← List.append_assoc, htasks, List.append_assoc]
        congr 1
        exact List.flatMap_congr fun j hj => by rw [hsame j hj]
      · have hnotified := horder.notified
        simp only [List.map_append, List.map_cons, List.map_nil, hpc, Pc.posted] at hnotified
        simp only [State.set, List.map_append, List.map_cons, List.map_nil, Function.update_self, Pc.posted]
        rw [hnotified]
        congr 2
        exact List.map_congr_left fun j hj => by rw [hsame j hj]
    · exact ⟨order, horder.other hq rfl rfl (Function.update_of_ne (Ne.symm hq) _ _) rfl rfl⟩

theorem Inv.release (h : Inv size callbacks s) {added : ℕ} (hpc : s.pc i = .release added) :
    Inv size callbacks ({ s with
      producer := Function.update s.producer (callbacks i).queueHandle none }.set i (.notify 0 added)) where
  holds := by
    have hmine : s.producer (callbacks i).queueHandle = some i := by
      rw [h.holds, hpc]
      exact ⟨rfl, rfl⟩
    intro q j
    by_cases hq : q = (callbacks i).queueHandle
    · subst hq
      simp only [State.set, Function.update_self, reduceCtorEq, false_iff, not_and]
      intro hj
      by_cases hji : j = i
      · subst hji
        simp [Pc.accessing]
      · rw [Function.update_of_ne hji]
        intro haccessing
        have hother := (h.holds _ j).mpr ⟨hj, haccessing⟩
        rw [hmine] at hother
        exact hji (Option.some.inj hother).symm
    · simp only [State.set, Function.update_of_ne hq]
      rw [h.holds q j]
      by_cases hji : j = i
      · subst hji
        simp [Ne.symm hq]
      · simp only [Function.update_of_ne hji]
  pcs := by
    apply h.pcs_update
    have hi := h.pcs i
    rw [hpc] at hi
    exact ⟨Nat.zero_le added, hi⟩
  bounded := h.bounded
  room := by
    intro j k more hj
    by_cases hji : j = i
    · subst hji
      simp [State.set] at hj
    · simp only [State.set, Function.update_of_ne hji] at hj
      exact h.room j k more hj
  sound := h.sound
  served := by
    intro q
    obtain ⟨order, horder⟩ := h.served q
    by_cases hq : (callbacks i).queueHandle = q
    · subst hq
      have hsame : ∀ {β : Type} (f : Pc → β), f (.notify 0 added) = f (.release added) →
          ∀ j, f (Function.update s.pc i (.notify 0 added) j) = f (s.pc j) := by
        intro β f hf j
        by_cases hj : j = i
        · subst hj
          rw [Function.update_self, hf, hpc]
        · rw [Function.update_of_ne hj]
      refine ⟨order, horder.keep (fun j _ => hsame Pc.entered rfl j) (fun j _ => hsame Pc.moved rfl j)
        (fun j _ => hsame Pc.posted rfl j) ?_ rfl rfl⟩
      intro j hj
      simp [State.set] at hj
    · exact ⟨order, horder.other hq rfl (Function.update_of_ne (Ne.symm hq) _ _) rfl rfl rfl⟩

theorem Inv.post (h : Inv size callbacks s) {n added : ℕ} (hpc : s.pc i = .notify n added)
    (hmore : n < added) :
    Inv size callbacks ({ s with
      notified := Function.update s.notified (callbacks i).queueHandle
        (s.notified (callbacks i).queueHandle + 1) }.set i (.notify (n + 1) added)) where
  holds := h.holds_update (by rw [hpc]; rfl)
  pcs := by
    apply h.pcs_update
    have hi := h.pcs i
    rw [hpc] at hi
    exact ⟨hmore, hi.2⟩
  bounded := h.bounded
  room := by
    intro j k more hj
    by_cases hji : j = i
    · subst hji
      simp [State.set] at hj
    · simp only [State.set, Function.update_of_ne hji] at hj
      exact h.room j k more hj
  sound := h.sound
  served := by
    intro q
    obtain ⟨order, horder⟩ := h.served q
    by_cases hq : (callbacks i).queueHandle = q
    · subst hq
      have hi : i ∈ order := by
        rw [horder.mem, hpc]
        exact ⟨rfl, rfl⟩
      obtain ⟨front, rest, rfl⟩ := List.append_of_mem hi
      have hsame : ∀ j, j ∈ front ∨ j ∈ rest → Function.update s.pc i (.notify (n + 1) added) j = s.pc j := by
        have hnodup := (List.nodup_middle.mp horder.nodup)
        rw [List.nodup_cons, List.mem_append] at hnodup
        intro j hj
        apply Function.update_of_ne
        rintro rfl
        exact hnodup.1 hj
      refine ⟨front ++ i :: rest, horder.nodup, ?_, horder.last, ?_, ?_⟩
      · intro j
        rw [horder.mem]
        by_cases hj : j = i
        · subst hj
          simp [State.set, hpc, Pc.entered]
        · simp [State.set, hj]
      · change s.executed _ ++ s.queue _ = _
        rw [horder.tasks]
        apply List.flatMap_congr
        intro j _
        by_cases hj : j = i
        · subst hj
          simp [State.set, hpc, Pc.moved]
        · simp [State.set, hj]
      · have hfront : (front.map fun j => (Function.update s.pc i (.notify (n + 1) added) j).posted) =
            front.map fun j => (s.pc j).posted :=
          List.map_congr_left fun j hj => by rw [hsame j (.inl hj)]
        have hrest : (rest.map fun j => (Function.update s.pc i (.notify (n + 1) added) j).posted) =
            rest.map fun j => (s.pc j).posted :=
          List.map_congr_left fun j hj => by rw [hsame j (.inr hj)]
        have hone : ((front ++ i :: rest).map fun j =>
              (Function.update s.pc i (.notify (n + 1) added) j).posted).sum =
            ((front ++ i :: rest).map fun j => (s.pc j).posted).sum + 1 := by
          rw [List.map_append, List.map_append, List.map_cons, List.map_cons, hfront, hrest,
            Function.update_self, hpc]
          simp only [List.sum_append, List.sum_cons, Pc.posted]
          omega
        change Function.update _ _ _ _ = _
        rw [Function.update_self, horder.notified]
        exact hone.symm
    · exact ⟨order, horder.other hq rfl rfl rfl rfl (Function.update_of_ne (Ne.symm hq) _ _)⟩

omit [DecidableEq ι] in
theorem Inv.execute (h : Inv size callbacks s) {task : ι × ℕ} {tasks : List (ι × ℕ)}
    (hqueue : s.queue q = task :: tasks) :
    Inv size callbacks { s with
      queue := Function.update s.queue q tasks
      executed := Function.update s.executed q (s.executed q ++ [task]) } where
  holds := h.holds
  pcs := h.pcs
  bounded := by
    intro q'
    have hle := h.bounded q'
    by_cases hq : q' = q
    · subst hq
      rw [hqueue, List.length_cons] at hle
      dsimp only
      rw [Function.update_self]
      omega
    · simpa only [Function.update_of_ne hq] using hle
  room := by
    intro j n added hj
    have hroom := h.room j n added hj
    by_cases hq : (callbacks j).queueHandle = q
    · rw [hq, hqueue, List.length_cons] at hroom
      dsimp only
      rw [hq, Function.update_self]
      omega
    · dsimp only
      rw [Function.update_of_ne hq]
      exact hroom
  sound := h.sound
  served := by
    intro q'
    obtain ⟨order, horder⟩ := h.served q'
    refine ⟨order, horder.keep (fun _ _ => rfl) (fun _ _ => rfl) (fun _ _ => rfl) (fun _ hj => hj) ?_ rfl⟩
    by_cases hq : q' = q
    · subst hq
      simp [hqueue]
    · simp [hq]

theorem stepCallback_inv (h : Inv size callbacks s) (hs : stepCallback size callbacks s i = some s') :
    Inv size callbacks s' := by
  have hi := h.pcs i
  cases hpc : s.pc i with
  | idle | done added => simp [stepCallback, hpc] at hs
  | access =>
      simp only [stepCallback, hpc] at hs
      split_ifs at hs with hfree
      cases hs
      exact h.access hpc hfree
  | length =>
      simp only [stepCallback, hpc, Option.some.injEq] at hs
      subst hs
      refine h.move (by rw [hpc]; rfl) (by rw [hpc]; rfl) (by rw [hpc]; rfl) (by rw [hpc]; rfl)
        ⟨Nat.zero_le _, addedTasks_le _ _ _⟩ ?_
      intro n added heq
      cases heq
      exact add_addedTasks_le _ (h.bounded _)
  | moveIn n added =>
      rw [hpc] at hi
      simp only [stepCallback, hpc] at hs
      split_ifs at hs with hmore
      · cases hs
        exact h.push hpc hmore
      · cases hs
        have hall : added = n := le_antisymm (not_lt.mp hmore) hi.1
        exact h.move (by rw [hpc]; rfl) (by rw [hpc]; rfl) (by rw [hpc]; exact hall) (by rw [hpc]; rfl) hi.2
          (fun _ _ heq => by cases heq)
  | release added =>
      simp only [stepCallback, hpc, Option.some.injEq] at hs
      subst hs
      exact h.release hpc
  | notify n added =>
      rw [hpc] at hi
      simp only [stepCallback, hpc] at hs
      split_ifs at hs with hmore
      · cases hs
        exact h.post hpc hmore
      · cases hs
        have hall : added = n := le_antisymm (not_lt.mp hmore) hi.1
        exact h.move (by rw [hpc]; rfl) (by rw [hpc]; rfl) (by rw [hpc]; rfl) (by rw [hpc]; exact hall) hi.2
          (fun _ _ heq => by cases heq)

theorem step_inv (h : Inv size callbacks s) {a : Label κ ι} (hs : step size callbacks s a = some s') :
    Inv size callbacks s' := by
  cases a with
  | expire i =>
      simp only [step] at hs
      split_ifs at hs with hidle
      cases hs
      exact h.move (by rw [hidle]; rfl) (by rw [hidle]; rfl) (by rw [hidle]; rfl) (by rw [hidle]; rfl) trivial
        (fun _ _ heq => by cases heq)
  | callback i => exact stepCallback_inv h hs
  | execute q =>
      simp only [step, stepExecute] at hs
      split at hs
      next => cases hs
      next task tasks hqueue =>
        split_ifs at hs
        cases hs
        exact h.execute hqueue

end Invariant

/-! ### Whole runs -/

/-- The steps that a callback still has to do, at most. -/
def Pc.left (nr : ℕ) : Pc → ℕ
  | .idle => 2 * (10 * (nr + 1)) + 6
  | .access => 2 * (10 * (nr + 1)) + 5
  | .length => 2 * (10 * (nr + 1)) + 4
  | .moveIn n added => added - n + added + 3
  | .release added => added + 2
  | .notify n added => added - n + 1
  | .done _ => 0

/-- How it ends: every task that was added has been executed, those of one callback
together and in order, and for each of them the pool was notified. -/
structure Ended (callbacks : ι → Callback κ) (s : State κ ι) : Prop where
  done : ∀ i, ∃ added, s.pc i = .done added
  empty : ∀ q, s.queue q = []
  served : ∀ q, ∃ order : List ι, order.Nodup ∧ (∀ i, i ∈ order ↔ (callbacks i).queueHandle = q) ∧
    s.executed q = order.flatMap fun i => batch i (s.pc i).moved
  notified : ∀ q, s.notified q = (s.executed q).length

section Runs
variable {size : ℕ} {callbacks : ι → Callback κ} {s s' : State κ ι} {i : ι}

theorem Inv.ended (h : Inv size callbacks s) (hdone : ∀ i, ∃ added, s.pc i = .done added)
    (hempty : ∀ q, s.queue q = []) : Ended callbacks s := by
  have hserved : ∀ q, ∃ order, Served callbacks s q order ∧
      s.executed q = order.flatMap fun i => batch i (s.pc i).moved := by
    intro q
    obtain ⟨order, horder⟩ := h.served q
    have htasks := horder.tasks
    rw [hempty q, List.append_nil] at htasks
    exact ⟨order, horder, htasks⟩
  refine ⟨hdone, hempty, ?_, ?_⟩
  · intro q
    obtain ⟨order, horder, htasks⟩ := hserved q
    refine ⟨order, horder.nodup, ?_, htasks⟩
    intro i
    obtain ⟨added, hi⟩ := hdone i
    rw [horder.mem, hi]
    exact and_iff_left rfl
  · intro q
    obtain ⟨order, horder, htasks⟩ := hserved q
    rw [horder.notified, htasks, List.length_flatMap]
    congr 1
    apply List.map_congr_left
    intro i _
    obtain ⟨added, hi⟩ := hdone i
    simp [hi, batch, Pc.posted, Pc.moved]

theorem Inv.sum_length_le [Fintype κ] (h : Inv size callbacks s) :
    ∑ q, (s.queue q).length ≤ Fintype.card κ * size := by
  have hsum : ∑ q, (s.queue q).length ≤ ∑ _q : κ, size := Finset.sum_le_sum fun q _ => h.bounded q
  rwa [Finset.sum_const_nat fun _ _ => rfl, Finset.card_univ] at hsum

variable [DecidableEq κ] [DecidableEq ι]

theorem stepCallback_left (h : Inv size callbacks s) (hs : stepCallback size callbacks s i = some s') :
    ∃ x, s'.pc = Function.update s.pc i x ∧ x.left (callbacks i).nr < (s.pc i).left (callbacks i).nr := by
  have hi := h.pcs i
  cases hpc : s.pc i with
  | idle | done added => simp [stepCallback, hpc] at hs
  | access =>
      simp only [stepCallback, hpc] at hs
      split_ifs at hs
      cases hs
      refine ⟨_, rfl, ?_⟩
      simp only [Pc.left]
      omega
  | length =>
      have hle := addedTasks_le size (callbacks i).nr (s.queue (callbacks i).queueHandle).length
      simp only [stepCallback, hpc, Option.some.injEq] at hs
      subst hs
      refine ⟨_, rfl, ?_⟩
      simp only [Pc.left]
      omega
  | moveIn n added =>
      rw [hpc] at hi
      have hle := hi.1
      simp only [stepCallback, hpc] at hs
      split_ifs at hs with hmore
      · cases hs
        refine ⟨_, rfl, ?_⟩
        simp only [Pc.left]
        omega
      · cases hs
        refine ⟨_, rfl, ?_⟩
        simp only [Pc.left]
        omega
  | release added =>
      simp only [stepCallback, hpc, Option.some.injEq] at hs
      subst hs
      refine ⟨_, rfl, ?_⟩
      simp only [Pc.left]
      omega
  | notify n added =>
      simp only [stepCallback, hpc] at hs
      split_ifs at hs with hmore
      · cases hs
        refine ⟨_, rfl, ?_⟩
        simp only [Pc.left]
        omega
      · cases hs
        refine ⟨_, rfl, ?_⟩
        simp only [Pc.left]
        omega

variable [Fintype κ] [Fintype ι]

/-- The steps of the callbacks, and then the tasks in the queues. -/
def State.measure (size : ℕ) (callbacks : ι → Callback κ) (s : State κ ι) : ℕ :=
  (Fintype.card κ * size + 1) * (∑ i, (s.pc i).left (callbacks i).nr) + ∑ q, (s.queue q).length

theorem step_measure (h : Inv size callbacks s) {a : Label κ ι} (hs : step size callbacks s a = some s') :
    s'.measure size callbacks < s.measure size callbacks := by
  apply two_measures_lt (step_inv h hs).sum_length_le
  cases a with
  | expire i =>
      simp only [step] at hs
      split_ifs at hs with hidle
      cases hs
      left
      apply sum_update_lt (fun k (x : Pc) => x.left (callbacks k).nr)
      simp only [hidle, Pc.left]
      omega
  | callback i =>
      obtain ⟨x, hpc, hless⟩ := stepCallback_left h hs
      left
      rw [hpc]
      exact sum_update_lt (fun k (x : Pc) => x.left (callbacks k).nr) hless
  | execute q =>
      simp only [step, stepExecute] at hs
      split at hs
      next => cases hs
      next task tasks hqueue =>
        split_ifs at hs
        cases hs
        right
        refine ⟨rfl, ?_⟩
        apply sum_update_lt fun _ (x : List (ι × ℕ)) => x.length
        rw [hqueue]
        exact Nat.lt_succ_self _

omit [Fintype κ] [Fintype ι] in
/-- Only a callback that waits for access to a queue has no step, and then the one that has
the access can go on. -/
theorem Inv.exists_callback (h : Inv size callbacks s) (hi : ∀ added, s.pc i ≠ .done added) :
    ∃ a s', step size callbacks s a = some s' := by
  have hmove : ∀ j, (s.pc j).accessing = true → ∃ a s', step size callbacks s a = some s' := by
    intro j hj
    refine ⟨.callback j, ?_⟩
    cases hpc : s.pc j with
    | idle | access | notify n added | done added =>
        rw [hpc] at hj
        cases hj
    | length | release added =>
        simp only [step, stepCallback, hpc]
        exact ⟨_, rfl⟩
    | moveIn n added =>
        simp only [step, stepCallback, hpc]
        split_ifs <;> exact ⟨_, rfl⟩
  cases hpc : s.pc i with
  | idle => exact ⟨.expire i, _, if_pos hpc⟩
  | access =>
      cases hproducer : s.producer (callbacks i).queueHandle with
      | none =>
          refine ⟨.callback i, ?_⟩
          simp only [step, stepCallback, hpc, if_pos hproducer]
          exact ⟨_, rfl⟩
      | some j => exact hmove j ((h.holds _ j).mp hproducer).2
  | length | moveIn n added | release added => exact hmove i (by rw [hpc]; rfl)
  | notify n added =>
      refine ⟨.callback i, ?_⟩
      simp only [step, stepCallback, hpc]
      split_ifs <;> exact ⟨_, rfl⟩
  | done added => exact absurd hpc (hi added)

omit [Fintype κ] [Fintype ι] in
theorem exists_step (h : Inv size callbacks s) (hended : ¬ Ended callbacks s) :
    ∃ a s', step size callbacks s a = some s' := by
  by_cases hdone : ∀ i, ∃ added, s.pc i = .done added
  · have hfree : ∀ q, s.producer q = none := by
      intro q
      rw [Option.eq_none_iff_forall_ne_some]
      intro i hi
      obtain ⟨added, hpc⟩ := hdone i
      have haccessing := ((h.holds q i).mp hi).2
      rw [hpc] at haccessing
      cases haccessing
    obtain ⟨q, hq⟩ : ∃ q, s.queue q ≠ [] := by
      by_contra hnone
      simp only [not_exists, not_not] at hnone
      exact hended (h.ended hdone hnone)
    obtain ⟨task, tasks, hqueue⟩ := List.exists_cons_of_ne_nil hq
    refine ⟨.execute q, ?_⟩
    simp only [step, stepExecute, hqueue, if_pos (Or.inr (hfree q))]
    exact ⟨_, rfl⟩
  · simp only [not_forall, not_exists] at hdone
    obtain ⟨i, hi⟩ := hdone
    exact h.exists_callback hi

end Runs

end TimerThread
