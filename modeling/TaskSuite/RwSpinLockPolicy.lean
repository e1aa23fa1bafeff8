import TaskSuite.Tracking
import TaskSuite.RwSpinLockThreads

/-! What the four counters decide, said without counters: a lock that looks at the
roles of all threads. The counter lock makes the same decisions, and refuses the same
requests, until a thread asks for the write lock while blocked converters are the only
holders. -/
namespace RwSpinLock.Threads
open Machine Tally

variable {ι : Type*}

section Policy
variable (role : ι → Role)

/-- Someone writes or waits to write: no new reader gets past it. -/
def WriterAhead : Prop :=
  ∃ j, role j = .writer ∨ role j = .blockedWriter ∨ role j = .blockedConverter

def Held : Prop :=
  ∃ j, role j = .writer ∨ role j = .reader ∨ role j = .blockedConverter

def OtherReader (i : ι) : Prop := ∃ j, j ≠ i ∧ role j = .reader

def Converting : Prop := ∃ j, role j = .blockedConverter

instance [Fintype ι] : Decidable (WriterAhead role) :=
  inferInstanceAs (Decidable (∃ j, role j = .writer ∨ role j = .blockedWriter ∨ _))

instance [Fintype ι] : Decidable (Held role) :=
  inferInstanceAs (Decidable (∃ j, role j = .writer ∨ role j = .reader ∨ _))

instance [Fintype ι] [DecidableEq ι] (i : ι) : Decidable (OtherReader role i) :=
  inferInstanceAs (Decidable (∃ j, j ≠ i ∧ _))

instance [Fintype ι] : Decidable (Converting role) :=
  inferInstanceAs (Decidable (∃ j, role j = .blockedConverter))

/-- The role that the request `t` of thread `i` leads to. A reader is not let in ahead
of a writer, a writer waits for every holder, and of two readers that want to convert
the second one is refused. -/
def grant [Fintype ι] [DecidableEq ι] (i : ι) (t : Transition) : Option Role :=
  match role i, t with
  | .idle, .rdlock => some (if WriterAhead role then .idle else .reader)
  | .idle, .wrlock => some (if Held role then .blockedWriter else .writer)
  | .reader, .rdunlock => some .idle
  | .reader, .rd2wrlock =>
      if Converting role then none
      else some (if OtherReader role i then .blockedConverter else .writer)
  | .writer, .wrunlock => some .idle
  | .writer, .wr2rdlock => some .reader
  | _, _ => none

end Policy

def policy [Fintype ι] [DecidableEq ι] (role : ι → Role) (a : ι × Transition) : Option (ι → Role) :=
  (grant role a.1 a.2).map (Function.update role a.1)

/-! ### What the counters say about the roles -/

section Counters
variable [Fintype ι] {σ : System ι} (h : Consistent σ)
include h

theorem Consistent.converting_iff : Converting σ.role ↔ 0 < σ.lock.c := by
  constructor
  · rintro ⟨j, hj⟩
    have hmine := weight_le_tally Role.inC_nonneg σ.role j
    rw [hj, ← h.counts.c] at hmine
    exact hmine
  · exact exists_converter h

theorem Consistent.writerAhead_iff : WriterAhead σ.role ↔ 0 < σ.lock.v := by
  have hnonneg : ∀ x : Role, 0 ≤ x.inV := by
    intro x
    cases x <;> decide
  constructor
  · rintro ⟨j, hj⟩
    have hmine := weight_le_tally hnonneg σ.role j
    rw [← h.counts.v] at hmine
    rcases hj with hj | hj | hj <;> rw [hj] at hmine <;> exact hmine
  · intro hv
    by_contra hnone
    have hzero : tally Role.inV σ.role = 0 := by
      apply tally_eq_zero
      intro j
      cases hj : σ.role j with
      | idle | reader => rfl
      | writer => exact absurd ⟨j, .inl hj⟩ hnone
      | blockedWriter => exact absurd ⟨j, .inr (.inl hj)⟩ hnone
      | blockedConverter => exact absurd ⟨j, .inr (.inr hj)⟩ hnone
    rw [h.counts.v] at hv
    omega

theorem Consistent.held_iff : Held σ.role ↔ 0 < σ.lock.w ∨ 0 < σ.lock.r := by
  constructor
  · rintro ⟨j, hj⟩
    have hwrite := weight_le_tally Role.inW_nonneg σ.role j
    have hread := weight_le_tally Role.inR_nonneg σ.role j
    rw [← h.counts.w] at hwrite
    rw [← h.counts.r] at hread
    rcases hj with hj | hj | hj
    · rw [hj] at hwrite
      exact .inl hwrite
    · rw [hj] at hread
      exact .inr hread
    · rw [hj] at hread
      exact .inr hread
  · intro hwr
    by_contra hnone
    have hzero : ∀ j, (σ.role j).inW = 0 ∧ (σ.role j).inR = 0 := by
      intro j
      cases hj : σ.role j with
      | idle | blockedWriter => exact ⟨rfl, rfl⟩
      | writer => exact absurd ⟨j, .inl hj⟩ hnone
      | reader => exact absurd ⟨j, .inr (.inl hj)⟩ hnone
      | blockedConverter => exact absurd ⟨j, .inr (.inr hj)⟩ hnone
    have hw : tally Role.inW σ.role = 0 := tally_eq_zero fun j => (hzero j).1
    have hr : tally Role.inR σ.role = 0 := tally_eq_zero fun j => (hzero j).2
    rw [h.counts.w, h.counts.r] at hwr
    omega

theorem Consistent.otherReader_iff [DecidableEq ι] {i : ι} (hi : σ.role i = .reader) :
    OtherReader σ.role i ↔ σ.lock.c + 1 < σ.lock.r := by
  have hnonneg : ∀ x : Role, 0 ≤ x.inR - x.inC := fun x => sub_nonneg.mpr x.inV_bounds.2.2.1
  have hcount : σ.lock.r - σ.lock.c = tally (fun x => x.inR - x.inC) σ.role := by
    rw [tally_sub, ← h.counts.r, ← h.counts.c]
  constructor
  · rintro ⟨j, hji, hj⟩
    have htwo := two_weights_le_tally hnonneg σ.role hji
    rw [← hcount, hi, hj] at htwo
    simp only [Role.inR, Role.inC] at htwo
    omega
  · intro hlt
    by_contra hnone
    -- With thread `i` out of the way nobody is left to count.
    have hrest : tally (fun x => x.inR - x.inC) (Function.update σ.role i .idle) = 0 := by
      apply tally_eq_zero
      intro j
      by_cases hji : j = i
      · subst hji
        rw [Function.update_self]
        rfl
      · rw [Function.update_of_ne hji]
        cases hj : σ.role j with
        | reader => exact absurd ⟨j, hji, hj⟩ hnone
        | idle | writer | blockedWriter | blockedConverter => rfl
    rw [tally_update, ← hcount, hi] at hrest
    simp only [Role.inR, Role.inC] at hrest
    omega

end Counters

/-! ### The counter lock against the policy -/

variable [Fintype ι] [DecidableEq ι]

def decided (s : State) (t : Transition) : Option Role :=
  (turn t s).map fun p => Role.after t p.1

omit [Fintype ι] in
theorem step_role (σ : System ι) (i : ι) (t : Transition) : (step σ (i, t)).map System.role =
    if (σ.role i).permits t then (decided σ.lock t).map (Function.update σ.role i) else none := by
  unfold step decided
  split
  · simp only [Option.map_map]
    rfl
  · rfl

theorem grant_eq_none {role : ι → Role} {i : ι} {t : Transition}
    (hp : (role i).permits t = false) : grant role i t = none := by
  unfold grant
  cases hr : role i <;> rw [hr] at hp <;> cases t <;> first | rfl | cases hp

section Decisions
variable {σ : System ι} {i : ι} (h : Consistent σ)
include h

theorem rdlock_decided (hi : σ.role i = .idle) :
    decided σ.lock .rdlock = grant σ.role i .rdlock := by
  unfold decided grant
  rw [hi]
  by_cases hv : 0 < σ.lock.v
  · rw [turn_rdlock_blocked h.legal hv, if_pos (h.writerAhead_iff.mpr hv)]
    rfl
  · rw [turn_rdlock_granted h.legal (by omega), if_neg (mt h.writerAhead_iff.mp hv)]
    rfl

/-- `previous.r > c` overlooks the locks that converters keep, which the guard rules out. -/
theorem wrlock_decided (hi : σ.role i = .idle) (hg : ¬ OnlyConvertersHold σ (i, .wrlock)) :
    decided σ.lock .wrlock = grant σ.role i .wrlock := by
  have hcr := h.counter_order.1
  obtain ⟨hw0, hc0, hr0⟩ := h.w_bounds
  unfold decided grant
  rw [hi]
  by_cases hh : σ.lock.c < σ.lock.r ∨ 0 < σ.lock.w
  · have hheld : Held σ.role := h.held_iff.mpr (by omega)
    rw [turn_wrlock_blocked h.legal hh, if_pos hheld]
    rfl
  · have hnone : ¬ 0 < σ.lock.c := fun hc => hg ⟨hi, rfl, hc, by omega⟩
    have hfree : ¬ Held σ.role := by
      rw [h.held_iff]
      omega
    rw [turn_wrlock_granted h.legal (by omega) (by omega), if_neg hfree]
    rfl

theorem rdunlock_decided (hi : σ.role i = .reader) :
    decided σ.lock .rdunlock = grant σ.role i .rdunlock := by
  obtain ⟨hcr, hw⟩ := reader_counts h hi
  have hc0 := h.w_bounds.2.1
  unfold decided grant
  rw [hi, turn_rdunlock h.legal (by omega) hcr]
  rfl

theorem rd2wrlock_decided (hi : σ.role i = .reader) :
    decided σ.lock .rd2wrlock = grant σ.role i .rd2wrlock := by
  obtain ⟨hcr, hw⟩ := reader_counts h hi
  have hc0 := h.w_bounds.2.1
  unfold decided grant
  rw [hi]
  by_cases hc : 0 < σ.lock.c
  · rw [turn_rd2wrlock_throws hc]
    simp only [Option.map_none, if_pos (h.converting_iff.mpr hc)]
  · simp only [if_neg (mt h.converting_iff.mp hc)]
    by_cases hone : σ.lock.c + 1 < σ.lock.r
    · rw [turn_rd2wrlock_blocked h.legal (by omega) hone (by omega),
        if_pos ((h.otherReader_iff hi).mpr hone)]
      rfl
    · rw [turn_rd2wrlock_granted h.legal (by omega) (by omega) (by omega) (by omega),
        if_neg (mt (h.otherReader_iff hi).mp hone)]
      rfl

theorem wrunlock_decided (hi : σ.role i = .writer) :
    decided σ.lock .wrunlock = grant σ.role i .wrunlock := by
  obtain ⟨hw, hr, hc, hv⟩ := writer_counts h hi
  unfold decided grant
  rw [hi, turn_wrunlock h.legal (by omega) (by omega)]
  rfl

theorem wr2rdlock_decided (hi : σ.role i = .writer) :
    decided σ.lock .wr2rdlock = grant σ.role i .wr2rdlock := by
  obtain ⟨hw, hr, hc, hv⟩ := writer_counts h hi
  unfold decided grant
  rw [hi, turn_wr2rdlock h.legal (by omega) (by omega)]
  rfl

/-- One guarded turn does to the roles what the policy does. -/
theorem step_policy {t : Transition} (hg : ¬ OnlyConvertersHold σ (i, t)) :
    (step σ (i, t)).map System.role = policy σ.role (i, t) := by
  rw [step_role]
  unfold policy
  dsimp only
  cases hp : (σ.role i).permits t with
  | false => rw [grant_eq_none hp, if_neg Bool.false_ne_true, Option.map_none]
  | true =>
      rw [if_pos rfl]
      congr 1
      cases hi : σ.role i <;> rw [hi] at hp <;> cases t <;> try cases hp
      · exact rdlock_decided h hi
      · exact wrlock_decided h hi hg
      · exact rdunlock_decided h hi
      · exact rd2wrlock_decided h hi
      · exact wrunlock_decided h hi
      · exact wr2rdlock_decided h hi

/-- The counters grant what the policy does not: the thread becomes a writer, and the
policy makes it wait. -/
theorem step_ne_policy {t : Transition} (hg : OnlyConvertersHold σ (i, t)) :
    (step σ (i, t)).map System.role ≠ policy σ.role (i, t) := by
  obtain ⟨hi, ht, hc, hr⟩ := hg
  dsimp only at hi ht hc hr
  subst ht
  have hw : σ.lock.w = 0 := by
    have hw0 := h.w_bounds
    have hone := h.oneWriter
    have halone := h.writerAlone
    omega
  have hheld : Held σ.role := h.held_iff.mpr (by omega)
  have hwrite : decided σ.lock .wrlock = some .writer := by
    unfold decided
    rw [turn_wrlock_granted h.legal hr hw.le]
    rfl
  have hwait : grant σ.role i .wrlock = some .blockedWriter := by
    unfold grant
    rw [hi]
    simp only [if_pos hheld]
  rw [step_role, hi, hwrite]
  unfold policy
  rw [hwait]
  intro heq
  have hroles := Option.some.inj heq
  have hmine := congrFun hroles i
  rw [Function.update_self, Function.update_self] at hmine
  cases hmine

end Decisions

/-- The counter lock and the lock without counters make the same decisions in the same
run, refused requests included, exactly as long as nobody asks for the write lock while
blocked converters are the only holders. -/
theorem follows_policy_iff (acts : List (ι × Transition)) :
    Tracks step policy System.role (initial : System ι) acts ↔
      Along step (fun σ a => ¬ OnlyConvertersHold σ a) initial acts :=
  tracks_iff_along (I := Consistent) (fun _ _ _ h hg hs => step_consistent h hg hs)
    (fun _ _ h hg => step_policy h hg) (fun _ _ h hg => step_ne_policy h (not_not.mp hg))
    consistent_initial

end RwSpinLock.Threads
