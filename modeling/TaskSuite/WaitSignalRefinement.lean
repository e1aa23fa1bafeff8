import TaskSuite.Machine
import TaskSuite.WaitSignalCounters

/-! What the counters are for: a task that waits for a mask sleeps until every
required condition in it has been signalled, and one of its normal conditions
if it has any. The specification only looks at what was signalled and waited
for since the last reset point. -/
namespace WaitSignal.Refinement
open Machine

/-- The signals and the wait since the last reset point. -/
structure History where
  signalled : Finset Index
  waited : Option Mask

def History.start : History := ⟨∅, none⟩

def required (m : Finset Index) : Finset Index := m.filter fun i => isRequired i = true

def normal (m : Finset Index) : Finset Index := m.filter fun i => isRequired i = false

/-- The AND/OR wake-up condition. -/
def Satisfied (m u : Finset Index) : Prop :=
  required m ⊆ u ∧ (normal m = ∅ ∨ (normal m ∩ u).Nonempty)

def needed (m u : Finset Index) : Finset Index :=
  required m \ u ∪ if normal m ∩ u = ∅ then normal m else ∅

def wokenUp (t : Task) (mask : Nat) : Bool := ((t.signalEdge mask).map Prod.snd).getD false

/-- The history after an operation that led from `s` to `s'`. The reset points
are a signal that yields `woken_up` and a wait that leaves the task running. -/
def History.record (h : History) (s s' : Sim) : Operation → History
  | .signal m =>
      if wokenUp s.task m then .start else { h with signalled := h.signalled ∪ bits m }
  | .wait m => if s'.running then .start else { h with waited := some m }

/-- A sequence of operations, with its history beside it. -/
def step (p : Sim × History) (op : Operation) : Option (Sim × History) :=
  (p.1.step op).map fun s' => (s', p.2.record p.1 s' op)

section Needed
variable {m u t : Finset Index} {i : Index}

@[simp] theorem mem_required : i ∈ required m ↔ i ∈ m ∧ isRequired i = true := by simp [required]

@[simp] theorem mem_normal : i ∈ normal m ↔ i ∈ m ∧ isRequired i = false := by simp [normal]

theorem needed_eq_empty : needed m u = ∅ ↔ Satisfied m u := by
  unfold needed Satisfied
  rw [Finset.union_eq_empty, Finset.sdiff_eq_empty_iff_subset]
  refine and_congr_right fun _ => ?_
  rw [Finset.nonempty_iff_ne_empty]
  by_cases hu : normal m ∩ u = ∅
  · simp [hu]
  · simp [hu]

theorem mem_needed_of_none (h : normal m ∩ u = ∅) : i ∈ needed m u ↔ i ∈ m ∧ i ∉ u := by
  have hout : i ∈ m → isRequired i = false → i ∉ u := by
    intro hm hn hu
    exact Finset.notMem_empty i (h ▸ Finset.mem_inter.mpr ⟨mem_normal.mpr ⟨hm, hn⟩, hu⟩)
  simp only [needed, if_pos h, Finset.mem_union, Finset.mem_sdiff, mem_required, mem_normal]
  cases hr : isRequired i with
  | true => simp
  | false =>
      simp only [Bool.false_eq_true, and_false, false_and, and_true, false_or]
      exact ⟨fun hm => ⟨hm, hout hm hr⟩, And.left⟩

theorem mem_needed_of_some (h : normal m ∩ u ≠ ∅) :
    i ∈ needed m u ↔ (i ∈ m ∧ isRequired i = true) ∧ i ∉ u := by
  simp [needed, h]

theorem mem_needed_union_required (hreq : ∀ i ∈ t, isRequired i = true) :
    i ∈ needed m (u ∪ t) ↔ i ∈ needed m u ∧ i ∉ t := by
  have hsame : normal m ∩ (u ∪ t) = normal m ∩ u := by
    ext j
    simp only [Finset.mem_inter, Finset.mem_union, mem_normal]
    refine and_congr_right fun hj => or_iff_left fun hjt => ?_
    rw [hreq j hjt] at hj
    exact Bool.noConfusion hj.2
  by_cases hu : normal m ∩ u = ∅
  · rw [mem_needed_of_none (hsame.trans hu), mem_needed_of_none hu]
    simp [and_assoc]
  · rw [mem_needed_of_some (by rwa [hsame]), mem_needed_of_some hu]
    simp [and_assoc]

theorem mem_needed_union_normal (ht : t ⊆ needed m u) (hn : ∃ i ∈ t, isRequired i = false) :
    i ∈ needed m (u ∪ t) ↔ isRequired i = true ∧ i ∈ needed m u ∧ i ∉ t := by
  obtain ⟨k, hk, hkn⟩ := hn
  have hkm : k ∈ m := by
    have hk' := ht hk
    by_cases hu : normal m ∩ u = ∅
    · exact ((mem_needed_of_none hu).mp hk').1
    · exact ((mem_needed_of_some hu).mp hk').1.1
  have hsome : normal m ∩ (u ∪ t) ≠ ∅ := by
    apply Finset.Nonempty.ne_empty
    exact ⟨k, Finset.mem_inter.mpr ⟨mem_normal.mpr ⟨hkm, hkn⟩, Finset.mem_union_right u hk⟩⟩
  rw [mem_needed_of_some hsome]
  by_cases hu : normal m ∩ u = ∅
  · rw [mem_needed_of_none hu]
    simp only [Finset.mem_union, not_or]
    tauto
  · rw [mem_needed_of_some hu]
    simp only [Finset.mem_union, not_or]
    tauto

end Needed

def IdleOn (t : Task) (n : Finset Index) : Prop := ∀ i, t i = 0 ↔ i ∈ n

theorem IdleOn.hasIdleCounter {t : Task} {n : Finset Index} (h : IdleOn t n) :
    t.hasIdleCounter = true ↔ n ≠ ∅ := by
  rw [Task.hasIdleCounter_iff, ← Finset.nonempty_iff_ne_empty]
  exact exists_congr h

theorem idleOn_reset : IdleOn Task.reset ∅ := fun i => by simp [Task.reset]

theorem IdleOn.resetORCounters {t : Task} {n : Finset Index} (h : IdleOn t n) :
    IdleOn t.resetORCounters (n.filter fun i => isRequired i = true) := by
  intro i
  simp only [Task.resetORCounters, Finset.mem_filter, ← h i]
  cases hr : isRequired i with
  | true => simp
  | false => by_cases h0 : t i = 0 <;> simp [h0]

def Running (t : Task) (u : Finset Index) : Prop := ∀ i, t i = if i ∈ u then 2 else 1

theorem Running.values {t : Task} {u : Finset Index} (h : Running t u) (i : Index) :
    t i = 1 ∨ t i = 2 := by
  rw [h i]
  split_ifs
  · exact .inr rfl
  · exact .inl rfl

theorem Running.not_idle {t : Task} {u : Finset Index} (h : Running t u) :
    t.hasIdleCounter = false := by
  rw [Bool.eq_false_iff, ne_eq, Task.hasIdleCounter_iff]
  rintro ⟨i, hi⟩
  have := h.values i
  omega

theorem Running.signalEdge {t : Task} {u : Finset Index} (h : Running t u) (mask : Nat) :
    ∃ t', t.signalEdge mask = some (t', false) ∧ Running t' (u ∪ bits mask) := by
  refine ⟨fun i => if i ∈ bits mask then 2 else t i, ?_, ?_⟩
  · simp [Task.signalEdge, h.not_idle, Task.signal_of_running t mask h.values]
  · intro i
    simp only [Finset.mem_union, h i]
    by_cases hm : i ∈ bits mask
    · simp [hm]
    · simp [hm]

theorem IdleOn.requiredIsIdle {t : Task} {n : Finset Index} (h : IdleOn t n) :
    t.requiredIsIdle = true ↔ required n ≠ ∅ := by
  rw [Task.requiredIsIdle_iff, ← Finset.nonempty_iff_ne_empty]
  refine exists_congr fun i => ?_
  rw [h i, mem_required, and_comm]

/-- The two ways in which main leaves the counters of an operation that woke a
normal counter up, and the one for an operation that did not. -/
theorem IdleOn.settle {t : Task} {n n' : Finset Index} (h : IdleOn t n) {woke wokenUp : Bool}
    (hup : wokenUp = true → n' = ∅) (hwoke : woke = true → n' = required n)
    (hnot : woke = false → n' = n) :
    IdleOn (if wokenUp then .reset else if woke then t.resetORCounters else t) n' := by
  split_ifs with hu hw
  · rw [hup hu]
    exact idleOn_reset
  · rw [hwoke hw]
    exact h.resetORCounters
  · rw [hnot (by simpa using hw)]
    exact h

/-- A wait idles exactly the counters that are still needed. -/
theorem Running.waitEdge {t : Task} {u : Finset Index} (h : Running t u) (mask : Nat) :
    ∃ p, t.waitEdge mask = some p ∧ IdleOn p.1 (needed (bits mask) u) := by
  obtain ⟨woke, hwait, hwoke⟩ := Task.wait_of_busy t mask fun i _ => by
    have := h.values i
    omega
  have hidle : IdleOn (fun i => if i ∈ bits mask then t i - 1 else t i) (bits mask \ u) := by
    intro i
    simp only [h i, Finset.mem_sdiff]
    by_cases hm : i ∈ bits mask <;> by_cases hu : i ∈ u <;> simp [hm, hu]
  have hsome : woke = true ↔ normal (bits mask) ∩ u ≠ ∅ := by
    rw [hwoke, ← Finset.nonempty_iff_ne_empty]
    refine exists_congr fun i => ?_
    rw [Finset.mem_inter, mem_normal, h i]
    by_cases hu : i ∈ u <;> simp [hu]
  have hreq : woke = true → needed (bits mask) u = required (bits mask \ u) := by
    intro hw
    ext i
    rw [mem_needed_of_some (hsome.mp hw), mem_required, Finset.mem_sdiff]
    tauto
  refine ⟨_, by rw [Task.waitEdge, hwait]; rfl, hidle.settle ?_ hreq ?_⟩
  · intro hup
    obtain ⟨hn, hw⟩ := Bool.and_eq_true_iff.mp hup
    rw [hreq hw]
    by_contra hne
    rw [hidle.requiredIsIdle.mpr hne] at hn
    cases hn
  · intro hw
    have hnone : normal (bits mask) ∩ u = ∅ := by
      by_contra hne
      rw [hsome.mpr hne] at hw
      cases hw
    ext i
    rw [mem_needed_of_none hnone, Finset.mem_sdiff]

/-- A signal while waiting takes its bits off what is needed, and yields
`woken_up` when nothing is needed any more. -/
theorem IdleOn.signalEdge {t : Task} {m u : Finset Index} (h : IdleOn t (needed m u))
    (hne : needed m u ≠ ∅) (mask : Nat) (hsub : bits mask ⊆ needed m u) :
    ∃ p, t.signalEdge mask = some p ∧ IdleOn p.1 (needed m (u ∪ bits mask)) ∧
      (p.2 = true ↔ needed m (u ∪ bits mask) = ∅) := by
  obtain ⟨woke, hsig, hwoke⟩ := Task.signal_of_idle t mask fun i hi => (h i).mpr (hsub hi)
  have hidle : IdleOn (fun i => if i ∈ bits mask then 1 else t i) (needed m u \ bits mask) := by
    intro i
    simp only [Finset.mem_sdiff]
    by_cases hm : i ∈ bits mask
    · simp [hm]
    · simp [hm, h i]
  have hreq : woke = true → needed m (u ∪ bits mask) = required (needed m u \ bits mask) := by
    intro hw
    ext i
    rw [mem_needed_union_normal hsub (hwoke.mp hw), mem_required, Finset.mem_sdiff]
    tauto
  have hnot : woke = false → needed m (u ∪ bits mask) = needed m u \ bits mask := by
    intro hw
    ext i
    rw [mem_needed_union_required, Finset.mem_sdiff]
    intro j hj
    by_contra hr
    rw [hwoke.mpr ⟨j, hj, by simpa using hr⟩] at hw
    cases hw
  have hi := h.hasIdleCounter.mpr hne
  have hup : (true &&
      !Task.requiredIsIdle (fun i => if i ∈ bits mask then 1 else t i) &&
      (woke || !Task.hasIdleCounter fun i => if i ∈ bits mask then 1 else t i)) = true ↔
        needed m (u ∪ bits mask) = ∅ := by
    rw [Bool.true_and, Bool.and_eq_true, Bool.not_eq_true', Bool.eq_false_iff, ne_eq,
      hidle.requiredIsIdle, not_not]
    cases hw : woke with
    | true => simp [hreq hw]
    | false =>
        rw [hnot hw, Bool.false_or, Bool.not_eq_true', Bool.eq_false_iff, ne_eq,
          hidle.hasIdleCounter, not_not]
        constructor
        · exact And.right
        · intro hz
          exact ⟨by rw [hz]; rfl, hz⟩
  refine ⟨_, by rw [Task.signalEdge, hi, hsig]; rfl, hidle.settle ?_ hreq hnot, ?_⟩
  · exact hup.mp
  · exact hup

/-- The simulation relation. Signals before the wait are in the counters; after
it only the idle counters matter, and they are the bits still needed. -/
structure Rel (s : Sim) (h : History) : Prop where
  ternary : s.task.Ternary
  running : s.running = true ↔ h.waited = none
  before : h.waited = none → Running s.task h.signalled
  asleep : ∀ m, h.waited = some m →
    needed (bits m) h.signalled ≠ ∅ ∧ IdleOn s.task (needed (bits m) h.signalled)

theorem rel_start : Rel ⟨.reset, true⟩ .start where
  ternary := Task.reset_ternary
  running := by simp [History.start]
  before _ i := by simp [History.start, Task.reset]
  asleep _ h := by cases h

theorem rel_initial : Rel .initial .start := by
  rw [Sim.initial, Task.setState_forty]
  exact rel_start

theorem Running.ternary {t : Task} {u : Finset Index} (h : Running t u) : t.Ternary := by
  intro i
  have := h.values i
  omega

theorem Rel.signal_running {s : Sim} {h : History} (hr : Rel s h) (hw : h.waited = none) (m : Mask) :
    ∃ s', s.step (.signal m) = some s' ∧ wokenUp s.task m = false ∧
      Rel s' { h with signalled := h.signalled ∪ bits m } := by
  obtain ⟨t', he, ht'⟩ := (hr.before hw).signalEdge m
  refine ⟨⟨t', true⟩, by rw [Sim.step_signal hr.ternary, he]; simp [ht'.not_idle], ?_, ?_⟩
  · simp [wokenUp, he]
  · exact ⟨ht'.ternary, by simp [hw], fun _ => ht', fun k hk => by rw [hw] at hk; cases hk⟩

theorem Rel.wait_running {s : Sim} {h : History} (hr : Rel s h) (hw : h.waited = none) (m : Mask) :
    ∃ s', s.step (.wait m) = some s' ∧
      ((Satisfied (bits m) h.signalled ∧ s'.running = true ∧ Rel s' .start) ∨
        (¬ Satisfied (bits m) h.signalled ∧ s'.running = false ∧ Rel s' { h with waited := some m })) := by
  obtain ⟨p, he, hidle⟩ := (hr.before hw).waitEdge m
  have hstep := Sim.step_wait hr.ternary (hr.running.mpr hw) m
  rw [he, Option.map_some] at hstep
  by_cases hneed : needed (bits m) h.signalled = ∅
  · have hrun : p.1.hasIdleCounter = false := by
      rw [Bool.eq_false_iff, ne_eq, hidle.hasIdleCounter, not_not]
      exact hneed
    rw [hrun] at hstep
    exact ⟨_, hstep, .inl ⟨needed_eq_empty.mp hneed, rfl, rel_start⟩⟩
  · rw [hidle.hasIdleCounter.mpr hneed] at hstep
    refine ⟨_, hstep, .inr ⟨mt needed_eq_empty.mpr hneed, rfl, ?_⟩⟩
    refine ⟨Task.waitEdge_ternary hr.ternary he, by simp, fun hk => (by cases hk), fun k hk => ?_⟩
    cases hk
    exact ⟨hneed, hidle⟩

theorem Rel.signal_waiting {s : Sim} {h : History} (hr : Rel s h) {m : Mask}
    (hw : h.waited = some m) (k : Mask) (hsub : bits k ⊆ needed (bits m) h.signalled) :
    ∃ s', s.step (.signal k) = some s' ∧
      ((Satisfied (bits m) (h.signalled ∪ bits k) ∧ wokenUp s.task k = true ∧ Rel s' .start) ∨
        (¬ Satisfied (bits m) (h.signalled ∪ bits k) ∧ wokenUp s.task k = false ∧
          Rel s' { h with signalled := h.signalled ∪ bits k })) := by
  obtain ⟨hne, hidle⟩ := hr.asleep m hw
  obtain ⟨p, he, hidle', hup⟩ := hidle.signalEdge hne k hsub
  have hstep := Sim.step_signal hr.ternary k
  rw [he, Option.map_some] at hstep
  refine ⟨_, hstep, ?_⟩
  have hwoken : wokenUp s.task k = p.2 := by simp [wokenUp, he]
  rw [hwoken]
  by_cases hneed : needed (bits m) (h.signalled ∪ bits k) = ∅
  · -- The counters were reset, so the task starts over.
    refine .inl ⟨needed_eq_empty.mp hneed, hup.mpr hneed, ?_⟩
    rw [Task.signalEdge_wokenUp he (hup.mpr hneed)]
    exact rel_start
  · refine .inr ⟨mt needed_eq_empty.mpr hneed, Bool.eq_false_iff.mpr (mt hup.mp hneed), ?_⟩
    refine ⟨Task.signalEdge_ternary hr.ternary he, ?_, ?_, ?_⟩
    · simp [hidle'.hasIdleCounter.mpr hneed, hw]
    · intro hnone; rw [hw] at hnone; cases hnone
    · intro j hj
      rw [hw] at hj
      cases hj
      exact ⟨hneed, hidle'⟩

theorem rel_signal_running {s : Sim} {h : History} (hr : Rel s h) (hw : h.waited = none)
    (m : Mask) : ∃ s', s.step (.signal m) = some s' ∧ Rel s' (h.record s s' (.signal m)) := by
  obtain ⟨s', hs, hno, hrel⟩ := hr.signal_running hw m
  exact ⟨s', hs, by simpa only [History.record, hno, Bool.false_eq_true, if_false] using hrel⟩

theorem rel_wait_running {s : Sim} {h : History} (hr : Rel s h) (hw : h.waited = none)
    (m : Mask) : ∃ s', s.step (.wait m) = some s' ∧ Rel s' (h.record s s' (.wait m)) := by
  obtain ⟨s', hs, ⟨-, hrun, hrel⟩ | ⟨-, hrun, hrel⟩⟩ := hr.wait_running hw m
  · exact ⟨s', hs, by simpa only [History.record, hrun, if_true] using hrel⟩
  · exact ⟨s', hs, by simpa only [History.record, hrun, Bool.false_eq_true, if_false] using hrel⟩

theorem rel_signal_waiting {s : Sim} {h : History} (hr : Rel s h) {m : Mask}
    (hw : h.waited = some m) (k : Mask) (hsub : bits k ⊆ needed (bits m) h.signalled) :
    ∃ s', s.step (.signal k) = some s' ∧ Rel s' (h.record s s' (.signal k)) := by
  obtain ⟨s', hs, ⟨-, hup, hrel⟩ | ⟨-, hup, hrel⟩⟩ := hr.signal_waiting hw k hsub
  · exact ⟨s', hs, by simpa only [History.record, hup, if_true] using hrel⟩
  · exact ⟨s', hs, by simpa only [History.record, hup, Bool.false_eq_true, if_false] using hrel⟩

theorem signal_allowed_iff {s : Sim} {h : History} (hr : Rel s h) {m : Mask}
    (hw : h.waited = some m) (k : Mask) :
    (s.step (.signal k)).isSome = true ↔ bits k ⊆ needed (bits m) h.signalled := by
  constructor
  · intro hsome
    by_contra hsub
    obtain ⟨hne, hidle⟩ := hr.asleep m hw
    obtain ⟨i, hi, hout⟩ := Finset.not_subset.mp hsub
    have hrefused := Task.signal_of_not_idle s.task k ⟨i, hi, fun h0 => hout ((hidle i).mp h0)⟩
    rw [Sim.step_signal hr.ternary, Task.signalEdge, hidle.hasIdleCounter.mpr hne, hrefused]
      at hsome
    cases hsome
  · intro hsub
    obtain ⟨s', hs', -⟩ := rel_signal_waiting hr hw k hsub
    rw [hs']
    rfl

/-- One allowed operation keeps the relation. -/
theorem step_rel {p q : Sim × History} {op : Operation} (hr : Rel p.1 p.2)
    (hs : step p op = some q) : Rel q.1 q.2 := by
  obtain ⟨s', hs', rfl⟩ := Option.map_eq_some_iff.mp hs
  -- Each case names a successor in the relation; the step function has only one.
  have finish : (∃ u, p.1.step op = some u ∧ Rel u (p.2.record p.1 u op)) →
      Rel s' (p.2.record p.1 s' op) := by
    rintro ⟨u, hu, hrel⟩
    rw [hs'] at hu
    cases hu
    exact hrel
  cases hw : p.2.waited with
  | none =>
      cases op with
      | wait m => exact finish (rel_wait_running hr hw m)
      | signal m => exact finish (rel_signal_running hr hw m)
  | some m =>
      cases op with
      | wait k =>
          have hoff : p.1.running = false := by
            rw [Bool.eq_false_iff, ne_eq, hr.running, hw]
            exact Option.some_ne_none m
          simp [Sim.step, hoff] at hs'
      | signal k =>
          have hsub := (signal_allowed_iff hr hw k).mp (by rw [hs']; rfl)
          exact finish (rel_signal_waiting hr hw k hsub)

/-- The counters implement the AND/OR condition along every sequence of
allowed operations. -/
theorem counters_refine_condition (ops : List Operation) (s : Sim) (h : History)
    (hrun : run step (.initial, .start) ops = some (s, h)) :
    (s.task.hasIdleCounter = true ↔
      ∃ m, h.waited = some m ∧
        ¬ (required (bits m) ⊆ h.signalled ∧
          (normal (bits m) = ∅ ∨ (normal (bits m) ∩ h.signalled).Nonempty))) ∧
    ∀ m, h.waited = some m → s.task.hasIdleCounter = true →
      ∀ k : Mask, (s.step (.signal k)).isSome = true ↔
        bits k ⊆ required (bits m) \ h.signalled ∪
          if normal (bits m) ∩ h.signalled = ∅ then normal (bits m) else ∅ := by
  have hr : Rel s h := invariant (I := fun p => Rel p.1 p.2) (fun _ _ _ hr hs => step_rel hr hs)
    rel_initial hrun
  refine ⟨?_, fun m hw _ k => signal_allowed_iff hr hw k⟩
  cases hw : h.waited with
  | none => simp [(hr.before hw).not_idle]
  | some m =>
      obtain ⟨hne, hidle⟩ := hr.asleep m hw
      rw [hidle.hasIdleCounter, ne_eq, needed_eq_empty]
      simp [Satisfied]

/-- A signal on normal condition 0 before a wait for it and for required
condition 0: the task goes on waiting, for the required one alone. -/
theorem counters_refine_condition_early_signal :
    ∃ s h, run step (.initial, .start) [.signal ⟨1, by decide⟩, .wait ⟨5, by decide⟩] =
        some (s, h) ∧ h.waited = some ⟨5, by decide⟩ ∧ s.task.hasIdleCounter = true ∧
      ∀ k : Mask, (s.step (.signal k)).isSome = true ↔
        bits k ⊆ required (bits 5) \ h.signalled ∪
          if normal (bits 5) ∩ h.signalled = ∅ then normal (bits 5) else ∅ := by
  have hend : (run step (.initial, .start) [.signal ⟨1, by decide⟩, .wait ⟨5, by decide⟩]).map
      (fun p => (p.2.waited, p.1.task.hasIdleCounter)) =
        some (some ⟨5, by decide⟩, true) := by decide
  obtain ⟨⟨s, h⟩, hrun, hp⟩ := Option.map_eq_some_iff.mp hend
  obtain ⟨hw, hidle⟩ := Prod.mk.inj hp
  exact ⟨s, h, hrun, hw, hidle,
    (counters_refine_condition _ s h hrun).2 ⟨5, by decide⟩ hw hidle⟩

end WaitSignal.Refinement
