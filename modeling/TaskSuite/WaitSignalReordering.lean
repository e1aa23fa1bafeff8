import TaskSuite.WaitSignalRefinement

/-! The reordering test of `wait_signal_test2.cxx` for sequences of any length:
with at most one wait, whether the task runs in the end only depends on which
operations there were. -/
namespace WaitSignal.Reordering
open Machine Refinement

def isWait : Operation → Bool
  | .wait _ => true
  | .signal _ => false

def signals : Operation → Finset Index
  | .wait _ => ∅
  | .signal m => bits m

def allSignals (ops : List Operation) : Finset Index :=
  Finset.univ.filter fun i => ∃ op ∈ ops, i ∈ signals op

section Signals
variable {ops ops' : List Operation} {m : Mask} {i : Index}

@[simp] theorem mem_allSignals : i ∈ allSignals ops ↔ ∃ op ∈ ops, i ∈ signals op := by
  simp [allSignals]

theorem allSignals_perm (h : ops.Perm ops') : allSignals ops = allSignals ops' := by
  ext i
  simp [h.mem_iff]

theorem allSignals_wait : allSignals (ops ++ [.wait m]) = allSignals ops := by
  ext i
  simp [signals, or_and_right, exists_or]

theorem allSignals_signal : allSignals (ops ++ [.signal m]) = allSignals ops ∪ bits m := by
  ext i
  simp [signals, or_and_right, exists_or]

theorem satisfied_mono {m u v : Finset Index} (h : Satisfied m u) (huv : u ⊆ v) : Satisfied m v :=
  ⟨h.1.trans huv, h.2.imp_right fun hne => hne.mono (Finset.inter_subset_inter_left huv)⟩

end Signals

/-- What the operations that were done so far say about the task. After the
task woke up the counters have been reset, and only the condition is left. -/
def Tracks (s : Sim) (ops : List Operation) : Prop :=
  ∃ h, Rel s h ∧ ((∀ m, .wait m ∉ ops) → h = ⟨allSignals ops, none⟩) ∧
    ∀ m, .wait m ∈ ops →
      h = ⟨allSignals ops, some m⟩ ∨ (h.waited = none ∧ Satisfied (bits m) (allSignals ops))

theorem tracks_initial : Tracks .initial [] := by
  refine ⟨.start, rel_initial, fun _ => ?_, by simp⟩
  simp [History.start, allSignals]

section Step
variable {s s' : Sim} {ops : List Operation}

theorem Tracks.wait {m : Mask} (ht : Tracks s ops) (hfirst : ∀ k, .wait k ∉ ops)
    (hs : s.step (.wait m) = some s') : Tracks s' (ops ++ [.wait m]) := by
  obtain ⟨h, hr, hnone, -⟩ := ht
  obtain rfl := hnone hfirst
  obtain ⟨u, hu, hcase⟩ := hr.wait_running rfl m
  rw [hs] at hu
  cases hu
  have hwait : ∀ k, Operation.wait k ∈ ops ++ [.wait m] → k = m := by
    intro k hk
    simpa [hfirst k] using hk
  rcases hcase with ⟨hsat, -, hrel⟩ | ⟨-, -, hrel⟩
  · refine ⟨_, hrel, fun hno => absurd (by simp) (hno m), fun k hk => .inr ⟨rfl, ?_⟩⟩
    rw [hwait k hk, allSignals_wait]
    exact hsat
  · refine ⟨_, hrel, fun hno => absurd (by simp) (hno m), fun k hk => .inl ?_⟩
    rw [hwait k hk, allSignals_wait]

theorem wait_mem_of_waited {h : History} {m : Mask} (hw : h.waited = some m)
    (hnone : (∀ j, .wait j ∉ ops) → h = ⟨allSignals ops, none⟩)
    (hlast : ∀ j, .wait j ∈ ops → h = ⟨allSignals ops, some j⟩) : .wait m ∈ ops := by
  by_contra hno
  have hj : ∀ j, .wait j ∉ ops := by
    intro j hj
    rw [hlast j hj] at hw
    cases hw
    exact hno hj
  rw [hnone hj] at hw
  cases hw

theorem Tracks.signal {k : Mask} (ht : Tracks s ops) (hs : s.step (.signal k) = some s') :
    Tracks s' (ops ++ [.signal k]) := by
  obtain ⟨h, hr, hnone, hsome⟩ := ht
  have hmem : ∀ m, Operation.wait m ∈ ops ++ [.signal k] ↔ Operation.wait m ∈ ops := by simp
  simp only [Tracks, hmem, allSignals_signal]
  cases hw : h.waited with
  | none =>
      obtain ⟨u, hu, -, hrel⟩ := hr.signal_running hw k
      rw [hs] at hu
      cases hu
      refine ⟨_, hrel, fun hno => ?_, fun m hm => .inr ⟨hw, ?_⟩⟩
      · rw [hnone hno]
      · rcases hsome m hm with rfl | ⟨-, hsat⟩
        · cases hw
        · exact satisfied_mono hsat Finset.subset_union_left
  | some m =>
      have hlast : ∀ j, .wait j ∈ ops → h = ⟨allSignals ops, some j⟩ := by
        intro j hj
        refine (hsome j hj).resolve_right fun hno => ?_
        rw [hw] at hno
        cases hno.1
      have hm := wait_mem_of_waited hw hnone hlast
      obtain rfl := hlast m hm
      have hsub := (signal_allowed_iff hr hw k).mp (by rw [hs]; rfl)
      obtain ⟨u, hu, hcase⟩ := hr.signal_waiting hw k hsub
      rw [hs] at hu
      cases hu
      have hwait : ∀ j, .wait j ∈ ops → j = m := by
        intro j hj
        have heq := congrArg History.waited (hlast j hj)
        exact (Option.some.inj heq).symm
      rcases hcase with ⟨hsat, -, hrel⟩ | ⟨-, -, hrel⟩
      · refine ⟨_, hrel, fun hno => absurd hm (hno m), fun j hj => .inr ⟨rfl, ?_⟩⟩
        rw [hwait j hj]
        exact hsat
      · refine ⟨_, hrel, fun hno => absurd hm (hno m), fun j hj => .inl ?_⟩
        rw [hwait j hj]

theorem Tracks.step {op : Operation} (ht : Tracks s ops) (hone : (ops ++ [op]).countP isWait ≤ 1)
    (hs : s.step op = some s') : Tracks s' (ops ++ [op]) := by
  cases op with
  | wait m =>
      refine ht.wait (fun k hk => ?_) hs
      have hpos : 0 < ops.countP isWait := List.countP_pos_iff.mpr ⟨_, hk, rfl⟩
      have hlast : [Operation.wait m].countP isWait = 1 := rfl
      rw [List.countP_append, hlast] at hone
      omega
  | signal k => exact ht.signal hs

/-- Whether the task runs in the end, without reference to the order. -/
theorem Tracks.running_iff (ht : Tracks s ops) :
    s.running = true ↔ ∀ m : Mask, .wait m ∈ ops → Satisfied (bits m) (allSignals ops) := by
  obtain ⟨h, hr, hnone, hsome⟩ := ht
  rw [hr.running]
  constructor
  · intro hw m hm
    rcases hsome m hm with rfl | ⟨-, hsat⟩
    · cases hw
    · exact hsat
  · intro hall
    by_contra hw
    have hm : ∃ m, .wait m ∈ ops := by
      by_contra hno
      exact hw (congrArg History.waited (hnone (not_exists.mp hno)))
    obtain ⟨m, hm⟩ := hm
    obtain rfl := (hsome m hm).resolve_right fun hno => hw hno.1
    exact (hr.asleep m rfl).1 (needed_eq_empty.mpr (hall m hm))

theorem run_tracks {done : List Operation} (ht : Tracks s done)
    (hone : (done ++ ops).countP isWait ≤ 1) (hr : run Sim.step s ops = some s') :
    Tracks s' (done ++ ops) := by
  induction ops generalizing s done with
  | nil =>
      cases hr
      rwa [List.append_nil]
  | cons op ops ih =>
      obtain ⟨t, hs, hr⟩ := run_cons.mp hr
      rw [List.append_cons] at hone ⊢
      refine ih (ht.step ?_ hs) hone hr
      rw [List.countP_append] at hone
      omega

end Step

/-- Two allowed orders of the same operations, with at most one wait among
them, leave the task both running or both waiting. -/
theorem order_irrelevant {ops ops' : List Operation} {s s' : Sim} (hperm : ops.Perm ops')
    (hone : ops.countP isWait ≤ 1) (hr : run Sim.step .initial ops = some s)
    (hr' : run Sim.step .initial ops' = some s') : s.running = s'.running := by
  have hrun := (run_tracks tracks_initial hone hr).running_iff
  have hrun' := (run_tracks tracks_initial (hperm.countP_eq isWait ▸ hone) hr').running_iff
  rw [Bool.eq_iff_iff, hrun, hrun']
  simp only [List.nil_append, hperm.mem_iff, allSignals_perm hperm]

/-- A wait for normal condition 0 and required condition 0, with both signals
in front of it or behind it. -/
theorem order_irrelevant_early_late :
    ∃ s s', run Sim.step .initial
        [.signal ⟨1, by decide⟩, .signal ⟨4, by decide⟩, .wait ⟨5, by decide⟩] = some s ∧
      run Sim.step .initial
        [.wait ⟨5, by decide⟩, .signal ⟨4, by decide⟩, .signal ⟨1, by decide⟩] = some s' ∧
      s.running = true ∧ s'.running = true := by
  have hend : (run Sim.step .initial
      [.signal ⟨1, by decide⟩, .signal ⟨4, by decide⟩, .wait ⟨5, by decide⟩]).map Sim.running =
        some true := by decide
  have hend' : (run Sim.step .initial
      [.wait ⟨5, by decide⟩, .signal ⟨4, by decide⟩, .signal ⟨1, by decide⟩]).isSome = true := by
    decide
  obtain ⟨s, hr, hrun⟩ := Option.map_eq_some_iff.mp hend
  obtain ⟨s', hr'⟩ := Option.isSome_iff_exists.mp hend'
  refine ⟨s, s', hr, hr', hrun, ?_⟩
  rw [← order_irrelevant (by decide) (by decide) hr hr', hrun]

end WaitSignal.Reordering
