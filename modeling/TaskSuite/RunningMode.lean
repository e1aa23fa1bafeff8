import Mathlib.Data.List.Induction
import Mathlib.Order.Lattice

/-! The most frequent key of a list, found in one pass that counts the keys. At
each point the count of a second value decides whether the key becomes the best. -/
namespace RunningMode

variable {α : Type*} [DecidableEq α]

/-- The keys so far, the best of them and how often it had occurred when it became
the best. -/
structure State (α : Type*) where
  seen : List α
  best : Option α
  most : Nat

/-- A point is a key together with the value whose count is compared. -/
def visit (s : State α) (point : α × α) : State α :=
  let seen := s.seen ++ [point.1]
  if s.most < seen.count point.2 then ⟨seen, some point.1, seen.count point.1⟩
  else { s with seen }

def run (points : List (α × α)) : State α := points.foldl visit ⟨[], none, 0⟩

def keys (points : List (α × α)) : List α := points.map Prod.fst

def IsMode (values : List α) (best : Option α) (most : Nat) : Prop :=
  match best with
  | none => values = [] ∧ most = 0
  | some v => v ∈ values ∧ most = values.count v ∧ ∀ w, values.count w ≤ most

/-! ### One more point -/

theorem run_snoc (points : List (α × α)) (point : α × α) :
    run (points ++ [point]) = visit (run points) point := by
  rw [run, List.foldl_append]
  rfl

omit [DecidableEq α] in
theorem keys_snoc (points : List (α × α)) (point : α × α) :
    keys (points ++ [point]) = keys points ++ [point.1] := by
  rw [keys, List.map_append]
  rfl

@[simp] theorem visit_seen (s : State α) (point : α × α) :
    (visit s point).seen = s.seen ++ [point.1] := by
  rw [visit]
  split <;> rfl

theorem run_seen (points : List (α × α)) : (run points).seen = keys points := by
  induction points using List.reverseRecOn with
  | nil => rfl
  | append_singleton points point ih => rw [run_snoc, visit_seen, ih, keys_snoc]

theorem IsMode.count_le {values : List α} {best : Option α} {most : Nat}
    (h : IsMode values best most) (w : α) : values.count w ≤ most := by
  cases best with
  | none =>
      obtain ⟨rfl, -⟩ := h
      exact Nat.zero_le most
  | some v => exact h.2.2 w

theorem count_snoc (values : List α) (key w : α) :
    (values ++ [key]).count w = values.count w + if key = w then 1 else 0 := by
  rw [List.count_append, List.count_singleton]
  simp

theorem visit_isMode {s : State α} (h : IsMode s.seen s.best s.most) (key : α) :
    IsMode (visit s (key, key)).seen (visit s (key, key)).best (visit s (key, key)).most := by
  have hkey := count_snoc s.seen key key
  rw [if_pos rfl] at hkey
  by_cases hraise : s.most < (s.seen ++ [key]).count key
  · rw [visit, if_pos hraise]
    refine ⟨List.mem_append_right _ (List.mem_singleton_self key), rfl, fun w => ?_⟩
    have hw := h.count_le w
    rw [count_snoc s.seen key w]
    by_cases heq : key = w
    · subst heq
      rw [if_pos rfl, ← hkey]
    · rw [if_neg heq]
      exact hw.trans hraise.le
  · rw [visit, if_neg hraise]
    have hbound : ∀ w, (s.seen ++ [key]).count w ≤ s.most := by
      intro w
      by_cases heq : key = w
      · subst heq
        exact Nat.le_of_not_lt hraise
      · rw [count_snoc s.seen key w, if_neg heq]
        exact h.count_le w
    obtain ⟨seen, best, most⟩ := s
    cases best with
    | none =>
        obtain ⟨-, rfl⟩ := h
        exact absurd (hkey ▸ Nat.succ_pos _) hraise
    | some v =>
        obtain ⟨hv, hmost, -⟩ := h
        refine ⟨List.mem_append_left _ hv, le_antisymm ?_ (hbound v), hbound⟩
        rw [count_snoc seen key v]
        exact hmost.le.trans (Nat.le_add_right _ _)

/-! ### The whole pass -/

/-- What the best of the keys so far has at least: it is one of them, and has occurred
as often as when it became the best. -/
structure Bounded (s : State α) : Prop where
  unset : s.best = none → s.most = 0
  reached : ∀ v, s.best = some v → v ∈ s.seen ∧ s.most ≤ s.seen.count v

section Run
variable {s : State α} {points front back : List (α × α)} {point : α × α} {best : Option α}
  {most n : Nat}

theorem visit_bounded (h : Bounded s) (point : α × α) : Bounded (visit s point) := by
  rw [visit]
  split_ifs
  · refine ⟨fun hnone => absurd hnone (Option.some_ne_none _), fun v hv => ?_⟩
    cases hv
    exact ⟨List.mem_append_right _ (List.mem_singleton_self _), le_rfl⟩
  · refine ⟨h.unset, fun v hv => ?_⟩
    obtain ⟨hmem, hle⟩ := h.reached v hv
    exact ⟨List.mem_append_left _ hmem, hle.trans ((List.sublist_append_left _ _).count_le v)⟩

theorem run_bounded (points : List (α × α)) : Bounded (run points) := by
  induction points using List.reverseRecOn with
  | nil => exact ⟨fun _ => rfl, fun v hv => by cases hv⟩
  | append_singleton points point ih =>
      rw [run_snoc]
      exact visit_bounded ih point

theorem foldl_visit_keep
    (hquiet : ∀ p ∈ back, (s.seen ++ keys back).count p.2 ≤ s.most) :
    (back.foldl visit s).best = s.best ∧ (back.foldl visit s).most = s.most := by
  induction back generalizing s with
  | nil => exact ⟨rfl, rfl⟩
  | cons p back ih =>
      obtain ⟨hp, hback⟩ := List.forall_mem_cons.mp hquiet
      have hseen : s.seen ++ keys (p :: back) = (s.seen ++ [p.1]) ++ keys back := by simp [keys]
      rw [hseen] at hp hback
      have hkeep : visit s p = { s with seen := s.seen ++ [p.1] } := by
        refine if_neg (Nat.not_lt.mpr (le_trans ?_ hp))
        exact (List.sublist_append_left _ _).count_le p.2
      rw [List.foldl_cons, hkeep]
      exact ih hback

/-- A point at which the key and the value that is compared have both occurred as
often as any key does at all makes the maximum reach that. -/
theorem visit_reaches (h : Bounded s) (hpos : 0 < n)
    (hbound : ∀ w, (s.seen ++ [point.1]).count w ≤ n)
    (hkey : (s.seen ++ [point.1]).count point.1 = n)
    (hcompared : n ≤ (s.seen ++ [point.1]).count point.2) :
    (visit s point).best ≠ none ∧ (visit s point).most = n := by
  rw [visit]
  split_ifs with hraise
  · exact ⟨Option.some_ne_none _, hkey⟩
  · -- Otherwise it had been reached before, by the key that is the best.
    have hmost : n ≤ s.most := hcompared.trans (Nat.le_of_not_lt hraise)
    have hbest : s.best ≠ none := fun hnone => by
      have hzero := h.unset hnone
      omega
    obtain ⟨v, hv⟩ := Option.ne_none_iff_exists'.mp hbest
    obtain ⟨-, hle⟩ := h.reached v hv
    have hv' : s.seen.count v ≤ n := ((List.sublist_append_left _ _).count_le v).trans (hbound v)
    exact ⟨hbest, by change s.most = n; omega⟩

theorem run_reaches (hpoints : points = front ++ point :: back) (hpos : 0 < n)
    (hbound : ∀ w, (keys points).count w ≤ n)
    (hkey : (keys (front ++ [point])).count point.1 = n)
    (hcompared : n ≤ (keys (front ++ [point])).count point.2) :
    (run points).best ≠ none ∧ (run points).most = n := by
  have hsplit : points = (front ++ [point]) ++ back := by simp [hpoints]
  have hkeys : keys points = keys (front ++ [point]) ++ keys back := by
    rw [hsplit, keys, List.map_append]
    rfl
  have hrun : run points = back.foldl visit (run (front ++ [point])) := by
    rw [hsplit, run, List.foldl_append]
    rfl
  have hseen : (run front).seen ++ [point.1] = keys (front ++ [point]) := by rw [run_seen, keys_snoc]
  have hhere : ∀ w, (keys (front ++ [point])).count w ≤ n := fun w => by
    refine le_trans ?_ (hbound w)
    rw [hkeys]
    exact (List.sublist_append_left _ _).count_le w
  rw [← hseen] at hhere hkey hcompared
  obtain ⟨hbest, hmost⟩ := visit_reaches (run_bounded front) hpos hhere hkey hcompared
  rw [← run_snoc] at hbest hmost
  obtain ⟨hbest', hmost'⟩ : (back.foldl visit (run (front ++ [point]))).best = (run (front ++ [point])).best ∧
      (back.foldl visit (run (front ++ [point]))).most = (run (front ++ [point])).most :=
    foldl_visit_keep fun p _ => by
      rw [run_seen, ← hkeys, hmost]
      exact hbound p.2
  rw [hrun, hbest', hmost']
  exact ⟨hbest, hmost⟩

/-- A best that was found was raised at some point, where the value that is compared had
occurred as a key, and has been kept since. -/
theorem exists_raise (h : (run points).most ≠ 0) :
    ∃ front point back, points = front ++ point :: back ∧ (run points).best = some point.1 ∧
      (run points).most = (keys (front ++ [point])).count point.1 ∧
      point.2 ∈ keys (front ++ [point]) := by
  induction points using List.reverseRecOn with
  | nil => exact absurd rfl h
  | append_singleton points point ih =>
      rw [run_snoc, visit] at h ⊢
      rw [run_seen, ← keys_snoc] at h ⊢
      split_ifs at h ⊢ with hraise
      · exact ⟨points, point, [], rfl, rfl, rfl, List.count_pos_iff.mp (Nat.zero_lt_of_lt hraise)⟩
      · obtain ⟨front, old, back, hsplit, hold⟩ := ih h
        exact ⟨front, old, back ++ [point], by simp [hsplit], hold⟩

/-- If the keys themselves are compared then the best is the mode. -/
theorem run_isMode (h : ∀ point ∈ points, point.1 = point.2) :
    IsMode (keys points) (run points).best (run points).most := by
  induction points using List.reverseRecOn with
  | nil => exact ⟨rfl, rfl⟩
  | append_singleton points point ih =>
      have hmode := ih fun old hold => h old (List.mem_append_left _ hold)
      have hpoint : point = (point.1, point.1) :=
        Prod.ext rfl (h point (List.mem_append_right _ (List.mem_singleton_self point))).symm
      rw [← run_seen] at hmode ⊢
      rw [run_snoc, hpoint]
      exact visit_isMode hmode point.1

end Run

/-! ### Bins -/

section Bins
variable {β : Type*} {bin : β → Int} {width : Nat}

def inBins (bin : β → Int) (width : Nat) (points : List β) : List β :=
  (List.range width).flatMap fun (c : Nat) => points.filter fun point => bin point = c

theorem inBins_succ (bin : β → Int) (width : Nat) (points : List β) :
    inBins bin (width + 1) points =
      inBins bin width points ++ points.filter fun point => bin point = width := by
  rw [inBins, List.range_succ, List.flatMap_append, List.flatMap_singleton]
  rfl

theorem inBins_perm_filter (bin : β → Int) (width : Nat) (points : List β) :
    (inBins bin width points).Perm (points.filter fun point => 0 ≤ bin point ∧ bin point < width) := by
  induction width with
  | zero =>
      rw [List.filter_eq_nil_iff.mpr fun point _ => by simp]
      rfl
  | succ width ih =>
      have hsplit := List.filter_append_perm (fun point => decide (bin point < width))
        (points.filter fun point => 0 ≤ bin point ∧ bin point < (width + 1 : Nat))
      rw [List.filter_filter, List.filter_filter] at hsplit
      rw [inBins_succ]
      refine (ih.append_right _).trans (.trans (.of_eq ?_) hsplit)
      congr 1
      · refine List.filter_congr fun point _ => ?_
        rw [← Bool.decide_and, decide_eq_decide]
        omega
      · refine List.filter_congr fun point _ => ?_
        rw [← decide_not, ← Bool.decide_and, decide_eq_decide]
        omega

end Bins

end RunningMode
