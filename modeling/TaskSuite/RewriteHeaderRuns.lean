import TaskSuite.RewriteHeaderYears

/-! The runs of consecutive years that `print_on` writes into the copyright line. -/
namespace RewriteHeader

structure YearRun where
  first : Nat
  last : Nat
  first_le_last : first ≤ last

namespace YearRun

def single (year : Nat) : YearRun := ⟨year, year, le_rfl⟩

def years (r : YearRun) : List Nat := List.range' r.first (r.last + 1 - r.first)

def text (r : YearRun) : List Char :=
  if r.last = r.first then Nat.toDigits 10 r.first
  else if r.last = r.first + 1 then Nat.toDigits 10 r.first ++ ", ".toList ++ Nat.toDigits 10 r.last
  else Nat.toDigits 10 r.first ++ " - ".toList ++ Nat.toDigits 10 r.last

/-- At least one year is missing between the two runs. -/
def Apart (r q : YearRun) : Prop := r.last + 1 < q.first

def split (r : YearRun) : List Nat → List YearRun
  | [] => [r]
  | year :: years =>
      if h : year = r.last + 1 then
        split ⟨r.first, year, h ▸ Nat.le_succ_of_le r.first_le_last⟩ years
      else r :: split (single year) years

theorem years_single (year : Nat) : (single year).years = [year] := by
  simp [single, years]

theorem split_ne_nil (r : YearRun) (years : List Nat) : r.split years ≠ [] := by
  induction years generalizing r with
  | nil => exact List.cons_ne_nil _ _
  | cons year years ih =>
      rw [split]
      split_ifs
      · exact ih _
      · exact List.cons_ne_nil _ _

theorem first_mem_of_mem_split {r q : YearRun} {years : List Nat} (hq : q ∈ r.split years) :
    q.first ∈ r.first :: years := by
  induction years generalizing r with
  | nil =>
      rw [List.mem_singleton.mp hq]
      exact List.mem_singleton_self _
  | cons year years ih =>
      rw [split] at hq
      split_ifs at hq
      · rcases List.mem_cons.mp (ih hq) with hsame | hlater
        · exact List.mem_cons.mpr (.inl hsame)
        · exact List.mem_cons_of_mem _ (List.mem_cons_of_mem _ hlater)
      · rcases List.mem_cons.mp hq with rfl | hrest
        · exact List.mem_cons_self ..
        · exact List.mem_cons_of_mem _ (ih hrest)

/-- The runs are in order, and no two of them could be joined. -/
theorem pairwise_split {r : YearRun} {years : List Nat}
    (hsorted : (r.last :: years).Pairwise (· < ·)) : (r.split years).Pairwise Apart := by
  induction years generalizing r with
  | nil => exact List.pairwise_singleton _ _
  | cons year years ih =>
      obtain ⟨hlast, hsorted'⟩ := List.pairwise_cons.mp hsorted
      have hyear := hlast year (List.mem_cons_self ..)
      rw [split]
      split_ifs with hnext
      · exact ih hsorted'
      · refine List.pairwise_cons.mpr ⟨fun q hq => ?_, ih hsorted'⟩
        have hle : year ≤ q.first := by
          rcases List.mem_cons.mp (first_mem_of_mem_split hq) with hsame | hlater
          · exact hsame.ge
          · exact Nat.le_of_lt ((List.pairwise_cons.mp hsorted').1 _ hlater)
        rw [Apart]
        omega

theorem years_split {r : YearRun} {years : List Nat}
    (hsorted : (r.last :: years).Pairwise (· < ·)) :
    (r.split years).flatMap YearRun.years = r.years ++ years := by
  induction years generalizing r with
  | nil => simp [split]
  | cons year years ih =>
      obtain ⟨-, hsorted'⟩ := List.pairwise_cons.mp hsorted
      rw [split]
      split_ifs with hnext
      · subst hnext
        have hle := r.first_le_last
        have hmore : YearRun.years ⟨r.first, r.last + 1, Nat.le_succ_of_le hle⟩ =
            r.years ++ [r.last + 1] := by
          simp only [YearRun.years]
          rw [Nat.succ_sub (Nat.le_succ_of_le hle), List.range'_concat, Nat.one_mul,
            Nat.add_sub_of_le (Nat.le_succ_of_le hle)]
        rw [ih hsorted', hmore]
        simp
      · rw [List.flatMap_cons, ih hsorted', years_single]
        rfl

theorem ofYears_eq_flatMap_split (r : YearRun) (years : List Nat) :
    Span.ofYears r.first r.last years =
      (r.split years).flatMap fun q => Span.ofRun q.first q.last := by
  induction years generalizing r with
  | nil => simp [Span.ofYears, split]
  | cons year years ih =>
      rw [Span.ofYears, split]
      split_ifs with hnext
      · exact ih ⟨r.first, year, _⟩
      · rw [List.flatMap_cons]
        exact congrArg (Span.ofRun r.first r.last ++ ·) (ih (single year))

theorem spansText_ofRun_eq_text (r : YearRun) : spansText (Span.ofRun r.first r.last) = r.text := by
  rw [Span.ofRun, text]
  split_ifs <;> simp [spansText, Span.text]

theorem spansText_flatMap {runs : List YearRun} (hne : runs ≠ []) :
    spansText (runs.flatMap fun q => Span.ofRun q.first q.last) =
      ", ".toList.intercalate (runs.map text) := by
  induction runs with
  | nil => exact absurd rfl hne
  | cons r runs ih =>
      cases runs with
      | nil => simp [spansText_ofRun_eq_text, List.intercalate]
      | cons q runs =>
          have hrest : ((q :: runs).flatMap fun q => Span.ofRun q.first q.last) ≠ [] := by
            rw [List.flatMap_cons]
            exact List.append_ne_nil_of_left_ne_nil (Span.ofRun_ne_nil _ _) _
          rw [List.flatMap_cons, spansText_append (Span.ofRun_ne_nil _ _) hrest,
            ih (List.cons_ne_nil q runs), spansText_ofRun_eq_text]
          simp [List.intercalate]

end YearRun

/-- **The loop of `print_on` writes the maximal runs of consecutive years**, in
increasing order and with a comma between them. The years of the runs are those of the
list, each one once. -/
theorem printYears_runs (years : List Nat) (hne : years ≠ []) (hsorted : years.Pairwise (· < ·))
    (hyears : ∀ y ∈ years, IsYear y) :
    ∃ runs : List YearRun, runs.flatMap YearRun.years = years ∧ runs.Pairwise YearRun.Apart ∧
      Header.printYears (years.getLastD 0) "@Copyright (C) ".toList 0 0 years =
        "@Copyright (C) ".toList ++ ", ".toList.intercalate (runs.map YearRun.text) := by
  have hprint := printYears_spansOf "@Copyright (C) ".toList hne hsorted fun y hy =>
    Nat.lt_of_lt_of_le (by decide) (hyears y hy).1
  cases years with
  | nil => exact absurd rfl hne
  | cons year years =>
      refine ⟨(YearRun.single year).split years, ?_, YearRun.pairwise_split hsorted, ?_⟩
      · rw [YearRun.years_split hsorted, YearRun.years_single]
        rfl
      · have hspans := YearRun.ofYears_eq_flatMap_split (YearRun.single year) years
        rw [hprint, spansOf, ← YearRun.spansText_flatMap (YearRun.split_ne_nil _ _), ← hspans]
        rfl

/-- A single year, two years and three years. -/
theorem printYears_runs_three :
    let years := [2017, 2019, 2020, 2022, 2023, 2024]
    (years ≠ [] ∧ years.Pairwise (· < ·) ∧ ∀ y ∈ years, IsYear y) ∧
      ∃ runs : List YearRun, runs.flatMap YearRun.years = years ∧ runs.Pairwise YearRun.Apart ∧
        Header.printYears (years.getLastD 0) "@Copyright (C) ".toList 0 0 years =
          "@Copyright (C) ".toList ++ ", ".toList.intercalate (runs.map YearRun.text) :=
  ⟨⟨by decide, by decide, by decide⟩, printYears_runs _ (by decide) (by decide) (by decide)⟩

example : Header.printYears 2024 "@Copyright (C) ".toList 0 0 [2017, 2019, 2020, 2022, 2023, 2024] =
    "@Copyright (C) 2017, 2019, 2020, 2022 - 2024".toList := by
  decide +kernel

end RewriteHeader
