import TaskSuite.RegexSemantics
import TaskSuite.RewriteHeader

/-! The years in the copyright line: what `print_on` writes for a list of years,
and what `decode_copyright_line` reads from it. -/
namespace RewriteHeader
open Regex

/-- What is written between two separators: a year, or the first and the last
one of several. -/
structure Span where
  start : Nat
  stop : Option Nat

namespace Span

def years (s : Span) : List Nat :=
  match s.stop with
  | none => [s.start]
  | some stop => List.range' s.start (stop + 1 - s.start)

def text (s : Span) : List Char :=
  match s.stop with
  | none => Nat.toDigits 10 s.start
  | some stop => Nat.toDigits 10 s.start ++ (" - ".toList ++ Nat.toDigits 10 stop)

/-- Consecutive years, of which two are written like single ones. -/
def ofRun (first last : Nat) : List Span :=
  if last = first then [⟨first, none⟩]
  else if last = first + 1 then [⟨first, none⟩, ⟨last, none⟩]
  else [⟨first, some last⟩]

/-- The spans of a list of years behind the run from `first` to `last`. -/
def ofYears (first last : Nat) : List Nat → List Span
  | [] => ofRun first last
  | year :: years =>
      if year = last + 1 then ofYears first year years
      else ofRun first last ++ ofYears year year years

end Span

def spansText : List Span → List Char
  | [] => []
  | [s] => s.text
  | s :: t :: spans => s.text ++ (", ".toList ++ spansText (t :: spans))

section Print

theorem Span.ofRun_ne_nil (first last : Nat) : ofRun first last ≠ [] := by
  unfold ofRun
  split_ifs <;> exact List.cons_ne_nil _ _

theorem Span.ofYears_ne_nil (first last : Nat) (years : List Nat) :
    ofYears first last years ≠ [] := by
  induction years generalizing first last with
  | nil => exact ofRun_ne_nil first last
  | cons year years ih =>
      simp only [ofYears]
      split_ifs
      · exact ih first year
      · exact List.append_ne_nil_of_left_ne_nil (ofRun_ne_nil first last) _

theorem spansText_append {a b : List Span} (ha : a ≠ []) (hb : b ≠ []) :
    spansText (a ++ b) = spansText a ++ (", ".toList ++ spansText b) := by
  induction a with
  | nil => exact absurd rfl ha
  | cons s a ih =>
      cases a with
      | nil =>
          obtain ⟨t, b, rfl⟩ := List.exists_cons_of_ne_nil hb
          rfl
      | cons t a =>
          have hrest := ih (List.cons_ne_nil t a)
          simp only [List.cons_append, spansText] at hrest ⊢
          rw [hrest]
          simp

theorem spansText_ofRun {first last : Nat} (h : first ≤ last) :
    spansText (Span.ofRun first last) = Nat.toDigits 10 first ++
      (if last > first then
        (if last > first + 1 then " - ".toList else ", ".toList) ++ Nat.toDigits 10 last
      else []) := by
  unfold Span.ofRun
  split_ifs with h1 h2 h3 h4 h5 h6
  all_goals first | omega | simp [spansText, Span.text]

theorem printYears_eq {finalYear first last : Nat} {years : List Nat} (separator : Line)
    (hfirst : 0 < first) (hle : first ≤ last) (hsorted : (last :: years).Pairwise (· < ·))
    (hfinal : years.getLast? = some finalYear) :
    Header.printYears finalYear separator first last years =
      separator ++ spansText (Span.ofYears first last years) := by
  induction years generalizing separator first last with
  | nil => cases hfinal
  | cons year years ih =>
      obtain ⟨hlast, hsorted'⟩ := List.pairwise_cons.mp hsorted
      have hlt : last < year := hlast year (List.mem_cons_self ..)
      cases years with
      | nil =>
          cases hfinal
          by_cases hnext : year = last + 1
          · simp only [Header.printYears, Span.ofYears, hnext, ne_eq, if_false, if_true, hfirst.ne',
              not_false_eq_true, true_or]
            rw [spansText_ofRun (by omega)]
            simp
          · simp only [Header.printYears, Span.ofYears, hnext, ne_eq, false_and, if_false, hfirst.ne',
              not_false_eq_true, true_or, if_true]
            rw [spansText_append (Span.ofRun_ne_nil _ _) (Span.ofRun_ne_nil _ _),
              spansText_ofRun hle, spansText_ofRun le_rfl]
            have hmax : year > max first last := by omega
            simp [hmax]
      | cons z zs =>
          have hne : year ≠ finalYear := by
            have hmem : finalYear ∈ z :: zs := List.mem_of_getLast? hfinal
            exact Nat.ne_of_lt ((List.pairwise_cons.mp hsorted').1 finalYear hmem)
          by_cases hnext : year = last + 1
          · have hstep := ih separator hfirst (by omega : first ≤ year) hsorted' hfinal
            rw [Header.printYears, if_pos ⟨hnext, hne⟩, hstep]
            simp only [Span.ofYears, hnext, if_true]
          · have hstep := ih ", ".toList (by omega : 0 < year) le_rfl hsorted' hfinal
            have hspans : Span.ofYears first last (year :: z :: zs) =
                Span.ofRun first last ++ Span.ofYears year year (z :: zs) := if_neg hnext
            rw [hspans, spansText_append (Span.ofRun_ne_nil _ _) (Span.ofYears_ne_nil _ _ _),
              spansText_ofRun hle, Header.printYears, if_neg (fun h => hnext h.1)]
            simp only [hnext, if_false, ne_eq, hfirst.ne', not_false_eq_true, true_or, if_true, hne,
              false_and, hstep]
            simp

def spansOf : List Nat → List Span
  | [] => []
  | year :: years => Span.ofYears year year years

/-- The loop writes the spans of the years, with a comma between them. -/
theorem printYears_spansOf {years : List Nat} (separator : Line) (hne : years ≠ [])
    (hsorted : years.Pairwise (· < ·)) (hpos : ∀ y ∈ years, 1 < y) :
    Header.printYears (years.getLastD 0) separator 0 0 years =
      separator ++ spansText (spansOf years) := by
  cases years with
  | nil => exact absurd rfl hne
  | cons year years =>
      have hone : year ≠ 1 := Nat.ne_of_gt (hpos year (List.mem_cons_self ..))
      cases years with
      | nil =>
          simp [Header.printYears, spansOf, Span.ofYears, Span.ofRun, spansText, Span.text, hone]
      | cons z zs =>
          have hfinal : (z :: zs).getLast? = some ((year :: z :: zs).getLastD 0) := by
            simp [List.getLast?_cons]
          have hlt : year ≠ (year :: z :: zs).getLastD 0 :=
            Nat.ne_of_lt ((List.pairwise_cons.mp hsorted).1 _ (List.mem_of_getLast? hfinal))
          have hloop := printYears_eq separator (Nat.lt_of_succ_lt (hpos year (List.mem_cons_self ..)))
            le_rfl hsorted hfinal
          rw [spansOf, ← hloop, Header.printYears, if_neg (fun h => hone h.1)]
          simp only [ne_eq, not_true_eq_false, false_or, hlt, if_false]

theorem Span.years_ofRun {first last : Nat} (h : first ≤ last) :
    (ofRun first last).flatMap years = List.range' first (last + 1 - first) := by
  unfold ofRun
  split_ifs with h1 h2
  · subst h1
    simp [years]
  · subst h2
    simp [years, show first + 1 + 1 - first = 2 by omega, List.range']
  · simp [years]

theorem Span.years_ofYears {first last : Nat} {ys : List Nat} (h : first ≤ last)
    (hsorted : (last :: ys).Pairwise (· < ·)) :
    (ofYears first last ys).flatMap years = List.range' first (last + 1 - first) ++ ys := by
  induction ys generalizing first last with
  | nil => simpa [ofYears] using years_ofRun h
  | cons year ys ih =>
      obtain ⟨hlast, hsorted'⟩ := List.pairwise_cons.mp hsorted
      have hlt : last < year := hlast year (List.mem_cons_self ..)
      simp only [ofYears]
      split_ifs with hnext
      · rw [ih (by omega) hsorted', hnext, show last + 1 + 1 - first = last + 1 - first + 1 by omega,
          List.range'_concat]
        simp [show first + (last + 1 - first) = last + 1 by omega]
      · rw [List.flatMap_append, years_ofRun h, ih le_rfl hsorted']
        simp

theorem years_spansOf {years : List Nat} (hsorted : years.Pairwise (· < ·)) :
    (spansOf years).flatMap Span.years = years := by
  cases years with
  | nil => rfl
  | cons year years =>
      rw [spansOf, Span.years_ofYears le_rfl hsorted]
      simp

def IsYear (y : Nat) : Prop := 1900 ≤ y ∧ y ≤ 2099

instance (y : Nat) : Decidable (IsYear y) := inferInstanceAs (Decidable (_ ∧ _))

def Span.Valid (s : Span) : Prop := IsYear s.start ∧ ∀ stop, s.stop = some stop → IsYear stop

theorem Span.valid_ofRun {first last : Nat} (hf : IsYear first) (hl : IsYear last) :
    ∀ s ∈ ofRun first last, s.Valid := by
  have hone : ∀ {y}, IsYear y → Span.Valid ⟨y, none⟩ := fun hy => ⟨hy, nofun⟩
  unfold ofRun
  split_ifs
  · exact List.forall_mem_singleton.mpr (hone hf)
  · exact List.forall_mem_cons.mpr ⟨hone hf, List.forall_mem_singleton.mpr (hone hl)⟩
  · refine List.forall_mem_singleton.mpr ⟨hf, fun stop hstop => ?_⟩
    cases hstop
    exact hl

theorem Span.valid_ofYears {first last : Nat} {ys : List Nat} (hf : IsYear first)
    (hl : IsYear last) (hys : ∀ y ∈ ys, IsYear y) : ∀ s ∈ ofYears first last ys, s.Valid := by
  induction ys generalizing first last with
  | nil => exact valid_ofRun hf hl
  | cons year ys ih =>
      obtain ⟨hyear, hys⟩ := List.forall_mem_cons.mp hys
      simp only [ofYears]
      split_ifs
      · exact ih hf hyear hys
      · exact List.forall_mem_append.mpr ⟨valid_ofRun hf hl, ih hyear hyear hys⟩

end Print

/-! ### Reading the years -/

section Read
variable {β : Type} {k : Pos → Captures → Option β} {c : Captures} {first : Bool}
  {s : List Char} {y : Nat}

theorem toDigits_year (h : IsYear y) : ∃ a b : Char, a.isDigit = true ∧ b.isDigit = true ∧
    (Nat.toDigits 10 y = ['1', '9', a, b] ∨ Nat.toDigits 10 y = ['2', '0', a, b]) := by
  obtain ⟨h1, h2⟩ := h
  have hdigits : Nat.toDigits 10 y =
      Nat.toDigits 10 (y / 10 / 10) ++ [(y / 10 % 10).digitChar, (y % 10).digitChar] := by
    rw [Nat.toDigits_of_base_le (by decide) (by omega : 10 ≤ y),
      Nat.toDigits_of_base_le (by decide) (by omega : 10 ≤ y / 10)]
    simp
  have hmem : ∀ x ∈ Nat.toDigits 10 y, x.isDigit = true := fun x hx =>
    Nat.isDigit_of_mem_toDigits (by decide) (by decide) hx
  have hcentury : y / 10 / 10 = 19 ∨ y / 10 / 10 = 20 := by omega
  refine ⟨(y / 10 % 10).digitChar, (y % 10).digitChar, ?_, ?_, ?_⟩
  · exact hmem _ (by rw [hdigits]; simp)
  · exact hmem _ (by rw [hdigits]; simp)
  · rcases hcentury with h | h <;> rw [hdigits, h]
    · exact .inl rfl
    · exact .inr rfl

theorem run_year (h : IsYear y) :
    run Header.year ⟨first, Nat.toDigits 10 y ++ s⟩ c k = k ⟨false, s⟩ c := by
  obtain ⟨a, b, ha, hb, hdigits | hdigits⟩ := toDigits_year h
  · rw [hdigits]
    simp [Header.year, concat, run, literal, digit, ha, hb]
  · rw [hdigits]
    simp [Header.year, concat, run, literal, digit, ha, hb]

theorem run_year_fail (h : ∀ x, s.head? = some x → x.isDigit = false) :
    run Header.year ⟨first, s⟩ c k = none := by
  cases s with
  | nil => simp [Header.year, concat, run, literal]
  | cons x xs =>
      have hx := h x rfl
      have h1 : x ≠ '1' := by rintro rfl; revert hx; decide
      have h2 : x ≠ '2' := by rintro rfl; revert hx; decide
      simp [Header.year, concat, run, literal, h1, h2]

/-- A year with what separates it from the next one. -/
def yearAtom : Regex :=
  .seq Header.year (.alt (concat [.star space, oneOf [',', '-'], .star space]) (plus space))

/-- What separates a year from the text behind it: a comma or a dash, perhaps
among spaces, or only spaces. -/
structure IsSeparator (separator rest : List Char) : Prop where
  notBlank : ∀ x, rest.head? = some x → isSpace x = false
  form : (∃ u x v, separator = u ++ x :: v ∧ (x = ',' ∨ x = '-') ∧ (∀ y ∈ u, isSpace y = true) ∧
      ∀ y ∈ v, isSpace y = true) ∨
    separator ≠ [] ∧ (∀ y ∈ separator, isSpace y = true) ∧
      ∀ x, rest.head? = some x → x ≠ ',' ∧ x ≠ '-'

theorem spaces_append_inj {u v a b : List Char} {x y : Char} (hu : ∀ z ∈ u, isSpace z = true)
    (hv : ∀ z ∈ v, isSpace z = true) (hx : isSpace x = false) (hy : isSpace y = false)
    (h : u ++ x :: a = v ++ y :: b) : u = v ∧ x = y ∧ a = b := by
  have hdrop := congrArg (List.dropWhile isSpace) h
  rw [List.dropWhile_append_of_pos hu, List.dropWhile_append_of_pos hv,
    List.dropWhile_cons_of_neg (by simp [hx]), List.dropWhile_cons_of_neg (by simp [hy])] at hdrop
  obtain ⟨rfl, rfl⟩ := List.cons.inj hdrop
  exact ⟨List.append_cancel_right h, rfl, rfl⟩

theorem isSpace_of_comma_or_dash {x : Char} (h : x = ',' ∨ x = '-') : isSpace x = false := by
  rcases h with rfl | rfl <;> decide

/-- A separator is taken as a whole. -/
theorem run_separator {separator : List Char} {b : β} (h : IsSeparator separator s)
    (hk : k ⟨false, s⟩ c = some b) :
    run (.alt (concat [.star space, oneOf [',', '-'], .star space]) (plus space))
      ⟨false, separator ++ s⟩ c k = some b := by
  have hstop : ∀ {first}, run (.star (.char isSpace)) ⟨first, s⟩ c k = k ⟨first, s⟩ c :=
    run_star_char_stop h.notBlank
  rcases h.form with ⟨u, x, v, rfl, hx, hu, hv⟩ | ⟨hne, hblank, hother⟩
  · have hx' := isSpace_of_comma_or_dash hx
    have hmem : decide (x ∈ [',', '-']) = true := by simpa using hx
    rw [run_alt, Option.or_eq_some_iff]
    refine .inl ?_
    rw [List.append_assoc, List.cons_append, concat, run_seq]
    refine run_star_char_append hu ?_
    rw [run_star_char_stop (fun z hz => by cases hz; exact hx')]
    simp only [concat, run_seq, oneOf, run_char_cons, hmem, if_true, run_empty]
    exact run_star_char_append hv (hstop.trans hk)
  · -- behind the spaces there is no comma or dash, so that they are the separator
    have hnone : run (concat [.star space, oneOf [',', '-'], .star space]) ⟨false, separator ++ s⟩ c k =
        none := by
      refine run_eq_none fun pos' c' hm => ?_
      obtain ⟨pos₁, c₁, hspaces, pos₂, c₂, ⟨x, hrest, hmem, -⟩, -⟩ := hm
      obtain ⟨a, ha, hspace⟩ := hspaces.exists_append
      have hx : x = ',' ∨ x = '-' := by simpa using hmem
      have hs : s = x :: pos₂.rest := by
        have hdrop := congrArg (List.dropWhile isSpace) (ha.trans (congrArg (a ++ ·) hrest))
        rw [List.dropWhile_append_of_pos hblank, List.dropWhile_append_of_pos hspace,
          List.dropWhile_cons_of_neg (by simp [isSpace_of_comma_or_dash hx])] at hdrop
        cases s with
        | nil => cases hdrop
        | cons z s =>
            rw [List.dropWhile_cons_of_neg (by simp [h.notBlank z rfl])] at hdrop
            exact hdrop
      obtain ⟨hcomma, hdash⟩ := hother x (by rw [hs]; rfl)
      exact absurd hx (by simp [hcomma, hdash])
    obtain ⟨y, ys, rfl⟩ := List.exists_cons_of_ne_nil hne
    obtain ⟨hy, hys⟩ := List.forall_mem_cons.mp hblank
    rw [run_alt, hnone, Option.none_or, plus, run_seq, List.cons_append, space, run_char_cons, if_pos hy]
    exact run_star_char_append hys (hstop.trans hk)

theorem run_yearAtom {separator : List Char} {b : β} (hy : IsYear y) (hsep : IsSeparator separator s)
    (hk : k ⟨false, s⟩ c = some b) :
    run yearAtom ⟨first, Nat.toDigits 10 y ++ (separator ++ s)⟩ c k = some b := by
  rw [yearAtom, run_seq, run_year hy]
  exact run_separator hsep hk

/-- A text starts with a year and what can separate it from the next one. -/
def StartsYear (s : List Char) : Prop :=
  ∃ a b w : Char, a.isDigit = true ∧ b.isDigit = true ∧
    (isSpace w = true ∨ w = ',' ∨ w = '-') ∧
    (['1', '9', a, b, w] <+: s ∨ ['2', '0', a, b, w] <+: s)

theorem matches_year {pos pos' : Pos} {c' : Captures} (h : Header.year.Matches pos c pos' c') :
    ∃ a b : Char, a.isDigit = true ∧ b.isDigit = true ∧
      (pos.rest = '1' :: '9' :: a :: b :: pos'.rest ∨
        pos.rest = '2' :: '0' :: a :: b :: pos'.rest) ∧ pos'.first = false ∧ c' = c := by
  obtain ⟨pos₁, c₁, hcentury, pos₂, c₂, ⟨a, ha, hda, -, rfl⟩, pos₃, c₃, ⟨b, hb, hdb, hfirst, rfl⟩,
    rfl, rfl⟩ := h
  rcases hcentury with h | h
  · obtain ⟨hrest, -, hc⟩ := matches_literal.mp h
    exact ⟨a, b, hda, hdb, .inl (by rw [hrest, ha, hb]; rfl), hfirst, hc⟩
  · obtain ⟨hrest, -, hc⟩ := matches_literal.mp h
    exact ⟨a, b, hda, hdb, .inr (by rw [hrest, ha, hb]; rfl), hfirst, hc⟩

theorem matches_separator {pos pos' : Pos} {c' : Captures}
    (h : (Regex.alt (concat [.star space, oneOf [',', '-'], .star space]) (plus space)).Matches
      pos c pos' c') : ∃ w rest, pos.rest = w :: rest ∧ (isSpace w = true ∨ w = ',' ∨ w = '-') := by
  rcases h with ⟨pos₁, c₁, hspaces, pos₂, c₂, ⟨w, hw, hmem, -⟩, -⟩ | ⟨pos₁, c₁, ⟨w, hw, hspace, -⟩, -⟩
  · cases hspaces with
    | done => exact ⟨w, _, hw, .inr (by simpa using hmem)⟩
    | more hround _ _ =>
        obtain ⟨x, hx, hspace, -⟩ := hround
        exact ⟨x, _, hx, .inl hspace⟩
  · exact ⟨w, _, hw, .inl hspace⟩

theorem run_yearAtom_none (h : ¬ StartsYear s) : run yearAtom ⟨first, s⟩ c k = none := by
  refine run_eq_none fun pos' c' hm => absurd ?_ h
  obtain ⟨pos₁, c₁, hyear, hsep⟩ := hm
  obtain ⟨a, b, ha, hb, hs, -⟩ := matches_year hyear
  obtain ⟨w, rest, hrest, hw⟩ := matches_separator hsep
  rw [hrest] at hs
  refine ⟨a, b, w, ha, hb, hw, hs.imp ?_ ?_⟩
  · rintro rfl
    exact ⟨rest, rfl⟩
  · rintro rfl
    exact ⟨rest, rfl⟩

theorem matches_yearAtom (first : Bool) (c : Captures) (h : StartsYear s) :
    ∃ t, t <:+ s ∧ t.length < s.length ∧ yearAtom.Matches ⟨first, s⟩ c ⟨false, t⟩ c := by
  obtain ⟨a, b, w, ha, hb, hw, hs⟩ := h
  have hsep : ∀ t, (Regex.alt (concat [.star space, oneOf [',', '-'], .star space])
      (plus space)).Matches ⟨false, w :: t⟩ c ⟨false, t⟩ c := by
    intro t
    rcases hw with hw | hw
    · exact .inr ⟨⟨false, t⟩, c, ⟨w, rfl, hw, rfl, rfl⟩, .done⟩
    · exact .inl ⟨_, c, .done, ⟨false, t⟩, c, ⟨w, rfl, by simpa using hw, rfl, rfl⟩, _, c, .done,
        rfl, rfl⟩
  have hdigits : ∀ t, (concat [digit, digit]).Matches ⟨false, a :: b :: w :: t⟩ c ⟨false, w :: t⟩ c :=
    fun t => ⟨⟨false, b :: w :: t⟩, c, ⟨a, rfl, ha, rfl, rfl⟩, ⟨false, w :: t⟩, c,
      ⟨b, rfl, hb, rfl, rfl⟩, rfl, rfl⟩
  have hcentury : ∀ {l t : List Char}, l ≠ [] → (literal l).Matches ⟨first, l ++ t⟩ c ⟨false, t⟩ c :=
    fun hl => matches_literal.mpr ⟨rfl, by simp [hl], rfl⟩
  rcases hs with ⟨t, rfl⟩ | ⟨t, rfl⟩
  · exact ⟨t, List.suffix_append _ t, by simp; omega, ⟨false, w :: t⟩, c,
      ⟨_, c, .inl (hcentury (List.cons_ne_nil '1' ['9'])), hdigits t⟩, hsep t⟩
  · exact ⟨t, List.suffix_append _ t, by simp; omega, ⟨false, w :: t⟩, c,
      ⟨_, c, .inr (hcentury (List.cons_ne_nil '2' ['0'])), hdigits t⟩, hsep t⟩

theorem toDigits_head (h : IsYear y) : ∃ x xs, Nat.toDigits 10 y = x :: xs ∧ x.isDigit = true ∧
    isSpace x = false := by
  obtain ⟨a, b, -, -, hdigits | hdigits⟩ := toDigits_year h
  · exact ⟨'1', _, hdigits, by decide, by decide⟩
  · exact ⟨'2', _, hdigits, by decide, by decide⟩

/-- A year of a list, with what stands between it and the next one, or behind the list. -/
structure Item where
  year : Nat
  separator : List Char

def itemsText (items : List Item) : List Char :=
  items.flatMap fun i => Nat.toDigits 10 i.year ++ i.separator

/-- A list of years in front of `rest`. -/
def Separated : List Item → List Char → Prop
  | [], _ => True
  | i :: items, rest =>
      IsYear i.year ∧ IsSeparator i.separator (itemsText items ++ rest) ∧ Separated items rest

theorem itemsText_cons (i : Item) (items : List Item) (rest : List Char) :
    itemsText (i :: items) ++ rest =
      Nat.toDigits 10 i.year ++ (i.separator ++ (itemsText items ++ rest)) := by
  simp [itemsText]

/-- All the years of a list are taken. -/
theorem run_items {items : List Item} {b : β} (h : Separated items s) (hs : ¬ StartsYear s)
    (hk : ∀ first, k ⟨first, s⟩ c = some b) :
    run (.star yearAtom) ⟨first, itemsText items ++ s⟩ c k = some b := by
  induction items generalizing first with
  | nil =>
      show run (.star yearAtom) ⟨first, s⟩ c k = some b
      rw [run_star, run_yearAtom_none hs]
      exact hk first
  | cons i items ih =>
      obtain ⟨hyear, hsep, hitems⟩ := h
      rw [itemsText_cons]
      refine run_star_of_round (run_yearAtom hyear hsep ?_)
      have hlt : (itemsText items ++ s).length <
          (Nat.toDigits 10 i.year ++ (i.separator ++ (itemsText items ++ s))).length := by
        obtain ⟨x, xs, hdigits, -⟩ := toDigits_head hyear
        rw [hdigits]
        simp
        omega
      rw [if_pos hlt, ih hitems]

end Read

theorem isYear_stoi_digits {d : List Char} {a b : Char} (ha : a.isDigit = true) (hb : b.isDigit = true)
    (hd : d = ['1', '9', a, b] ∨ d = ['2', '0', a, b]) : IsYear (Header.stoi d) := by
  have hdigit : ∀ {x : Char}, x.isDigit = true → x.toNat - 48 ≤ 9 := by
    intro x hx
    obtain ⟨-, hle⟩ := Char.isDigit_iff_toNat.mp hx
    exact Nat.sub_le_sub_right hle 48
  have ha := hdigit ha
  have hb := hdigit hb
  rcases hd with rfl | rfl
  · simp [Header.stoi, Nat.ofDigitChars_cons, IsYear]
    omega
  · simp [Header.stoi, Nat.ofDigitChars_cons, IsYear]
    omega

theorem isYear_stoi {pos pos' : Pos} {c c' : Captures} (h : Header.year.Matches pos c pos' c') :
    IsYear (Header.stoi (pos.rest.take (pos.rest.length - pos'.rest.length))) := by
  obtain ⟨a, b, ha, hb, hrest, -⟩ := matches_year h
  refine isYear_stoi_digits ha hb (hrest.imp ?_ ?_)
  · intro hrest
    rw [hrest, show (_ :: _ :: _ :: _ :: pos'.rest) = ['1', '9', a, b] ++ pos'.rest from rfl, take_front]
  · intro hrest
    rw [hrest, show (_ :: _ :: _ :: _ :: pos'.rest) = ['2', '0', a, b] ++ pos'.rest from rfl, take_front]

/-- The groups of `yearRegexp` hold years; the second one may be empty. -/
theorem captures_yearRegexp {pos pos' : Pos} {c : Captures}
    (h : (Regex.group 0 Header.yearRegexp).Matches pos (fun _ => []) pos' c) :
    IsYear (Header.stoi (c 1)) ∧ (c 2 = [] ∨ IsYear (Header.stoi (c 2))) := by
  obtain ⟨c₁, ⟨pos₂, c₂, ⟨c₃, hyear, rfl⟩, hopt⟩, rfl⟩ := h
  have hbegin := isYear_stoi hyear
  obtain ⟨-, -, -, -, -, -, rfl⟩ := matches_year hyear
  rcases hopt with ⟨pos₄, c₄, hspaces, pos₅, c₅, ⟨_, _, _, _, rfl⟩, pos₆, c₆, hspaces', pos₇, c₇,
    ⟨c₈, hyear', rfl⟩, -, rfl⟩ | ⟨-, rfl⟩
  · have hend := isYear_stoi hyear'
    obtain ⟨-, -, -, -, -, -, rfl⟩ := matches_year hyear'
    have hc := hspaces'.captures_eq.trans hspaces.captures_eq
    subst hc
    exact ⟨by simpa using hbegin, .inr (by simpa using hend)⟩
  · exact ⟨by simpa using hbegin, .inl (by simp)⟩

theorem isYear_of_mem_yearRange {pos pos' : Pos} {f : Found} {y : Nat}
    (h : (Regex.group 0 Header.yearRegexp).Matches pos (fun _ => []) pos' f.captures)
    (hy : y ∈ Header.yearRange f) : IsYear y := by
  obtain ⟨hbegin, hend⟩ := captures_yearRegexp h
  simp only [Header.yearRange, List.mem_range'_1] at hy
  rcases hend with hend | hend
  · simp only [hend, List.isEmpty_nil, if_true] at hy
    exact ⟨le_trans hbegin.1 hy.1, by have := hbegin.2; omega⟩
  · split_ifs at hy with hempty
    · exact ⟨le_trans hbegin.1 hy.1, by have := hbegin.2; omega⟩
    · exact ⟨le_trans hbegin.1 hy.1, by have := hend.2; omega⟩

section Iterate
variable {first : Bool} {s : List Char}

/-- No dash with a number behind it. -/
def NoRange (s : List Char) : Prop :=
  ∀ u v r : List Char, s = u ++ '-' :: (v ++ r) → (∀ y ∈ u, isSpace y = true) →
    (∀ y ∈ v, isSpace y = true) → ∀ x, r.head? = some x → x.isDigit = false

/-- A match of `yearRegexp` that reads a span. -/
structure Reads (f : Found) (t : Span) (after : List Char) : Prop where
  nonempty : f.captures 0 ≠ []
  years : Header.yearRange f = t.years
  after : f.after = after

theorem stoi_toDigits (y : Nat) : Header.stoi (Nat.toDigits 10 y) = y :=
  Nat.ofDigitChars_toDigits (by decide) (by decide)

theorem run_dash_none {β : Type} {k : Pos → Captures → Option β} {c : Captures} (hs : NoRange s) :
    run (concat [.star space, .char (· = '-'), .star space, .group 2 Header.year])
      ⟨first, s⟩ c k = none := by
  refine run_eq_none fun pos' c' hm => ?_
  obtain ⟨pos₁, c₁, hspaces, pos₂, c₂, ⟨x, hrest, hdash, -⟩, pos₃, c₃, hspaces', pos₄, c₄,
    ⟨c₅, hyear, -⟩, -⟩ := hm
  obtain ⟨u, hu, hspace⟩ := hspaces.exists_append
  obtain ⟨v, hv, hspace'⟩ := hspaces'.exists_append
  obtain rfl : x = '-' := by simpa using hdash
  have hdigit := hs u v pos₃.rest (by rw [← hv, ← hrest]; exact hu) hspace hspace'
  obtain ⟨a, b, -, -, h | h, -⟩ := matches_year hyear
  · exact absurd (hdigit '1' (by rw [h]; rfl)) (by decide)
  · exact absurd (hdigit '2' (by rw [h]; rfl)) (by decide)

theorem run_dash {β : Type} {k : Pos → Captures → Option β} {c : Captures} {u v : List Char} {y : Nat}
    {b : β} (hy : IsYear y) (hu : ∀ y ∈ u, isSpace y = true) (hv : ∀ y ∈ v, isSpace y = true)
    (hk : k ⟨false, s⟩ (Function.update c 2 (Nat.toDigits 10 y)) = some b) :
    run (concat [.star space, .char (· = '-'), .star space, .group 2 Header.year])
      ⟨first, u ++ '-' :: (v ++ (Nat.toDigits 10 y ++ s))⟩ c k = some b := by
  obtain ⟨x, xs, hdigits, -, hblank⟩ := toDigits_head hy
  rw [concat, run_seq]
  refine run_star_char_append hu ?_
  rw [run_star_char_stop fun z hz => by cases hz; decide]
  simp only [concat, run_seq, run_char_cons, decide_true, if_true]
  refine run_star_char_append hv ?_
  rw [run_star_char_stop fun z hz => by rw [hdigits] at hz; cases hz; exact hblank]
  simp only [run_group, run_year hy, take_front, run_empty, hk]

theorem find_year (first : Bool) {y : Nat} (hy : IsYear y) (hs : NoRange s) :
    ∃ f, find Header.yearRegexp first (Nat.toDigits 10 y ++ s) = some f ∧ Reads f ⟨y, none⟩ s := by
  obtain ⟨x, xs, hdigits, -⟩ := toDigits_head hy
  let c : Captures := Function.update (fun _ => []) 1 (Nat.toDigits 10 y)
  refine ⟨⟨[], Function.update c 0 (Nat.toDigits 10 y), s⟩, find_of_run ?_, ?_, ?_, rfl⟩
  · simp only [Header.yearRegexp, run_group, run_seq, run_year hy, opt, run_alt, run_dash_none hs,
      run_empty, Option.none_or, take_front]
    rfl
  · simp [hdigits]
  · simp [Header.yearRange, Span.years, stoi_toDigits, c]

theorem find_range (first : Bool) {y z : Nat} {u v : List Char} (hy : IsYear y) (hz : IsYear z)
    (hu : ∀ y ∈ u, isSpace y = true) (hv : ∀ y ∈ v, isSpace y = true) :
    ∃ f, find Header.yearRegexp first
      (Nat.toDigits 10 y ++ (u ++ '-' :: (v ++ (Nat.toDigits 10 z ++ s)))) = some f ∧
      Reads f ⟨y, some z⟩ s := by
  obtain ⟨x, xs, hdigits, -⟩ := toDigits_head hy
  obtain ⟨x', xs', hdigits', -⟩ := toDigits_head hz
  let c : Captures := Function.update (fun _ => []) 1 (Nat.toDigits 10 y)
  have hall := take_front (Nat.toDigits 10 y ++ (u ++ '-' :: (v ++ Nat.toDigits 10 z))) s
  simp only [List.append_assoc, List.cons_append] at hall
  refine ⟨⟨[], Function.update (Function.update c 2 (Nat.toDigits 10 z)) 0
    (Nat.toDigits 10 y ++ (u ++ '-' :: (v ++ Nat.toDigits 10 z))), s⟩, find_of_run ?_, ?_, ?_, rfl⟩
  · simp only [Header.yearRegexp, run_group, run_seq, run_year hy, opt, run_alt, take_front]
    rw [Option.or_eq_some_iff]
    refine .inl (run_dash hz hu hv ?_)
    simp only [hall]
    rfl
  · simp [hdigits]
  · have hend : (Nat.toDigits 10 z).isEmpty = false := by rw [hdigits']; rfl
    simp [Header.yearRange, Span.years, stoi_toDigits, c, hend]

theorem find_skip (first : Bool) {l after : List Char} {t : Span} (hl : ∀ x ∈ l, x.isDigit = false)
    (h : ∀ first, ∃ f, find Header.yearRegexp first s = some f ∧ Reads f t after) :
    ∃ f, find Header.yearRegexp first (l ++ s) = some f ∧ Reads f t after := by
  induction l generalizing first with
  | nil => exact h first
  | cons x l ih =>
      obtain ⟨hx, hl⟩ := List.forall_mem_cons.mp hl
      obtain ⟨f, hfind, hreads⟩ := ih false hl
      have hnone : ∀ {k : Pos → Captures → Option Found} {c : Captures},
          run (.group 0 Header.yearRegexp) ⟨first, x :: (l ++ s)⟩ c k = none := by
        intro k c
        refine run_year_fail fun y hy => ?_
        cases hy
        exact hx
      refine ⟨{ f with before := x :: f.before }, ?_, hreads.nonempty, hreads.years, hreads.after⟩
      rw [List.cons_append, find, hnone]
      simp [hfind]

/-- The years that are read from a list: a dash joins two of them to a range. -/
def itemYears : List Item → List Nat
  | [] => []
  | [i] => [i.year]
  | i :: j :: items =>
      if '-' ∈ i.separator then List.range' i.year (j.year + 1 - i.year) ++ itemYears items
      else i.year :: itemYears (j :: items)

theorem isDigit_of_isSpace {x : Char} (h : isSpace x = true) : x.isDigit = false := by
  cases hx : x.isDigit with
  | false => rfl
  | true =>
      rw [isSpace_of_isDigit hx] at h
      cases h

section Separator
variable {separator : List Char}

theorem IsSeparator.front {t : List Char} (h : IsSeparator separator (s ++ t)) :
    IsSeparator separator s := by
  have hhead : ∀ x, s.head? = some x → (s ++ t).head? = some x := fun x hx => by
    rw [List.head?_append, hx]
    rfl
  refine ⟨fun x hx => h.notBlank x (hhead x hx), h.form.imp_right ?_⟩
  rintro ⟨hne, hblank, hother⟩
  exact ⟨hne, hblank, fun x hx => hother x (hhead x hx)⟩

theorem IsSeparator.noDigit (h : IsSeparator separator s) : ∀ x ∈ separator, x.isDigit = false := by
  rcases h.form with ⟨u, x, v, rfl, hx, hu, hv⟩ | ⟨-, hblank, -⟩
  · refine List.forall_mem_append.mpr ⟨fun y hy => isDigit_of_isSpace (hu y hy),
      List.forall_mem_cons.mpr ⟨?_, fun y hy => isDigit_of_isSpace (hv y hy)⟩⟩
    rcases hx with rfl | rfl <;> decide
  · exact fun y hy => isDigit_of_isSpace (hblank y hy)

theorem not_mem_spaces {u : List Char} (hu : ∀ y ∈ u, isSpace y = true) : '-' ∉ u := fun h =>
  absurd (hu '-' h) (by decide)

theorem IsSeparator.dash (h : IsSeparator separator s) (hdash : '-' ∈ separator) :
    ∃ u v, separator = u ++ '-' :: v ∧ (∀ y ∈ u, isSpace y = true) ∧
      ∀ y ∈ v, isSpace y = true := by
  rcases h.form with ⟨u, x, v, rfl, rfl | rfl, hu, hv⟩ | ⟨-, hblank, -⟩
  · simp [not_mem_spaces hu, not_mem_spaces hv] at hdash
  · exact ⟨u, v, rfl, hu, hv⟩
  · exact absurd hdash (not_mem_spaces hblank)

theorem IsSeparator.noRange (h : IsSeparator separator s) (hdash : '-' ∉ separator ∨ s = []) :
    NoRange (separator ++ s) := by
  intro u v r heq hu hv
  rcases h.form with ⟨u', x, v', rfl, hx, hu', hv'⟩ | ⟨-, hblank, hother⟩
  · rw [List.append_assoc, List.cons_append] at heq
    obtain ⟨rfl, rfl, hrest⟩ := spaces_append_inj hu' hu (isSpace_of_comma_or_dash hx) (by decide) heq
    rcases hdash with hdash | rfl
    · simp at hdash
    · rw [List.append_nil] at hrest
      have hmem : ∀ z ∈ r, z ∈ v' := fun z hz => hrest ▸ List.mem_append_right v hz
      exact fun z hz => isDigit_of_isSpace (hv' z (hmem z (List.mem_of_head? hz)))
  · have hdrop := congrArg (List.dropWhile isSpace) heq
    rw [List.dropWhile_append_of_pos hblank, List.dropWhile_append_of_pos hu,
      List.dropWhile_cons_of_neg (by decide)] at hdrop
    cases s with
    | nil => cases hdrop
    | cons z s =>
        rw [List.dropWhile_cons_of_neg (by simp [h.notBlank z rfl])] at hdrop
        obtain ⟨rfl, -⟩ := List.cons.inj hdrop
        exact absurd rfl (hother '-' rfl).2

end Separator

theorem Separated.alone {items : List Item} (h : Separated items s) : Separated items [] := by
  induction items with
  | nil => trivial
  | cons i items ih =>
      obtain ⟨hyear, hsep, hitems⟩ := h
      exact ⟨hyear, by simpa using hsep.front, ih hitems⟩

theorem findAll_eq_nil {l : List Char} {n : Nat} (hl : ∀ x ∈ l, x.isDigit = false) :
    (findAll Header.yearRegexp n first l).1 = [] := by
  have hfind : find Header.yearRegexp first l = none := by
    induction l generalizing first with
    | nil => cases first <;> decide +kernel
    | cons x l ih =>
        obtain ⟨hx, hl⟩ := List.forall_mem_cons.mp hl
        have hnone : ∀ {k : Pos → Captures → Option Found} {c : Captures},
            run (.group 0 Header.yearRegexp) ⟨first, x :: l⟩ c k = none := by
          intro k c
          refine run_year_fail fun y hy => ?_
          cases hy
          exact hx
        rw [find, hnone]
        simp [ih hl]
  cases n with
  | zero => rfl
  | succ n => simp only [findAll, hfind]

/-- One year or range is read, and then what is behind it. -/
theorem findAll_step (first : Bool) {l after : List Char} {t : Span} {n : Nat}
    (hl : ∀ x ∈ l, x.isDigit = false)
    (h : ∀ first, ∃ f, find Header.yearRegexp first s = some f ∧ Reads f t after) :
    (findAll Header.yearRegexp (n + 1) first (l ++ s)).1.flatMap Header.yearRange =
      t.years ++ (findAll Header.yearRegexp n false after).1.flatMap Header.yearRange := by
  obtain ⟨f, hfind, hreads⟩ := find_skip first hl h
  rw [findAll_found hfind hreads.nonempty, List.flatMap_cons, hreads.years, hreads.after]

/-- The iterator reads the years of a list one after the other. -/
theorem findAll_items (first : Bool) {items : List Item} {l : List Char} {n : Nat}
    (h : Separated items []) (hl : ∀ x ∈ l, x.isDigit = false)
    (hn : (l ++ itemsText items).length ≤ n) :
    (findAll Header.yearRegexp n first (l ++ itemsText items)).1.flatMap Header.yearRange =
      itemYears items := by
  have hsucc : ∀ {i items l n}, (l ++ itemsText (i :: items)).length ≤ n → ∃ m, n = m + 1 ∧
      (i.separator ++ itemsText items).length ≤ m := by
    intro i items l n hn
    obtain ⟨x, xs, hdigits⟩ := List.exists_cons_of_ne_nil (l := Nat.toDigits 10 i.year) (by simp)
    simp only [itemsText, List.flatMap_cons, hdigits, List.length_append, List.length_cons] at hn ⊢
    exact ⟨n - 1, by omega, by omega⟩
  induction items using itemYears.induct generalizing first l n with
  | case1 =>
      rw [itemsText, List.flatMap_nil, List.append_nil, findAll_eq_nil hl]
      rfl
  | case2 i =>
      obtain ⟨hyear, hsep, -⟩ := h
      have hsep : IsSeparator i.separator [] := hsep
      obtain ⟨m, rfl, -⟩ := hsucc hn
      have htext : itemsText [i] = Nat.toDigits 10 i.year ++ (i.separator ++ []) := by simp [itemsText]
      rw [htext, findAll_step first hl fun first => find_year first hyear (hsep.noRange (.inr rfl)),
        List.append_nil, findAll_eq_nil hsep.noDigit]
      rfl
  | case3 i j items hdash ih =>
      obtain ⟨hi, hsep, hj, hsep', hitems⟩ := h
      obtain ⟨m, rfl, hm⟩ := hsucc hn
      obtain ⟨u, v, hsplit, hu, hv⟩ := hsep.dash hdash
      have htext : itemsText (i :: j :: items) = Nat.toDigits 10 i.year ++ (u ++ '-' ::
          (v ++ (Nat.toDigits 10 j.year ++ (j.separator ++ itemsText items)))) := by
        simp [itemsText, hsplit]
      have hle : (j.separator ++ itemsText items).length ≤ m := by
        simp only [itemsText, List.flatMap_cons, List.length_append] at hm ⊢
        omega
      rw [htext, findAll_step first hl fun first => find_range first hi hj hu hv,
        ih false hitems hsep'.noDigit hle, itemYears, if_pos hdash]
      rfl
  | case4 i j items hdash ih =>
      obtain ⟨hi, hsep, hitems⟩ := h
      obtain ⟨m, rfl, hm⟩ := hsucc hn
      have htext : itemsText (i :: j :: items) =
          Nat.toDigits 10 i.year ++ (i.separator ++ (itemsText (j :: items) ++ [])) := by
        simp [itemsText]
      rw [htext, findAll_step first hl fun first => find_year first hi (hsep.noRange (.inl hdash)),
        List.append_nil, ih false hitems hsep.noDigit hm, itemYears, if_neg hdash]
      rfl

end Iterate

/-! ### The printed years are such a list -/

def Span.items (t : Span) (separator : List Char) : List Item :=
  match t.stop with
  | none => [⟨t.start, separator⟩]
  | some stop => [⟨t.start, " - ".toList⟩, ⟨stop, separator⟩]

def spanItems : List Span → List Item
  | [] => []
  | [t] => t.items "  ".toList
  | t :: u :: spans => t.items ", ".toList ++ spanItems (u :: spans)

section Spans
variable {spans : List Span} {s : List Char}

theorem Span.itemsText_items (t : Span) (separator : List Char) :
    itemsText (t.items separator) = t.text ++ separator := by
  obtain ⟨start, stop⟩ := t
  cases stop with
  | none => simp [itemsText, items, text]
  | some stop => simp [itemsText, items, text]

theorem itemsText_spanItems (hne : spans ≠ []) :
    itemsText (spanItems spans) = spansText spans ++ "  ".toList := by
  fun_induction spanItems spans with
  | case1 => exact absurd rfl hne
  | case2 t => exact t.itemsText_items _
  | case3 t u spans ih =>
      have happend : itemsText (t.items ", ".toList ++ spanItems (u :: spans)) =
          itemsText (t.items ", ".toList) ++ itemsText (spanItems (u :: spans)) := List.flatMap_append
      rw [happend, t.itemsText_items, ih (List.cons_ne_nil u spans), spansText]
      simp

theorem itemYears_cons {i : Item} {items : List Item} (h : '-' ∉ i.separator) :
    itemYears (i :: items) = i.year :: itemYears items := by
  cases items with
  | nil => rfl
  | cons j items => rw [itemYears, if_neg h]

theorem Span.itemYears_items (t : Span) {separator : List Char} (h : '-' ∉ separator)
    (items : List Item) : itemYears (t.items separator ++ items) = t.years ++ itemYears items := by
  obtain ⟨start, stop⟩ := t
  cases stop with
  | none => exact itemYears_cons h
  | some stop =>
      have hdash : '-' ∈ " - ".toList := by decide
      show itemYears (⟨start, " - ".toList⟩ :: ⟨stop, separator⟩ :: items) = _
      rw [itemYears, if_pos hdash]
      rfl

theorem itemYears_spanItems (spans : List Span) :
    itemYears (spanItems spans) = spans.flatMap Span.years := by
  fun_induction spanItems spans with
  | case1 => rfl
  | case2 t =>
      have hone : itemYears (t.items "  ".toList ++ []) = t.years ++ itemYears [] :=
        t.itemYears_items (by decide) []
      simpa [itemYears] using hone
  | case3 t u spans ih =>
      rw [t.itemYears_items (by decide), ih]
      rfl

theorem itemsText_head {i : Item} (items : List Item) (hi : IsYear i.year) :
    ∃ z zs, itemsText (i :: items) ++ s = z :: zs ∧ z.isDigit = true ∧ isSpace z = false := by
  obtain ⟨z, zs, hdigits, hz⟩ := toDigits_head hi
  exact ⟨z, zs ++ (i.separator ++ (itemsText items ++ s)), by rw [itemsText_cons, hdigits]; rfl, hz⟩

theorem isSeparator_of_year {u v : List Char} {x : Char} {i : Item} {items : List Item}
    (hi : IsYear i.year) (hx : x = ',' ∨ x = '-') (hu : ∀ y ∈ u, isSpace y = true)
    (hv : ∀ y ∈ v, isSpace y = true) : IsSeparator (u ++ x :: v) (itemsText (i :: items) ++ s) := by
  refine ⟨fun y hy => ?_, .inl ⟨u, x, v, rfl, hx, hu, hv⟩⟩
  obtain ⟨z, zs, htext, -, hz⟩ := itemsText_head items hi
  rw [htext] at hy
  cases hy
  exact hz

theorem Span.separated_items {t : Span} {separator : List Char} {items : List Item} (ht : t.Valid)
    (hsep : IsSeparator separator (itemsText items ++ s)) (hitems : Separated items s) :
    Separated (t.items separator ++ items) s := by
  obtain ⟨start, stop⟩ := t
  cases stop with
  | none => exact ⟨ht.1, hsep, hitems⟩
  | some stop =>
      have hstop := ht.2 stop rfl
      exact ⟨ht.1, isSeparator_of_year (u := [' ']) (v := [' ']) hstop (.inr rfl) (by decide)
        (by decide), hstop, hsep, hitems⟩

theorem spanItems_cons {t : Span} (ht : t.Valid) (spans : List Span) :
    ∃ i items, spanItems (t :: spans) = i :: items ∧ IsYear i.year := by
  have hitems : ∀ separator, ∃ i items, t.items separator = i :: items ∧ IsYear i.year := by
    intro separator
    obtain ⟨start, stop⟩ := t
    cases stop with
    | none => exact ⟨_, _, rfl, ht.1⟩
    | some stop => exact ⟨_, _, rfl, ht.1⟩
  cases spans with
  | nil => exact hitems _
  | cons u spans =>
      obtain ⟨i, items, heq, hi⟩ := hitems ", ".toList
      exact ⟨i, items ++ spanItems (u :: spans), by rw [spanItems, heq]; rfl, hi⟩

theorem separated_spanItems (hvalid : ∀ t ∈ spans, t.Valid)
    (hs : ∀ x, s.head? = some x → isSpace x = false ∧ x ≠ ',' ∧ x ≠ '-') :
    Separated (spanItems spans) s := by
  fun_induction spanItems spans with
  | case1 => trivial
  | case2 t =>
      have ht := hvalid t (List.mem_singleton_self t)
      have hsep : IsSeparator "  ".toList s :=
        ⟨fun x hx => (hs x hx).1, .inr ⟨by decide, by decide, fun x hx => (hs x hx).2⟩⟩
      have hone : Separated (t.items "  ".toList ++ []) s := Span.separated_items ht hsep trivial
      rwa [List.append_nil] at hone
  | case3 t u spans ih =>
      obtain ⟨ht, hspans⟩ := List.forall_mem_cons.mp hvalid
      refine Span.separated_items ht ?_ (ih hspans)
      obtain ⟨i, items, heq, hi⟩ := spanItems_cons (hspans u (List.mem_cons_self ..)) spans
      rw [heq]
      exact isSeparator_of_year (u := []) (v := [' ']) hi (.inl rfl) (by decide) (by decide)

end Spans

end RewriteHeader
