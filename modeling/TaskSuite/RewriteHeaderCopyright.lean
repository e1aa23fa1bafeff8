import TaskSuite.RewriteHeaderYears

/-! The copyright line: `decode_copyright_line` reads the years and the author
from it that `print_on` has written. -/
namespace RewriteHeader
open Regex

section Copyright
variable {s t : List Char}

/-- The word that `decode_copyright_line` looks for, and a space. -/
def Mark (s : List Char) : Prop :=
  ∃ x y : Char, (x = 'C' ∨ x = 'c') ∧ isSpace y = true ∧ x :: ("opyright".toList ++ [y]) <+: s

def NoMark (s : List Char) : Prop := ∀ t, t <:+ s → ¬ Mark t

theorem NoMark.cons {x : Char} (hs : NoMark s) (h : ¬ Mark (x :: s)) : NoMark (x :: s) := by
  intro t ht
  rcases List.suffix_cons_iff.mp ht with rfl | ht
  · exact h
  · exact hs t ht

theorem NoMark.append (hs : NoMark s) (h : ∀ x ∈ t, x ≠ 'C' ∧ x ≠ 'c') : NoMark (t ++ s) := by
  induction t with
  | nil => exact hs
  | cons x t ih =>
      obtain ⟨hx, ht⟩ := List.forall_mem_cons.mp h
      refine (ih ht).cons ?_
      rintro ⟨z, y, hz, -, hpre⟩
      obtain ⟨rfl, -⟩ := List.cons_prefix_cons.mp hpre
      exact hz.elim hx.1 hx.2

theorem digits_ne {y : Nat} {x : Char} (h : x ∈ Nat.toDigits 10 y) : x ≠ 'C' ∧ x ≠ 'c' := by
  have hx := Nat.isDigit_of_mem_toDigits (by decide) (by decide) h
  constructor
  · rintro rfl
    revert hx
    decide
  · rintro rfl
    revert hx
    decide

theorem Span.text_ne (t : Span) : ∀ x ∈ t.text, x ≠ 'C' ∧ x ≠ 'c' := by
  intro x hx
  cases hstop : t.stop with
  | none =>
      rw [Span.text, hstop] at hx
      exact digits_ne hx
  | some stop =>
      simp only [Span.text, hstop, List.mem_append] at hx
      rcases hx with hx | hx | hx
      · exact digits_ne hx
      · revert x
        decide
      · exact digits_ne hx

theorem spansText_ne (spans : List Span) : ∀ x ∈ spansText spans, x ≠ 'C' ∧ x ≠ 'c' := by
  fun_induction spansText spans with
  | case1 => exact nofun
  | case2 t => exact t.text_ne
  | case3 t u spans ih =>
      refine List.forall_mem_append.mpr ⟨t.text_ne, List.forall_mem_append.mpr ⟨by decide, ih⟩⟩

theorem copyrightLineRegexp_eq : Header.copyrightLineRegexp =
    .seq (.star dot) (concat [oneOf ['C', 'c'], literal "opyright".toList, plus space,
      .star nonDigit, .group 1 (.star yearAtom), .group 2 (.star dot)]) := rfl

theorem run_mark_eq_none {β : Type} {k : Pos → Captures → Option β} {c : Captures} {first : Bool}
    {rs : List Regex} (h : ¬ Mark s) :
    run (concat (oneOf ['C', 'c'] :: literal "opyright".toList :: plus space :: rs)) ⟨first, s⟩ c k =
      none := by
  refine run_eq_none fun pos' c' hm => absurd ?_ h
  obtain ⟨pos₁, c₁, ⟨x, hx, hC, -⟩, pos₂, c₂, hword, pos₃, c₃, hspaces, -⟩ := hm
  obtain ⟨pos₄, c₄, ⟨y, hy, hspace, -⟩, -⟩ := hspaces
  refine ⟨x, y, by simpa using hC, hspace, pos₄.rest, ?_⟩
  rw [List.cons_append, List.append_assoc, List.singleton_append, ← hy, ← (matches_literal.mp hword).1]
  exact hx.symm

theorem run_mark {β : Type} {k : Pos → Captures → Option β} {c : Captures} {first : Bool}
    {rs : List Regex} {x y : Char} (hx : x = 'C' ∨ x = 'c') (hy : isSpace y = true) :
    run (concat (oneOf ['C', 'c'] :: literal "opyright".toList :: plus space :: rs))
      ⟨first, x :: ("opyright".toList ++ y :: s)⟩ c k =
      run (.star space) ⟨false, s⟩ c fun pos c => run (concat rs) pos c k := by
  simp only [concat, run_seq, oneOf, run_char_cons]
  rw [if_pos (by simpa using hx), run_literal]
  simp only [plus, run_seq, space, run_char_cons]
  rw [if_pos hy]

/-- The years and the author of a copyright line: a list of years is read that
starts with the first digit behind the last place where the word stands. -/
theorem copyrightLineRegexp_items {pre mid a : List Char} {x y : Char} {items : List Item}
    (hpre : OneLine pre) (hx : x = 'C' ∨ x = 'c') (hy : isSpace y = true)
    (hmid : ∀ z ∈ mid, z.isDigit = false)
    (hdigit : ∀ z, (itemsText items ++ a).head? = some z → z.isDigit = true)
    (hitems : Separated items a) (ha : ¬ StartsYear a) (hline : OneLine a)
    (hlast : NoMark ("opyright".toList ++ y :: (mid ++ (itemsText items ++ a)))) :
    regexMatch Header.copyrightLineRegexp
      (pre ++ x :: ("opyright".toList ++ y :: (mid ++ (itemsText items ++ a)))) =
      some (Function.update (Function.update (fun _ => []) 1 (itemsText items)) 2 a) := by
  have hdot : (decide (x ≠ '\n' ∧ x ≠ '\r')) = true := by rcases hx with rfl | rfl <;> decide
  rw [regexMatch, copyrightLineRegexp_eq, run_seq]
  refine run_star_char_append (by simpa [OneLine] using hpre) ?_
  rw [run_star_char_cons, if_pos hdot, run_star_char_none fun t ht => run_mark_eq_none (hlast t ht),
    Option.none_or, run_mark hx hy]
  -- the spaces behind the word, and then what else stands in front of the first digit
  obtain ⟨u, v, rfl, hu, hv⟩ : ∃ u v, mid = u ++ v ∧ (∀ z ∈ u, isSpace z = true) ∧
      ∀ z, v.head? = some z → isSpace z = false := by
    refine ⟨mid.takeWhile isSpace, mid.dropWhile isSpace, List.takeWhile_append_dropWhile.symm,
      fun z hz => List.mem_takeWhile_imp hz, fun z hz => ?_⟩
    simpa [hz] using List.head?_dropWhile_not isSpace mid
  rw [List.append_assoc]
  refine run_star_char_append hu ?_
  rw [run_star_char_stop fun z hz => ?_]
  · refine run_star_char_append (fun z hz => by simp [hmid z (List.mem_append_right u hz)]) ?_
    rw [run_star_char_stop fun z hz => by simp [hdigit z hz]]
    refine run_items hitems ha fun first => ?_
    refine (run_line hline).trans ?_
    simp only [take_front]
  · rw [List.head?_append] at hz
    cases hhead : v.head? with
    | none =>
        rw [hhead] at hz
        exact isSpace_of_isDigit (hdigit z hz)
    | some w =>
        rw [hhead] at hz
        cases hz
        exact hv _ hhead

theorem decodeCopyrightLine_items {pre mid a : List Char} {x y : Char} {items : List Item}
    {found : Header} (hpre : OneLine pre) (hx : x = 'C' ∨ x = 'c') (hy : isSpace y = true)
    (hmid : ∀ z ∈ mid, z.isDigit = false)
    (hdigit : ∀ z, (itemsText items ++ a).head? = some z → z.isDigit = true)
    (hitems : Separated items a) (ha : ¬ StartsYear a) (hline : OneLine a)
    (hlast : NoMark ("opyright".toList ++ y :: (mid ++ (itemsText items ++ a)))) :
    found.decodeCopyrightLine
      (pre ++ x :: ("opyright".toList ++ y :: (mid ++ (itemsText items ++ a)))) =
      { found with
        copyrightYears := found.copyrightYears ++ itemYears items
        author := a.rdropWhile fun x => x = ' ' ∨ x = '.' } := by
  have hread : (regexIterator Header.yearRegexp (itemsText items)).flatMap Header.yearRange =
      itemYears items := findAll_items true (l := []) hitems.alone nofun le_rfl
  rw [Header.decodeCopyrightLine,
    copyrightLineRegexp_items hpre hx hy hmid hdigit hitems ha hline hlast]
  simp only [Function.update_self, Function.update_of_ne (show 1 ≠ 2 by decide), hread]

theorem noMark_printed (spans : List Span) (hmark : NoMark s) :
    NoMark ("opyright".toList ++ ' ' :: ("(C) ".toList ++ (spansText spans ++ ("  ".toList ++ s)))) := by
  have hyears : NoMark (") ".toList ++ (spansText spans ++ ("  ".toList ++ s))) :=
    ((hmark.append (by decide)).append (spansText_ne spans)).append (by decide)
  refine (hyears.cons (x := 'C') ?_).append (t := "opyright (".toList) (by decide)
  rintro ⟨x, y, -, -, hpre⟩
  obtain ⟨-, hpre⟩ := List.cons_prefix_cons.mp hpre
  have ho : 'o' = ')' := (List.cons_prefix_cons.mp hpre).1
  revert ho
  decide

end Copyright

/-! ### The author -/

section Author
variable {a s : List Char}

structure IsAuthor (a : List Char) : Prop where
  noMark : NoMark a
  noYear : ¬ StartsYear a
  notBlank : ∀ x, a.head? = some x → isSpace x = false

theorem IsAuthor.front (h : IsAuthor s) (ha : a <+: s) : IsAuthor a := by
  obtain ⟨r, rfl⟩ := ha
  refine ⟨fun t ht hmark => ?_, fun hyear => ?_, fun x hx => ?_⟩
  · obtain ⟨x, y, hx, hy, hpre⟩ := hmark
    obtain ⟨l, rfl⟩ := ht
    exact h.noMark (t ++ r) ⟨l, (List.append_assoc ..).symm⟩
      ⟨x, y, hx, hy, hpre.trans (List.prefix_append t r)⟩
  · obtain ⟨x, y, w, hx, hy, hw, hpre⟩ := hyear
    exact h.noYear ⟨x, y, w, hx, hy, hw, hpre.imp (·.trans (List.prefix_append a r))
      (·.trans (List.prefix_append a r))⟩
  · refine h.notBlank x ?_
    rw [List.head?_append, hx]
    rfl

/-- The period that is written behind the author changes nothing. -/
theorem IsAuthor.concat (h : IsAuthor a) : NoMark (a ++ ['.']) ∧ ¬ StartsYear (a ++ ['.']) := by
  have hdot : ∀ {p t : List Char}, '.' ∉ p → p <+: t ++ ['.'] → p <+: t := by
    intro p t hp hpre
    rcases List.prefix_concat_iff.mp hpre with rfl | hpre
    · exact absurd (List.mem_append_right t (List.mem_singleton_self '.')) hp
    · exact hpre
  have hdigit : ∀ {x : Char}, x.isDigit = true → '.' ≠ x := by
    rintro x hx rfl
    revert hx
    decide
  have hspace : ∀ {x : Char}, isSpace x = true → '.' ≠ x := by
    rintro x hx rfl
    revert hx
    decide
  refine ⟨fun t ht hmark => ?_, fun hyear => h.noYear ?_⟩
  · obtain ⟨x, y, hx, hy, hpre⟩ := hmark
    rcases List.suffix_concat_iff.mp ht with rfl | ⟨u, rfl, hu⟩
    · simp at hpre
    · refine h.noMark u hu ⟨x, y, hx, hy, hdot ?_ hpre⟩
      rcases hx with rfl | rfl <;> simp [hspace hy]
  · obtain ⟨x, y, w, hx, hy, hw, hpre⟩ := hyear
    have hsep : '.' ≠ w := by
      rcases hw with hw | rfl | rfl
      · exact hspace hw
      · decide
      · decide
    refine ⟨x, y, w, hx, hy, hw, hpre.imp (hdot ?_) (hdot ?_)⟩ <;>
      simp [hdigit hx, hdigit hy, hsep]

theorem run_separator_some {β : Type} {k : Pos → Captures → Option β} {c : Captures} {b : β}
    (hk : ∀ first t, t <:+ s → k ⟨first, t⟩ c ≠ none)
    (h : run (.alt (concat [.star space, oneOf [',', '-'], .star space]) (plus space))
      ⟨false, s⟩ c k = some b) :
    ∃ first t, t <:+ s ∧ (∀ x, t.head? = some x → isSpace x = false) ∧ k ⟨first, t⟩ c = some b := by
  have hspaces : ∀ {pos : Pos}, pos.rest <:+ s → run (.star space) pos c k = some b →
      ∃ first t, t <:+ s ∧ (∀ x, t.head? = some x → isSpace x = false) ∧
        k ⟨first, t⟩ c = some b := by
    intro pos hpos hrun
    have ht : pos.rest.dropWhile isSpace <:+ s := (List.dropWhile_suffix _).trans hpos
    obtain ⟨first, heq⟩ := run_star_char_dropWhile hrun fun first => hk first _ ht
    refine ⟨first, _, ht, fun x hx => ?_, heq⟩
    simpa [hx] using List.head?_dropWhile_not isSpace pos.rest
  rw [run_alt, Option.or_eq_some_iff] at h
  rcases h with hcomma | ⟨-, hblank⟩
  · simp only [concat, run_seq, run_empty] at hcomma
    obtain ⟨first, t, ht, hone⟩ := run_star_char_some hcomma
    obtain ⟨pos, c', ⟨x, hx, -, -, rfl⟩, hend⟩ := run_sound hone
    exact hspaces (List.IsSuffix.trans ⟨[x], hx.symm⟩ ht) hend
  · rw [plus, run_seq] at hblank
    obtain ⟨pos, c', ⟨x, hx, -, -, rfl⟩, hend⟩ := run_sound hblank
    exact hspaces ⟨[x], hx.symm⟩ hend

/-- The years end where no further one stands, and not in front of spaces. -/
theorem run_years_some {β : Type} {k : Pos → Captures → Option β} {c : Captures} {b : β}
    {first : Bool} (hk : ∀ first t, t <:+ s → k ⟨first, t⟩ c ≠ none)
    (hs : ∀ x, s.head? = some x → isSpace x = false)
    (h : run (.star yearAtom) ⟨first, s⟩ c k = some b) :
    ∃ first t, t <:+ s ∧ ¬ StartsYear t ∧ (∀ x, t.head? = some x → isSpace x = false) ∧
      k ⟨first, t⟩ c = some b := by
  induction hlen : s.length using Nat.strong_induction_on generalizing s first with
  | _ n ih =>
      rw [run_star, Option.orElse_eq_or, Option.or_eq_some_iff] at h
      rcases h with hround | ⟨hnone, hstop⟩
      · rw [yearAtom, run_seq] at hround
        obtain ⟨⟨_, r⟩, _, hyear, hsep⟩ := run_sound hround
        obtain ⟨a, d, -, -, hrest, rfl, rfl⟩ := matches_year hyear
        have hr : r <:+ s ∧ r.length < s.length := by
          rcases hrest with rfl | rfl <;>
            exact ⟨List.suffix_append [_, _, _, _] r, by simp; omega⟩
        have hlt : ∀ {t}, t <:+ r → t.length < s.length := fun ht =>
          Nat.lt_of_le_of_lt ht.length_le hr.2
        obtain ⟨first', t, ht, hblank, hmore⟩ := run_separator_some (fun first t ht => by
          rw [if_pos (hlt ht)]
          exact run_star_ne_none (hk _ _ (ht.trans hr.1))) hsep
        rw [if_pos (hlt ht)] at hmore
        have hts := ht.trans hr.1
        obtain ⟨first'', u, hu, hrest⟩ := ih t.length (hlen ▸ hlt ht)
          (fun first u hu => hk first u (hu.trans hts)) hblank hmore rfl
        exact ⟨first'', u, hu.trans hts, hrest⟩
      · refine ⟨first, s, List.suffix_rfl, fun hyear => ?_, hs, hstop⟩
        obtain ⟨t, ht, hlt, hm⟩ := matches_yearAtom first c hyear
        refine run_complete hm ?_ hnone
        rw [if_pos hlt]
        exact run_star_ne_none (hk _ _ ht)

theorem run_rest_ne_none {c : Captures} {first : Bool} (hs : OneLine s) :
    run (concat [.group 1 (.star yearAtom), .group 2 (.star dot)]) ⟨first, s⟩ c
      (fun pos c => if pos.rest.isEmpty then some c else none) ≠ none := by
  refine run_star_ne_none ?_
  simp only [run_line hs, ne_eq, reduceCtorEq, not_false_eq_true]

theorem author_of_rest {c sm : Captures} {first : Bool} (hs : OneLine s)
    (h : run (concat [.star nonDigit, .group 1 (.star yearAtom), .group 2 (.star dot)]) ⟨first, s⟩ c
      (fun pos c => if pos.rest.isEmpty then some c else none) = some sm) :
    sm 2 <:+ s ∧ ¬ StartsYear (sm 2) ∧ ∀ x, (sm 2).head? = some x → isSpace x = false := by
  have hdigits : s.dropWhile (fun x => !x.isDigit) <:+ s := List.dropWhile_suffix _
  obtain ⟨first₁, hyears⟩ := run_star_char_dropWhile h fun first =>
    run_rest_ne_none (hs.of_suffix hdigits)
  have hdigit : ∀ x, (s.dropWhile fun x => !x.isDigit).head? = some x → isSpace x = false := by
    intro x hx
    refine isSpace_of_isDigit ?_
    simpa [hx] using List.head?_dropWhile_not (fun x : Char => !x.isDigit) s
  obtain ⟨first₂, t, ht, hyear, hblank, hend⟩ := run_years_some (fun first t ht => by
    simp only [run_line (hs.of_suffix (ht.trans hdigits)), ne_eq, reduceCtorEq, not_false_eq_true])
    hdigit hyears
  cases (run_line (hs.of_suffix (ht.trans hdigits))).symm.trans hend
  rw [Function.update_self]
  exact ⟨ht.trans hdigits, hyear, hblank⟩

/-- What the regex leaves for the author. -/
theorem isAuthor_of_match {text : Line} {sm : Captures} (htext : OneLine text)
    (h : regexMatch Header.copyrightLineRegexp text = some sm) : IsAuthor (sm 2) := by
  rw [regexMatch, copyrightLineRegexp_eq, run_seq] at h
  obtain ⟨t, first, ht, hword, hlast⟩ := run_star_char_last (by simpa [OneLine] using htext) h
  have ht' := htext.of_suffix ht
  have hmark : ∀ u, u <:+ t → u ≠ t → ¬ Mark u := by
    rintro u hu hne ⟨x, y, hx, hy, r, rfl⟩
    have hr : OneLine r := ht'.of_suffix ((List.suffix_append _ r).trans hu)
    have hnone := hlast _ hu hne
    rw [List.cons_append, List.append_assoc, List.singleton_append, run_mark hx hy] at hnone
    refine run_star_ne_none ?_ hnone
    exact run_star_ne_none (run_rest_ne_none hr)
  obtain ⟨x, y, hx, hy, r, rfl⟩ : Mark t := by
    by_contra hnot
    rw [run_mark_eq_none hnot] at hword
    cases hword
  have hr : OneLine r := ht'.of_suffix (List.suffix_append _ r)
  rw [List.cons_append, List.append_assoc, List.singleton_append, run_mark hx hy] at hword
  have hspaces : r.dropWhile isSpace <:+ r := List.dropWhile_suffix _
  obtain ⟨first₁, hrest⟩ := run_star_char_dropWhile hword fun first =>
    run_star_ne_none (run_rest_ne_none (hr.of_suffix hspaces))
  obtain ⟨hsuffix, hyear, hblank⟩ := author_of_rest (hr.of_suffix hspaces) hrest
  refine ⟨fun u hu => hmark u ?_ ?_, hyear, hblank⟩
  · exact (hu.trans (hsuffix.trans hspaces)).trans (List.suffix_append _ r)
  · have hle := (hu.trans (hsuffix.trans hspaces)).length_le
    rintro rfl
    simp at hle
    omega

structure AreYears (years : List Nat) : Prop where
  nonempty : years ≠ []
  sorted : years.Pairwise (· < ·)
  valid : ∀ y ∈ years, IsYear y

theorem pairwise_lt_of_isChain_ne {years : List Nat} (hle : years.Pairwise (· ≤ ·))
    (hne : years.IsChain (· ≠ ·)) : years.Pairwise (· < ·) := by
  rw [← List.isChain_iff_pairwise] at hle ⊢
  induction hne with
  | nil => exact .nil
  | singleton y => exact .singleton y
  | cons_cons hxy _ ih =>
      obtain ⟨hle, hmore⟩ := List.isChain_cons_cons.mp hle
      exact .cons_cons (Nat.lt_of_le_of_ne hle hxy) (ih hmore)

theorem mem_destutter'_ne {y a : Nat} {years : List Nat} :
    y ∈ years.destutter' (· ≠ ·) a ↔ y ∈ a :: years := by
  refine ⟨fun h => (List.destutter'_sublist _ _ a).subset h, fun h => ?_⟩
  induction years generalizing a with
  | nil => exact h
  | cons b years ih =>
      by_cases hab : a = b
      · subst hab
        rw [List.destutter'_cons_neg _ (by simp)]
        exact ih (by simpa using h)
      · rw [List.destutter'_cons_pos _ hab]
        rcases List.mem_cons.mp h with rfl | h
        · exact List.mem_cons_self ..
        · exact List.mem_cons_of_mem _ (ih h)

theorem mem_sorted {y : Nat} {years : List Nat} :
    y ∈ (years.insertionSort (· ≤ ·)).destutter (· ≠ ·) ↔ y ∈ years := by
  have hsort : y ∈ years ↔ y ∈ years.insertionSort (· ≤ ·) := (List.mem_insertionSort _).symm
  rw [hsort]
  cases years.insertionSort (· ≤ ·) with
  | nil => rfl
  | cons year years => exact mem_destutter'_ne

theorem areYears_sorted {years : List Nat} (hne : years ≠ []) (hvalid : ∀ y ∈ years, IsYear y) :
    AreYears ((years.insertionSort (· ≤ ·)).destutter (· ≠ ·)) where
  nonempty := by
    obtain ⟨y, hy⟩ := List.exists_mem_of_ne_nil years hne
    exact List.ne_nil_of_mem (mem_sorted.mpr hy)
  sorted := pairwise_lt_of_isChain_ne
    ((List.pairwise_insertionSort _ _).sublist (List.destutter_sublist _ _))
    (List.isChain_destutter _ _)
  valid := fun y hy => hvalid y (mem_sorted.mp hy)

theorem AreYears.spansOf_ne_nil {years : List Nat} (h : AreYears years) : spansOf years ≠ [] := by
  cases years with
  | nil => exact absurd rfl h.nonempty
  | cons year years => exact Span.ofYears_ne_nil _ _ _

theorem AreYears.spansOf_valid {years : List Nat} (h : AreYears years) :
    ∀ t ∈ spansOf years, t.Valid := by
  cases years with
  | nil => exact nofun
  | cons year years =>
      obtain ⟨hyear, hyears⟩ := List.forall_mem_cons.mp h.valid
      exact Span.valid_ofYears hyear hyear hyears

theorem copyrightText_eq {h : Header} (hyears : AreYears h.copyrightYears) :
    h.copyrightText = "@Copyright (C) ".toList ++ (spansText (spansOf h.copyrightYears) ++
      (' ' :: ' ' :: (h.author ++ ['.']))) := by
  rw [Header.copyrightText, printYears_spansOf _ hyears.nonempty hyears.sorted
    fun y hy => Nat.lt_of_lt_of_le (by decide) (hyears.valid y hy).1]
  simp

/-- Reading the copyright line of a header gives its years and its author. -/
theorem decode_copyrightText {h found : Header} (hyears : AreYears h.copyrightYears)
    (ha : IsAuthor h.author) (hdot : OneLine h.author)
    (htrim : h.author.rdropWhile (fun x => x = ' ' ∨ x = '.') = h.author)
    (hhead : ∃ x xs, h.author = x :: xs ∧ x ≠ ',' ∧ x ≠ '-') :
    found.decodeCopyrightLine h.copyrightText =
      { found with
        copyrightYears := found.copyrightYears ++ h.copyrightYears, author := h.author } := by
  obtain ⟨x, xs, hauthor, hcomma, hdash⟩ := hhead
  have hblank : isSpace x = false := ha.notBlank x (by rw [hauthor]; rfl)
  have hdots : OneLine (h.author ++ ['.']) := oneLine_append.mpr ⟨hdot, by unfold OneLine; decide⟩
  have hperiod : (h.author ++ ['.']).rdropWhile (fun x => x = ' ' ∨ x = '.') = h.author := by
    rw [List.rdropWhile_concat_pos _ _ _ (by decide), htrim]
  have hitems : Separated (spanItems (spansOf h.copyrightYears)) (h.author ++ ['.']) := by
    refine separated_spanItems hyears.spansOf_valid fun z hz => ?_
    rw [hauthor] at hz
    cases hz
    exact ⟨hblank, hcomma, hdash⟩
  have htext : h.copyrightText = ['@'] ++ 'C' :: ("opyright".toList ++ ' ' :: ("(C) ".toList ++
      (itemsText (spanItems (spansOf h.copyrightYears)) ++ (h.author ++ ['.'])))) := by
    rw [copyrightText_eq hyears, itemsText_spanItems hyears.spansOf_ne_nil]
    simp
  have hdigit : ∀ z, (itemsText (spanItems (spansOf h.copyrightYears)) ++
      (h.author ++ ['.'])).head? = some z → z.isDigit = true := by
    obtain ⟨t, spans, hspans⟩ := List.exists_cons_of_ne_nil hyears.spansOf_ne_nil
    have ht : t.Valid := hyears.spansOf_valid t (by rw [hspans]; exact List.mem_cons_self ..)
    obtain ⟨i, items, heq, hi⟩ := spanItems_cons ht spans
    intro z hz
    obtain ⟨d, ds, hhead, hd, -⟩ := itemsText_head (s := h.author ++ ['.']) items hi
    rw [hspans, heq, hhead] at hz
    cases hz
    exact hd
  have hlast := noMark_printed (spansOf h.copyrightYears) ha.concat.1
  rw [← List.append_assoc (spansText _), ← itemsText_spanItems hyears.spansOf_ne_nil] at hlast
  rw [htext, decodeCopyrightLine_items (by unfold OneLine; decide) (.inl rfl) (by decide) (by decide)
    hdigit hitems ha.concat.2 hdots hlast, itemYears_spanItems, years_spansOf hyears.sorted, hperiod]

def isLetter (x : Char) : Bool := x.isAlpha || 128 ≤ x.toNat

theorem ne_of_isLetter {x y : Char} (h : isLetter x = true) (hy : isLetter y = false) : x ≠ y := by
  rintro rfl
  rw [h] at hy
  cases hy

theorem isAuthor_of_letter {x : Char} (hx : isLetter x = true)
    (hword : ¬ "opyright".toList <:+: x :: a) : IsAuthor (x :: a) := by
  refine ⟨fun t ht hmark => ?_, fun hyear => ?_, fun y hy => ?_⟩
  · obtain ⟨c, y, -, -, hpre⟩ := hmark
    have hinside : "opyright".toList <:+: c :: ("opyright".toList ++ [y]) := ⟨[c], [y], rfl⟩
    exact hword ((hinside.trans hpre.isInfix).trans ht.isInfix)
  · obtain ⟨y, z, w, -, -, -, hpre | hpre⟩ := hyear
    · have h := (List.cons_prefix_cons.mp hpre).1
      exact ne_of_isLetter hx (by decide) h.symm
    · have h := (List.cons_prefix_cons.mp hpre).1
      exact ne_of_isLetter hx (by decide) h.symm
  · cases hy
    exact isSpace_eq_false (by decide) hx

end Author

/-- Printing a copyright line and reading it again gives the years, sorted and
each of them once, and the author. -/
theorem copyright_roundtrip (options : Options) (currentYear : Nat) (h : Header)
    (hne : h.copyrightYears ≠ []) (hvalid : ∀ y ∈ h.copyrightYears, 1900 ≤ y ∧ y ≤ 2099)
    (hletter : ∃ x xs, h.author = x :: xs ∧ isLetter x = true)
    (hword : ¬ "opyright".toList <:+: h.author)
    (hend : h.author.getLast? ≠ some ' ' ∧ h.author.getLast? ≠ some '.')
    (hline : '\n' ∉ h.author ∧ '\r' ∉ h.author) :
    ∃ years,
      (Header.new options).decodeCopyrightLine (h.canonicalize currentYear).copyrightText =
        { Header.new options with copyrightYears := years, author := h.author } ∧
      years.Pairwise (· < ·) ∧ ∀ y, y ∈ years ↔ y ∈ h.copyrightYears := by
  obtain ⟨x, xs, hauthor, hx⟩ := hletter
  have hyears : (h.canonicalize currentYear).copyrightYears =
      (h.copyrightYears.insertionSort (· ≤ ·)).destutter (· ≠ ·) := if_neg (by simpa using hne)
  have hsame : (h.canonicalize currentYear).author = h.author := if_neg (by simp [hauthor])
  have hsorted := areYears_sorted hne hvalid
  have htrim : h.author.rdropWhile (fun x => x = ' ' ∨ x = '.') = h.author := by
    refine List.rdropWhile_eq_self_iff.mpr fun hl hlast => ?_
    rcases of_decide_eq_true hlast with hspace | hdot
    · exact hend.1 (by rw [List.getLast?_eq_getLast_of_ne_nil hl, hspace])
    · exact hend.2 (by rw [List.getLast?_eq_getLast_of_ne_nil hl, hdot])
  have hone : OneLine h.author := fun y hy =>
    ⟨fun heq => hline.1 (heq ▸ hy), fun heq => hline.2 (heq ▸ hy)⟩
  have hread : (Header.new options).decodeCopyrightLine (h.canonicalize currentYear).copyrightText =
      _ :=
    decode_copyrightText (hyears ▸ hsorted)
      (by rw [hsame, hauthor]; exact isAuthor_of_letter hx (hauthor ▸ hword)) (hsame ▸ hone)
      (hsame ▸ htrim)
      ⟨x, xs, hsame.trans hauthor, ne_of_isLetter hx (by decide), ne_of_isLetter hx (by decide)⟩
  refine ⟨_, hread.trans ?_, hsorted.sorted, fun y => mem_sorted⟩
  rw [hyears, hsame]
  rfl

/-- Years out of order, with repetitions, runs and gaps. -/
theorem copyright_roundtrip_runs :
    ∃ years,
      (Header.new ⟨[], []⟩).decodeCopyrightLine
        (({ Header.new ⟨[], []⟩ with
          copyrightYears := [2020, 2018, 2022, 2019, 2018], author := "Carlo Wood".toList } :
            Header).canonicalize 2024).copyrightText =
        { Header.new ⟨[], []⟩ with copyrightYears := years, author := "Carlo Wood".toList } ∧
      years.Pairwise (· < ·) ∧ ∀ y, y ∈ years ↔ y ∈ [2020, 2018, 2022, 2019, 2018] :=
  copyright_roundtrip ⟨[], []⟩ 2024
    { Header.new ⟨[], []⟩ with
      copyrightYears := [2020, 2018, 2022, 2019, 2018], author := "Carlo Wood".toList }
    (by decide) (by decide) ⟨'C', "arlo Wood".toList, rfl, by decide⟩ (by decide) (by decide)
    (by decide)

/-- A line end in the author is not read, and then nothing is. -/
theorem copyright_author_of_two_lines :
    ¬ ∀ author : Line, (∃ x xs, author = x :: xs ∧ isLetter x = true) →
      ¬ "opyright".toList <:+: author →
      author.getLast? ≠ some ' ' ∧ author.getLast? ≠ some '.' →
      ((Header.new ⟨[], []⟩).decodeCopyrightLine
        (({ Header.new ⟨[], []⟩ with copyrightYears := [2020], author := author } :
          Header).canonicalize 2024).copyrightText).author = author := by
  intro hall
  have hread := hall ['A', '\r', 'B'] ⟨'A', ['\r', 'B'], rfl, by decide⟩ (by decide) (by decide)
  revert hread
  decide +kernel

end RewriteHeader
