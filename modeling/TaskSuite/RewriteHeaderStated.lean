import TaskSuite.RewriteHeaderCopyright

/-! The years that a line states, wherever they stand in it, and the list of
years that `decode_copyright_line` takes from a text. -/
namespace RewriteHeader
open Regex

def startsWithDigit (s : Line) : Bool := s.head?.any Char.isDigit

/-- The numbers of a text, each with what stands between it and the next one. -/
def numbers : Line → List (Line × Line)
  | [] => []
  | x :: xs =>
      if x.isDigit then
        match startsWithDigit xs, numbers xs with
        | true, (d, gap) :: more => (x :: d, gap) :: more
        | _, more => ([x], xs.takeWhile fun y => !y.isDigit) :: more
      else numbers xs

def isYearText (d : Line) : Bool :=
  d.length == 4 && d.all Char.isDigit && (d.take 2 == "19".toList || d.take 2 == "20".toList)

def isDash (gap : Line) : Bool := gap.filter (fun x => !isSpace x) == ['-']

def yearOf (d : Line) : List Nat := if isYearText d then [Header.stoi d] else []

/-- The years of a range, if its ends are years and a dash stands between them. -/
def rangeOf (d gap d' : Line) : List Nat :=
  if isYearText d && isDash gap && isYearText d' then
    List.range' (Header.stoi d) (Header.stoi d' + 1 - Header.stoi d)
  else []

/-- The years among some numbers, and those between two of them that a dash joins. -/
def yearsOf : List (Line × Line) → List Nat
  | [] => []
  | [(d, _)] => yearOf d
  | (d, gap) :: (d', gap') :: more => yearOf d ++ rangeOf d gap d' ++ yearsOf ((d', gap') :: more)

/-- The years that a line states. -/
def statedYears (line : Line) : List Nat := yearsOf (numbers line)

example : statedYears "2001 Copyright 2003-2005, Carlo Wood (2010)".toList =
    [2001, 2003, 2003, 2004, 2005, 2005, 2010] := by decide

/-! ### The numbers of a text -/

section Numbers
variable {d t w : Line} {x : Char}

theorem numbers_cons_of_not_digit (s : Line) (hx : x.isDigit = false) :
    numbers (x :: s) = numbers s := by
  rw [numbers, if_neg (by simp [hx])]

theorem numbers_append_of_not_digit (s : Line) (h : ∀ x ∈ w, x.isDigit = false) :
    numbers (w ++ s) = numbers s := by
  induction w with
  | nil => rfl
  | cons x w ih =>
      obtain ⟨hx, hw⟩ := List.forall_mem_cons.mp h
      rw [List.cons_append, numbers_cons_of_not_digit _ hx, ih hw]

theorem numbers_eq_nil (h : ∀ x ∈ w, x.isDigit = false) : numbers w = [] := by
  have happend := numbers_append_of_not_digit [] h
  rwa [List.append_nil] at happend

theorem numbers_digits {s : Line} (hne : d ≠ []) (hd : ∀ x ∈ d, x.isDigit = true)
    (hs : startsWithDigit s = false) :
    numbers (d ++ s) = (d, s.takeWhile fun y => !y.isDigit) :: numbers s := by
  induction d with
  | nil => exact absurd rfl hne
  | cons x d ih =>
      obtain ⟨hx, hd⟩ := List.forall_mem_cons.mp hd
      cases d with
      | nil => simp only [List.cons_append, List.nil_append, numbers, hx, if_true, hs]
      | cons y d =>
          have hdigit : startsWithDigit (y :: d ++ s) = true := hd y (List.mem_cons_self ..)
          have hmore := ih (List.cons_ne_nil y d) hd
          rw [List.cons_append, numbers, if_pos hx, hdigit, hmore]

theorem startsWithDigit_of_not_digit (s : Line) (hw : w ≠ []) (h : ∀ x ∈ w, x.isDigit = false) :
    startsWithDigit (w ++ s) = false := by
  obtain ⟨x, w, rfl⟩ := List.exists_cons_of_ne_nil hw
  exact h x (List.mem_cons_self ..)

end Numbers

/-! ### Years and their digits -/

section Digits
variable {d gap d' : Line} {y : Nat}

theorem isYearText_iff : isYearText d = true ↔ ∃ a b : Char, a.isDigit = true ∧ b.isDigit = true ∧
    (d = ['1', '9', a, b] ∨ d = ['2', '0', a, b]) := by
  constructor
  · intro h
    simp only [isYearText, Bool.and_eq_true, Bool.or_eq_true, beq_iff_eq] at h
    obtain ⟨⟨hlen, hall⟩, hcentury⟩ := h
    have hlen : (d.drop 2).length = 2 := by rw [List.length_drop, hlen]
    obtain ⟨a, b, hrest⟩ := List.length_eq_two.mp hlen
    have hdigit : ∀ x ∈ d.drop 2, x.isDigit = true := fun x hx =>
      List.all_eq_true.mp hall x (List.mem_of_mem_drop hx)
    rw [hrest] at hdigit
    refine ⟨a, b, hdigit a (by simp), hdigit b (by simp), hcentury.imp ?_ ?_⟩ <;>
      · intro htake
        rw [← List.take_append_drop 2 d, htake, hrest]
        rfl
  · rintro ⟨a, b, ha, hb, rfl | rfl⟩ <;> simp [isYearText, ha, hb]

theorem exists_digitChar {x : Char} (hx : x.isDigit = true) : ∃ i : Fin 10, x = Nat.digitChar i := by
  obtain ⟨hle, hge⟩ := Char.isDigit_iff_toNat.mp hx
  have h0 : '0'.toNat = 48 := rfl
  have h9 : '9'.toNat = 57 := rfl
  have hlt : x.toNat - 48 < 10 := by omega
  refine ⟨⟨x.toNat - 48, hlt⟩, Char.toNat_inj.mp ?_⟩
  rw [Nat.toNat_digitChar_of_lt_ten hlt]
  omega

theorem toDigits_stoi {a b : Char} (ha : a.isDigit = true) (hb : b.isDigit = true)
    (hd : d = ['1', '9', a, b] ∨ d = ['2', '0', a, b]) : Nat.toDigits 10 (Header.stoi d) = d := by
  have hall : ∀ i j : Fin 10,
      Nat.toDigits 10 (Header.stoi ['1', '9', Nat.digitChar i, Nat.digitChar j]) =
        ['1', '9', Nat.digitChar i, Nat.digitChar j] ∧
      Nat.toDigits 10 (Header.stoi ['2', '0', Nat.digitChar i, Nat.digitChar j]) =
        ['2', '0', Nat.digitChar i, Nat.digitChar j] := by decide +kernel
  obtain ⟨i, rfl⟩ := exists_digitChar ha
  obtain ⟨j, rfl⟩ := exists_digitChar hb
  rcases hd with rfl | rfl
  · exact (hall i j).1
  · exact (hall i j).2

theorem isYearText_toDigits (hy : IsYear y) : isYearText (Nat.toDigits 10 y) = true :=
  isYearText_iff.mpr (toDigits_year hy)

theorem isYear_stoi_of_isYearText (h : isYearText d = true) : IsYear (Header.stoi d) := by
  obtain ⟨a, b, ha, hb, hd⟩ := isYearText_iff.mp h
  exact isYear_stoi_digits ha hb hd

theorem isYear_of_mem_yearOf (h : y ∈ yearOf d) : IsYear y := by
  rw [yearOf] at h
  split_ifs at h with hd
  · cases List.mem_singleton.mp h
    exact isYear_stoi_of_isYearText hd
  · cases h

theorem isYear_of_mem_rangeOf (h : y ∈ rangeOf d gap d') : IsYear y := by
  rw [rangeOf] at h
  split_ifs at h with hends
  · simp only [Bool.and_eq_true] at hends
    obtain ⟨⟨hd, -⟩, hd'⟩ := hends
    obtain ⟨hfirst, hlast⟩ := List.mem_range'_1.mp h
    have hbegin := (isYear_stoi_of_isYearText hd).1
    have hend := (isYear_stoi_of_isYearText hd').2
    exact ⟨hbegin.trans hfirst, by omega⟩
  · cases h

theorem isYear_of_mem_yearsOf {l : List (Line × Line)} (h : y ∈ yearsOf l) : IsYear y := by
  fun_induction yearsOf l with
  | case1 => cases h
  | case2 d gap => exact isYear_of_mem_yearOf h
  | case3 d gap d' gap' more ih =>
      rcases List.mem_append.mp h with h | h
      · rcases List.mem_append.mp h with h | h
        · exact isYear_of_mem_yearOf h
        · exact isYear_of_mem_rangeOf h
      · exact ih h

theorem yearOf_toDigits (hy : IsYear y) : yearOf (Nat.toDigits 10 y) = [y] := by
  rw [yearOf, if_pos (isYearText_toDigits hy), stoi_toDigits]

theorem rangeOf_toDigits {y' : Nat} (hy : IsYear y) (hy' : IsYear y') :
    rangeOf (Nat.toDigits 10 y) gap (Nat.toDigits 10 y') =
      if isDash gap then List.range' y (y' + 1 - y) else [] := by
  rw [rangeOf, isYearText_toDigits hy, isYearText_toDigits hy', stoi_toDigits, stoi_toDigits,
    Bool.true_and, Bool.and_true]

end Digits

/-! ### What is printed is stated -/

section Printed
variable {items : List Item} {spans : List Span} {y : Nat}

theorem IsSeparator.ne_nil {separator rest : List Char} (h : IsSeparator separator rest) :
    separator ≠ [] := by
  rcases h.form with ⟨u, x, v, rfl, -⟩ | ⟨hne, -⟩
  · simp
  · exact hne

def Item.number (i : Item) : Line × Line := (Nat.toDigits 10 i.year, i.separator)

/-- The numbers of a list of years are its years. -/
theorem numbers_itemsText (h : Separated items []) :
    numbers (itemsText items) = items.map Item.number := by
  induction items with
  | nil => rfl
  | cons i items ih =>
      obtain ⟨hyear, hsep, hitems⟩ := h
      have hgap : (i.separator ++ itemsText items).takeWhile (fun y => !y.isDigit) = i.separator := by
        rw [List.takeWhile_append_of_pos fun x hx => by simp [hsep.noDigit x hx]]
        cases items with
        | nil => exact List.append_nil _
        | cons j items =>
            obtain ⟨x, xs, hdigits, hx, -⟩ := toDigits_head hitems.1
            rw [itemsText, List.flatMap_cons, hdigits]
            simp [hx]
      have htext : itemsText (i :: items) =
          Nat.toDigits 10 i.year ++ (i.separator ++ itemsText items) := by simp [itemsText]
      rw [htext, numbers_digits Nat.toDigits_ne_nil
        (fun x hx => Nat.isDigit_of_mem_toDigits (by decide) (by decide) hx)
        (startsWithDigit_of_not_digit _ hsep.ne_nil hsep.noDigit), hgap,
        numbers_append_of_not_digit _ hsep.noDigit, ih hitems]
      rfl

def Span.Ascending (t : Span) : Prop := ∀ stop, t.stop = some stop → t.start ≤ stop

theorem Span.ascending_ofYears {first last : Nat} {ys : List Nat} (h : first ≤ last)
    (hsorted : (last :: ys).Pairwise (· < ·)) : ∀ t ∈ ofYears first last ys, t.Ascending := by
  have hrun : ∀ {first last : Nat}, first ≤ last → ∀ t ∈ ofRun first last, t.Ascending := by
    intro first last hle t ht stop hstop
    rw [ofRun] at ht
    split_ifs at ht
    · cases List.mem_singleton.mp ht
      cases hstop
    · rcases List.mem_pair.mp ht with rfl | rfl <;> cases hstop
    · cases List.mem_singleton.mp ht
      cases hstop
      exact hle
  induction ys generalizing first last with
  | nil => exact hrun h
  | cons year ys ih =>
      obtain ⟨hlast, hsorted'⟩ := List.pairwise_cons.mp hsorted
      have hlt : last < year := hlast year (List.mem_cons_self ..)
      simp only [ofYears]
      split_ifs
      · exact ih (by omega) hsorted'
      · exact List.forall_mem_append.mpr ⟨hrun h, ih le_rfl hsorted'⟩

theorem Span.mem_yearsOf_items {t : Span} (ht : t.Valid) (hup : t.Ascending) {separator : List Char}
    (hsep : isDash separator = false) (hmore : ∀ i ∈ items, IsYear i.year) :
    y ∈ yearsOf ((t.items separator ++ items).map Item.number) ↔
      y ∈ t.years ∨ y ∈ yearsOf (items.map Item.number) := by
  have hone : ∀ {z : Nat}, IsYear z → yearsOf ((⟨z, separator⟩ :: items).map Item.number) =
      z :: yearsOf (items.map Item.number) := by
    intro z hz
    cases items with
    | nil => simp [yearsOf, Item.number, yearOf_toDigits hz]
    | cons j items =>
        have hj := hmore j (List.mem_cons_self ..)
        simp [yearsOf, Item.number, yearOf_toDigits hz, rangeOf_toDigits hz hj, hsep]
  obtain ⟨start, stop⟩ := t
  cases stop with
  | none =>
      rw [show Span.items ⟨start, none⟩ separator ++ items = ⟨start, separator⟩ :: items from rfl,
        hone ht.1, List.mem_cons]
      simp [Span.years]
  | some stop =>
      have hstop : IsYear stop := ht.2 stop rfl
      have hle : start ≤ stop := hup stop rfl
      have hdash : isDash " - ".toList = true := by decide
      have hlast := hone hstop
      rw [show Span.items ⟨start, some stop⟩ separator ++ items =
        ⟨start, " - ".toList⟩ :: ⟨stop, separator⟩ :: items from rfl]
      simp only [List.map_cons, Item.number, yearsOf] at hlast ⊢
      rw [hlast, yearOf_toDigits ht.1, rangeOf_toDigits ht.1 hstop, if_pos hdash]
      simp only [Span.years, List.mem_append, List.mem_cons, List.mem_range'_1]
      have hends : (start ≤ start ∧ start < start + (stop + 1 - start)) ∧
          start ≤ stop ∧ stop < start + (stop + 1 - start) := by omega
      grind

theorem isYear_spanItems (hvalid : ∀ t ∈ spans, t.Valid) : ∀ i ∈ spanItems spans, IsYear i.year := by
  have hitems : ∀ {t : Span} (separator), t.Valid → ∀ i ∈ t.items separator, IsYear i.year := by
    intro t separator ht i hi
    obtain ⟨start, stop⟩ := t
    cases stop with
    | none =>
        cases List.mem_singleton.mp hi
        exact ht.1
    | some stop =>
        rcases List.mem_pair.mp hi with rfl | rfl
        · exact ht.1
        · exact ht.2 stop rfl
  fun_induction spanItems spans with
  | case1 => exact fun i hi => absurd hi List.not_mem_nil
  | case2 t => exact hitems _ (hvalid t (List.mem_singleton_self t))
  | case3 t u spans ih =>
      obtain ⟨ht, hspans⟩ := List.forall_mem_cons.mp hvalid
      exact List.forall_mem_append.mpr ⟨hitems _ ht, ih hspans⟩

theorem mem_yearsOf_spanItems (hvalid : ∀ t ∈ spans, t.Valid) (hup : ∀ t ∈ spans, t.Ascending) :
    y ∈ yearsOf ((spanItems spans).map Item.number) ↔ y ∈ spans.flatMap Span.years := by
  fun_induction spanItems spans with
  | case1 => rfl
  | case2 t =>
      have hone : y ∈ yearsOf ((t.items "  ".toList ++ []).map Item.number) ↔ _ :=
        Span.mem_yearsOf_items (hvalid t (List.mem_singleton_self t))
          (hup t (List.mem_singleton_self t)) (by decide) fun i hi => absurd hi List.not_mem_nil
      rw [List.append_nil] at hone
      rw [hone]
      simp [yearsOf]
  | case3 t u spans ih =>
      obtain ⟨ht, hspans⟩ := List.forall_mem_cons.mp hvalid
      obtain ⟨htup, hsup⟩ := List.forall_mem_cons.mp hup
      rw [Span.mem_yearsOf_items ht htup (by decide) (isYear_spanItems hspans), ih hspans hsup,
        List.flatMap_cons (x := t), List.mem_append]

/-- The printed copyright line up to the author. -/
def Header.yearsText (h : Header) : Line :=
  printYears (h.copyrightYears.getLastD 0) "@Copyright (C) ".toList 0 0 h.copyrightYears ++ "  ".toList

theorem Header.copyrightText_eq_yearsText (h : Header) :
    h.copyrightText = h.yearsText ++ h.author ++ ".".toList := rfl

/-- The printed copyright line states the years of the header, and no others. -/
theorem mem_statedYears_yearsText {h : Header} (hyears : AreYears h.copyrightYears) :
    y ∈ statedYears h.yearsText ↔ y ∈ h.copyrightYears := by
  have hup : ∀ t ∈ spansOf h.copyrightYears, t.Ascending := by
    obtain ⟨z, zs, heq⟩ := List.exists_cons_of_ne_nil hyears.nonempty
    rw [heq]
    exact Span.ascending_ofYears le_rfl (heq ▸ hyears.sorted)
  have hpos : ∀ z ∈ h.copyrightYears, 1 < z := fun z hz =>
    Nat.lt_of_lt_of_le (by decide) (hyears.valid z hz).1
  have hsep : Separated (spanItems (spansOf h.copyrightYears)) [] :=
    separated_spanItems hyears.spansOf_valid nofun
  rw [statedYears, Header.yearsText, printYears_spansOf _ hyears.nonempty hyears.sorted hpos,
    List.append_assoc, ← itemsText_spanItems hyears.spansOf_ne_nil,
    numbers_append_of_not_digit _ (by decide), numbers_itemsText hsep,
    mem_yearsOf_spanItems hyears.spansOf_valid hup, years_spansOf hyears.sorted]

theorem mem_statedYears_yearsText_singleton {h : Header} {currentYear : Nat}
    (hyears : h.copyrightYears = [currentYear]) :
    y ∈ statedYears h.yearsText ↔ y = currentYear ∧ IsYear y := by
  have hdigits : ∀ x ∈ Nat.toDigits 10 currentYear, x.isDigit = true := fun x hx =>
    Nat.isDigit_of_mem_toDigits (by decide) (by decide) hx
  have htext : h.yearsText =
      "@Copyright (C) ".toList ++ (Nat.toDigits 10 currentYear ++ "  ".toList) := by
    rw [Header.yearsText, hyears]
    simp [Header.printYears]
    split_ifs <;> omega
  have hstated : statedYears h.yearsText = yearOf (Nat.toDigits 10 currentYear) := by
    rw [statedYears, htext, numbers_append_of_not_digit _ (by decide),
      numbers_digits Nat.toDigits_ne_nil hdigits (by decide), numbers_eq_nil (by decide)]
    rfl
  rw [hstated]
  constructor
  · intro hy
    refine ⟨?_, isYear_of_mem_yearOf hy⟩
    rw [yearOf, stoi_toDigits] at hy
    split_ifs at hy
    · exact List.mem_singleton.mp hy
    · cases hy
  · rintro ⟨rfl, hyear⟩
    rw [yearOf_toDigits hyear]
    exact List.mem_singleton_self y

end Printed

/-! ### The list of years of a text -/

/-- The years of `items` are the list of `text`, and `rest` stands behind it: the
list starts with the first digit behind the last place where the word stands,
and a comma, a dash or a space follows each of its years. -/
structure YearList (text : Line) (items : List Item) (rest : Line) : Prop where
  place : ∃ front x y mid,
    text = front ++ x :: ("opyright".toList ++ y :: (mid ++ (itemsText items ++ rest))) ∧
    (x = 'C' ∨ x = 'c') ∧ isSpace y = true ∧ (∀ z ∈ mid, z.isDigit = false) ∧
    NoMark ("opyright".toList ++ y :: (mid ++ (itemsText items ++ rest)))
  digit : ∀ z, (itemsText items ++ rest).head? = some z → z.isDigit = true
  separated : Separated items rest
  ends : ¬ StartsYear rest

section YearList
variable {text : Line} {items : List Item} {rest : Line}

theorem YearList.rest_suffix (h : YearList text items rest) : rest <:+ text := by
  obtain ⟨front, x, y, mid, rfl, -⟩ := h.place
  exact ⟨front ++ x :: ("opyright".toList ++ y :: (mid ++ itemsText items)), by simp⟩

/-- The list is what is decoded, and what stands behind it becomes the author. -/
theorem YearList.decode (h : YearList text items rest) (htext : OneLine text) (found : Header) :
    found.decodeCopyrightLine text =
      { found with
        copyrightYears := found.copyrightYears ++ itemYears items
        author := rest.rdropWhile fun x => x = ' ' ∨ x = '.' } := by
  have hrest := htext.of_suffix h.rest_suffix
  obtain ⟨front, x, y, mid, rfl, hx, hy, hmid, hlast⟩ := h.place
  exact decodeCopyrightLine_items (fun z hz => htext z (List.mem_append_left _ hz)) hx hy hmid h.digit
    h.separated h.ends hrest hlast

/-- The last place where the word stands. -/
theorem exists_last_mark (h : ¬ NoMark text) :
    ∃ front x y rest, text = front ++ x :: ("opyright".toList ++ y :: rest) ∧ (x = 'C' ∨ x = 'c') ∧
      isSpace y = true ∧ NoMark ("opyright".toList ++ y :: rest) := by
  induction text with
  | nil =>
      refine absurd (fun t ht => ?_) h
      rw [List.suffix_nil.mp ht]
      rintro ⟨x, y, -, -, hpre⟩
      simp at hpre
  | cons z text ih =>
      by_cases hmore : NoMark text
      · have hmark : Mark (z :: text) := by
          by_contra hnot
          exact h (hmore.cons hnot)
        obtain ⟨x, y, hx, hy, rest, heq⟩ := hmark
        obtain ⟨rfl, rfl⟩ : x = z ∧ "opyright".toList ++ y :: rest = text := by simpa using heq
        exact ⟨[], x, y, rest, rfl, hx, hy, hmore⟩
      · obtain ⟨front, x, y, rest, rfl, hx, hy, hlast⟩ := ih hmore
        exact ⟨z :: front, x, y, rest, rfl, hx, hy, hlast⟩

theorem exists_year_of_startsYear {s : Line} (h : StartsYear s) :
    ∃ year w r, s = Nat.toDigits 10 year ++ w :: r ∧ IsYear year ∧
      (isSpace w = true ∨ w = ',' ∨ w = '-') := by
  obtain ⟨a, b, w, ha, hb, hw, hs⟩ := h
  obtain ⟨d, hd, r, rfl⟩ : ∃ d, (d = ['1', '9', a, b] ∨ d = ['2', '0', a, b]) ∧ d ++ [w] <+: s := by
    rcases hs with hs | hs
    · exact ⟨['1', '9', a, b], .inl rfl, hs⟩
    · exact ⟨['2', '0', a, b], .inr rfl, hs⟩
  exact ⟨Header.stoi d, w, r, by rw [toDigits_stoi ha hb hd]; simp, isYear_stoi_digits ha hb hd, hw⟩

theorem exists_separator {w : Char} {r : Line} (hw : isSpace w = true ∨ w = ',' ∨ w = '-') :
    ∃ separator s, w :: r = separator ++ s ∧ IsSeparator separator s := by
  have hblank : ∀ {l : Line}, ∀ z ∈ l.takeWhile isSpace, isSpace z = true := fun z hz =>
    List.mem_takeWhile_imp hz
  have hstop : ∀ {l : Line} z, (l.dropWhile isSpace).head? = some z → isSpace z = false := by
    intro l z hz
    simpa [hz] using List.head?_dropWhile_not isSpace l
  have hsplit := List.takeWhile_append_dropWhile (p := isSpace) (l := w :: r)
  cases hrest : (w :: r).dropWhile isSpace with
  | nil =>
      rw [hrest] at hsplit
      refine ⟨_, [], hsplit.symm, nofun, .inr ⟨?_, hblank, nofun⟩⟩
      intro hnil
      simp [hnil] at hsplit
  | cons x t =>
      have hx : isSpace x = false := hstop x (by rw [hrest]; rfl)
      rw [hrest] at hsplit
      by_cases hmark : x = ',' ∨ x = '-'
      · refine ⟨(w :: r).takeWhile isSpace ++ x :: t.takeWhile isSpace, t.dropWhile isSpace, ?_,
          hstop, .inl ⟨_, x, _, rfl, hmark, hblank, hblank⟩⟩
        rw [List.append_assoc, List.cons_append, List.takeWhile_append_dropWhile, hsplit]
      · refine ⟨_, x :: t, hsplit.symm, fun z hz => ?_, .inr ⟨fun hnil => ?_, hblank, fun z hz => ?_⟩⟩
        · cases hz
          exact hx
        · rw [hnil, List.nil_append] at hsplit
          obtain ⟨rfl, -⟩ := List.cons.inj hsplit
          exact hw.elim (by simp [hx]) hmark
        · cases hz
          exact not_or.mp hmark

/-- Years are taken from the front of a text until none is left there. -/
theorem exists_items (s : Line) :
    ∃ items rest, s = itemsText items ++ rest ∧ Separated items rest ∧ ¬ StartsYear rest := by
  induction hlen : s.length using Nat.strong_induction_on generalizing s with
  | _ n ih =>
      by_cases hstart : StartsYear s
      · obtain ⟨year, w, r, rfl, hyear, hw⟩ := exists_year_of_startsYear hstart
        obtain ⟨separator, s, heq, hsep⟩ := exists_separator (r := r) hw
        have hlt : s.length < n := by
          have hpos := List.length_pos_iff.mpr (Nat.toDigits_ne_nil (n := year) (b := 10))
          rw [← hlen, heq, List.length_append, List.length_append]
          omega
        obtain ⟨items, rest, rfl, hitems, hrest⟩ := ih s.length hlt s rfl
        exact ⟨⟨year, separator⟩ :: items, rest, by rw [itemsText_cons, heq], ⟨hyear, hsep, hitems⟩,
          hrest⟩
      · exact ⟨[], s, rfl, trivial, hstart⟩

theorem exists_yearList (h : ¬ NoMark text) : ∃ items rest, YearList text items rest := by
  obtain ⟨front, x, y, r, rfl, hx, hy, hlast⟩ := exists_last_mark h
  obtain ⟨items, rest, heq, hitems, hrest⟩ := exists_items (r.dropWhile fun z => !z.isDigit)
  have hsplit : r = r.takeWhile (fun z => !z.isDigit) ++ (itemsText items ++ rest) := by
    rw [← heq, List.takeWhile_append_dropWhile]
  have hmid : ∀ z ∈ r.takeWhile (fun z => !z.isDigit), z.isDigit = false := fun z hz => by
    simpa using List.mem_takeWhile_imp hz
  refine ⟨items, rest, ⟨front, x, y, _, by rw [← hsplit], hx, hy, hmid, by rwa [← hsplit]⟩,
    fun z hz => ?_, hitems, hrest⟩
  rw [← heq] at hz
  simpa [hz] using List.head?_dropWhile_not (fun z : Char => !z.isDigit) r

end YearList

end RewriteHeader
