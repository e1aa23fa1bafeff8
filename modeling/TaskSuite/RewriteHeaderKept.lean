import TaskSuite.RewriteHeaderComment

/-! Which lines of a comment `process` reads as copyright lines, and whether the
years of all of them end up in the copyright line that it prints. -/
namespace RewriteHeader
open Regex

/-! ### The texts that are read as copyright lines -/

def Stage.copyrightTexts : Stage → List Line → List Line
  | _, [] => []
  | stage, text :: texts =>
      if !stage.overlooks text && isCopyrightText text then
        text :: copyrightTexts (stage.next text) texts
      else copyrightTexts (stage.next text) texts

def Header.copyright (h : Header) : List Nat × Line := (h.copyrightYears, h.author)

section Step
variable {s : Scan} {stage : Stage} {text : Line}

theorem Scan.copyright_readText (s : Scan) (text : Line) :
    (s.readText text).header.copyright =
      if (s.classify text).1 = .copyright then (s.header.decodeCopyrightLine text).copyright
      else s.header.copyright := by
  rw [Scan.readText]
  generalize s.classify text = p
  obtain ⟨state, sm⟩ := p
  cases state with
  | copyright => rfl
  | searching | file | brief | signature | license => rfl
  | moduleLine =>
      simp only [Scan.handle, Header.setModule, reduceCtorEq, if_false]
      split_ifs <;> rfl
  | partOf =>
      simp only [Scan.handle, Header.setPartOf, reduceCtorEq, if_false]
      split_ifs <;> rfl
  | trailing =>
      simp only [Scan.handle, reduceCtorEq, if_false]
      split_ifs <;> rfl

theorem foldl_decode_congr {texts : List Line} {found found' : Header}
    (h : found.copyright = found'.copyright) :
    (texts.foldl Header.decodeCopyrightLine found).copyright =
      (texts.foldl Header.decodeCopyrightLine found').copyright := by
  induction texts generalizing found found' with
  | nil => exact h
  | cons text texts ih =>
      refine ih ?_
      obtain ⟨hyears, hauthor⟩ := Prod.mk.inj h
      simp only [Header.decodeCopyrightLine]
      split
      · exact h
      · simp [Header.copyright, hyears]

/-- The years and the author come from the texts that are read as copyright lines. -/
theorem Scan.Stands.foldl (h : s.Stands stage) (texts : List Line) :
    (texts.foldl Scan.readText s).header.copyright =
      ((stage.copyrightTexts texts).foldl Header.decodeCopyrightLine s.header).copyright := by
  induction texts generalizing s stage with
  | nil => rfl
  | cons text texts ih =>
      obtain ⟨hnext, hread⟩ := h.next text
      have hstep := s.copyright_readText text
      rw [List.foldl_cons, ih hnext, Stage.copyrightTexts]
      split_ifs with hcopyright
      · rw [if_pos (hread.mpr hcopyright)] at hstep
        exact foldl_decode_congr hstep
      · rw [if_neg (hread.not.mpr hcopyright)] at hstep
        exact foldl_decode_congr hstep

end Step

/-! ### The years that are listed -/

def ListsYear (text : Line) (y : Nat) : Prop :=
  ∃ items rest, YearList text items rest ∧ y ∈ itemYears items

/-- Nothing but a year, and perhaps periods, stands behind the list of a text. -/
def YearBehind (text : Line) : Prop :=
  ∃ items rest, YearList text items rest ∧
    isYearText (rest.rdropWhile fun x => x = ' ' ∨ x = '.') = true

section Listed
variable {stage : Stage} {text : Line} {texts : List Line} {found : Header} {y : Nat}

theorem mem_decodeCopyrightLine (htext : OneLine text) (h : isCopyrightText text = true) :
    y ∈ (found.decodeCopyrightLine text).copyrightYears ↔
      y ∈ found.copyrightYears ∨ ListsYear text y := by
  obtain ⟨items, rest, hlist⟩ := exists_yearList (not_noMark_of_isCopyrightText h)
  have hdecode := hlist.decode htext found
  constructor
  · intro hy
    rw [hdecode] at hy
    exact (List.mem_append.mp hy).imp_right fun hy => ⟨items, rest, hlist, hy⟩
  · rintro (hy | ⟨items', rest', hlist', hy⟩)
    · rw [hdecode]
      exact List.mem_append_left _ hy
    · rw [hlist'.decode htext]
      exact List.mem_append_right _ hy

theorem isYearText_decodeCopyrightLine (htext : OneLine text) (h : isCopyrightText text = true) :
    isYearText (found.decodeCopyrightLine text).author = true ↔ YearBehind text := by
  obtain ⟨items, rest, hlist⟩ := exists_yearList (not_noMark_of_isCopyrightText h)
  constructor
  · intro hyear
    rw [hlist.decode htext] at hyear
    exact ⟨items, rest, hlist, hyear⟩
  · rintro ⟨items', rest', hlist', hyear⟩
    rw [hlist'.decode htext]
    exact hyear

theorem mem_copyrightTexts (h : text ∈ stage.copyrightTexts texts) :
    text ∈ texts ∧ isCopyrightText text = true := by
  fun_induction Stage.copyrightTexts stage texts with
  | case1 => cases h
  | case2 stage t texts hread ih =>
      rcases List.mem_cons.mp h with rfl | h
      · exact ⟨List.mem_cons_self .., (Bool.and_eq_true_iff.mp hread).2⟩
      · exact ⟨List.mem_cons_of_mem t (ih h).1, (ih h).2⟩
  | case3 stage t texts hread ih => exact ⟨List.mem_cons_of_mem t (ih h).1, (ih h).2⟩

theorem mem_foldl_decode (htexts : ∀ text ∈ texts, OneLine text ∧ isCopyrightText text = true) :
    y ∈ (texts.foldl Header.decodeCopyrightLine found).copyrightYears ↔
      y ∈ found.copyrightYears ∨ ∃ text ∈ texts, ListsYear text y := by
  induction texts generalizing found with
  | nil => simp
  | cons text texts ih =>
      obtain ⟨⟨htext, hcopyright⟩, htexts⟩ := List.forall_mem_cons.mp htexts
      rw [List.foldl_cons, ih htexts, mem_decodeCopyrightLine htext hcopyright, or_assoc,
        List.exists_mem_cons_iff]

theorem author_foldl_decode (found : Header)
    (htexts : ∀ text ∈ texts, OneLine text ∧ isCopyrightText text = true)
    (hauthor : OneLine found.author) (hfound : isYearText found.author = false) :
    OneLine (texts.foldl Header.decodeCopyrightLine found).author ∧
      (isYearText (texts.foldl Header.decodeCopyrightLine found).author = true ↔
        ∃ text ∈ texts.getLast?, YearBehind text) := by
  induction texts using List.reverseRecOn with
  | nil => simp [hauthor, hfound]
  | append_singleton texts text _ =>
      obtain ⟨htext, hcopyright⟩ := htexts text (by simp)
      rw [List.foldl_concat, List.getLast?_concat]
      refine ⟨oneLine_decodeCopyrightLine htext hcopyright, ?_⟩
      rw [isYearText_decodeCopyrightLine htext hcopyright]
      simp

end Listed

/-! ### The comment that the header is taken from -/

/-- `texts` are the texts of the first comment that does not only name the
module, and `place` is where they start. -/
inductive HeaderComment : Place → List Line → Place → List Line → Prop
  | first {place : Place} {lines : List Line} (line : Line) (rest : List Line)
      (hskip : skipEmptyLines lines = line :: rest)
      (hends : Ends (isCCommentAt line) (line :: rest))
      (hlast : ¬ ModuleOnly place (commentTexts line rest)) :
      HeaderComment place lines place (commentTexts line rest)
  | behind {place place' : Place} {lines texts : List Line} (line : Line) (rest : List Line)
      (hskip : skipEmptyLines lines = line :: rest)
      (hends : Ends (isCCommentAt line) (line :: rest))
      (hmodule : ModuleOnly place (commentTexts line rest))
      (hmore : HeaderComment ((commentTexts line rest).foldl Place.next place).nextComment
        (linesBehind (isCCommentAt line) (line :: rest)) place' texts) :
      HeaderComment place lines place' texts

section HeaderComment
variable {place place' : Place} {lines texts : List Line}

theorem exists_headerComment (h : Closes place lines) :
    ∃ place' texts, HeaderComment place lines place' texts := by
  induction h with
  | last line rest hskip hends hlast => exact ⟨_, _, .first line rest hskip hends hlast⟩
  | more line rest hskip hends hmodule _ ih =>
      obtain ⟨place', texts, hcomment⟩ := ih
      exact ⟨place', texts, .behind line rest hskip hends hmodule hcomment⟩

theorem oneLine_commentTexts (line : Line) (rest : List Line) :
    ∀ text ∈ commentTexts line rest, OneLine text := by
  rw [commentTexts_eq]
  exact fun text htext => (isText_plainTexts line rest text htext).oneLine

theorem HeaderComment.oneLine (h : HeaderComment place lines place' texts) :
    ∀ text ∈ texts, OneLine text := by
  induction h with
  | first line rest hskip hends hlast => exact oneLine_commentTexts line rest
  | behind line rest hskip hends hmodule hmore ih => exact ih

theorem copyrightTexts_eq_nil
    (h : ∀ text ∈ searchedTexts place texts,
      isModuleText text = false → isFileOrCopyrightText text = false) :
    Stage.copyrightTexts ⟨place, false⟩ texts = [] := by
  induction texts generalizing place with
  | nil => rfl
  | cons text texts ih =>
      obtain ⟨htext, hmore⟩ := forall_searchedTexts_cons.mp h
      have hread : ¬ (!Stage.overlooks ⟨place, false⟩ text && isCopyrightText text) = true := by
        intro hread
        simp only [Stage.overlooks, isFileText, Bool.and_eq_true, Bool.not_eq_true', Bool.or_eq_false_iff,
          Bool.not_eq_false'] at hread
        obtain ⟨⟨⟨⟨hsearch, -⟩, hmodule⟩, -⟩, hcopyright⟩ := hread
        have hnone := htext hsearch hmodule
        rw [isFileOrCopyrightText_eq, hcopyright, Bool.or_true] at hnone
        cases hnone
      rw [Stage.copyrightTexts, if_neg hread, Stage.next_eq htext, ih hmore]

/-- The outer loop reads the copyright lines of that comment, and no others. -/
theorem HeaderComment.scanComments {n : Nat} (h : HeaderComment place lines place' texts)
    (header : Header) (hplace : place ≠ .after) (hn : lines.length < n) :
    ∃ left found, RewriteHeader.scanComments n lines place.state header = some (left, found) ∧
      found.copyright = ((Stage.copyrightTexts ⟨place', false⟩ texts).foldl
        Header.decodeCopyrightLine header).copyright := by
  induction h generalizing n header with
  | first line rest hskip hends hlast =>
      obtain ⟨n, rfl⟩ : ∃ m, n = m + 1 := ⟨n - 1, by omega⟩
      have hagain := ((Scan.start_at hplace header).again_iff rfl).not.mpr hlast
      rw [scanComments_of_ends hskip hends rfl, if_neg hagain]
      exact ⟨_, _, rfl, (Scan.start_at hplace header).stands.foldl _⟩
  | behind line rest hskip hends hmodule hmore ih =>
      obtain ⟨n, rfl⟩ : ∃ m, n = m + 1 := ⟨n - 1, by omega⟩
      have hat := Scan.start_at hplace header
      have hstate := (hat.foldl hmodule.2).1.state.trans (Place.nextComment_state _).symm
      have hlen := length_le_of_skip hskip
      have hlt := hmodule.length_linesBehind_lt
      have hsame := (Scan.start_at hplace header).stands.foldl (commentTexts line rest)
      rw [copyrightTexts_eq_nil hmodule.2] at hsame
      rw [scanComments_of_ends hskip hends rfl, if_pos ((hat.again_iff rfl).mpr hmodule), hstate]
      obtain ⟨left, found, hscan, hcopyright⟩ := ih (n := n) _ (Place.nextComment_ne _) (by omega)
      exact ⟨left, found, hscan, hcopyright.trans (foldl_decode_congr hsame)⟩

end HeaderComment

/-! ### The years of the leading comment -/

/-- The text in front of the first `*/`, if there is one. -/
def upToEnd : Line → Option Line
  | [] => none
  | x :: xs => if x = '*' ∧ xs.head? = some '/' then some [] else (upToEnd xs).map (x :: ·)

/-- The lines of a C comment, from behind the `/*` up to the `*/` that ends it. -/
def blockLines : List Line → List Line
  | [] => []
  | line :: lines =>
      match upToEnd line with
      | some text => [text]
      | none => line :: blockLines lines

/-- The comment that a file starts with, behind blank lines: a C comment up to the
first `*/`, or the C++ comment lines in a row. Blank lines have nothing but white
space, while `process` only skips those that are empty. -/
def leadingComment (lines : List Line) : List Line :=
  match lines.dropWhile fun line => line.all isSpace with
  | [] => []
  | line :: rest =>
      if isCCommentAt line then blockLines ((trimLeft line).drop 2 :: rest)
      else (line :: rest).takeWhile fun line => isCppComment (trimLeft line)

/-- The word and a space, and the name somewhere behind it. -/
def NamesCopyright (line : Line) : Prop :=
  ∃ x between, (x = 'C' ∨ x = 'c') ∧
    x :: ("opyright ".toList ++ (between ++ "Carlo Wood".toList)) <:+: line

/-- `process` prints the header `h`, and with it a copyright line that has its
years and its author. -/
structure Prints (options : Options) (currentYear : Nat) (lines : List Line) (h : Header) : Prop where
  header : ∃ left found, collect options lines = some (left, found) ∧
    h = found.canonicalize currentYear
  line : ∃ out changed, process options currentYear lines = some (out, changed) ∧
    Header.doxygenLead ++ (h.yearsText ++ h.author ++ ".".toList) ∈ out

/-- Every year that a copyright line of the leading comment states is among the
printed ones, and the printed author is not a year. -/
def KeepsYears (options : Options) (currentYear : Nat) (lines : List Line) : Prop :=
  ∃ h, Prints options currentYear lines h ∧
    (∀ line ∈ leadingComment lines, NamesCopyright line → ∀ y ∈ statedYears line,
      y ∈ statedYears h.yearsText) ∧
    isYearText h.author = false

/-- Every such year is in the list of one of the `texts`, or there is no list and
it is the current year; and what stands behind the last list is not a year. -/
structure ListsAll (currentYear : Nat) (lines texts : List Line) : Prop where
  years : ∀ line ∈ leadingComment lines, NamesCopyright line → ∀ y ∈ statedYears line,
    (∃ text ∈ texts, ListsYear text y) ∨
      (y = currentYear ∧ ∀ text ∈ texts, ∀ z, ¬ ListsYear text z)
  author : ∀ text ∈ texts.getLast?, ¬ YearBehind text

section Kept
variable {options : Options} {currentYear y : Nat} {lines left texts : List Line} {found : Header}

theorem mem_statedYears_printed
    (htexts : ∀ text ∈ texts, OneLine text ∧ isCopyrightText text = true)
    (hvalid : ∀ y ∈ found.copyrightYears, IsYear y)
    (hfound : found.copyright =
      (texts.foldl Header.decodeCopyrightLine (Header.new options)).copyright) :
    y ∈ statedYears (found.canonicalize currentYear).yearsText ↔
      (∃ text ∈ texts, ListsYear text y) ∨
        (y = currentYear ∧ IsYear y ∧ ∀ text ∈ texts, ∀ z, ¬ ListsYear text z) := by
  obtain ⟨hsame, -⟩ := Prod.mk.inj hfound
  have hmem : ∀ z, z ∈ found.copyrightYears ↔ ∃ text ∈ texts, ListsYear text z := by
    intro z
    rw [hsame, mem_foldl_decode htexts]
    simp [Header.new]
  by_cases hempty : found.copyrightYears = []
  · have hnone : ∀ text ∈ texts, ∀ z, ¬ ListsYear text z := fun text htext z hz => by
      have hz := (hmem z).mpr ⟨text, htext, hz⟩
      rw [hempty] at hz
      cases hz
    have hcanon : (found.canonicalize currentYear).copyrightYears = [currentYear] :=
      if_pos (by simp [hempty])
    rw [mem_statedYears_yearsText_singleton hcanon]
    constructor
    · rintro ⟨hy, hyear⟩
      exact .inr ⟨hy, hyear, hnone⟩
    · rintro (⟨text, htext, hy⟩ | ⟨hy, hyear, -⟩)
      · exact absurd hy (hnone text htext y)
      · exact ⟨hy, hyear⟩
  · have hcanon : (found.canonicalize currentYear).copyrightYears =
        (found.copyrightYears.insertionSort (· ≤ ·)).destutter (· ≠ ·) := if_neg (by simpa using hempty)
    have hyears : AreYears (found.canonicalize currentYear).copyrightYears :=
      hcanon ▸ areYears_sorted hempty hvalid
    rw [mem_statedYears_yearsText hyears, hcanon, mem_sorted, hmem]
    constructor
    · exact .inl
    · rintro (hy | ⟨-, -, hnone⟩)
      · exact hy
      · obtain ⟨z, hz⟩ := List.exists_mem_of_ne_nil _ hempty
        obtain ⟨text, htext, hz⟩ := (hmem z).mp hz
        exact absurd hz (hnone text htext z)

theorem isYearText_printed (currentYear : Nat)
    (htexts : ∀ text ∈ texts, OneLine text ∧ isCopyrightText text = true)
    (hfound : found.copyright =
      (texts.foldl Header.decodeCopyrightLine (Header.new options)).copyright) :
    OneLine (found.canonicalize currentYear).author ∧
      (isYearText (found.canonicalize currentYear).author = true ↔
        ∃ text ∈ texts.getLast?, YearBehind text) := by
  obtain ⟨-, hsame⟩ := Prod.mk.inj hfound
  have hauthor := author_foldl_decode (Header.new options) htexts nofun rfl
  rw [← hsame] at hauthor
  by_cases hempty : found.author = []
  · have hcanon : (found.canonicalize currentYear).author = "Carlo Wood".toList :=
      if_pos (by simp [hempty])
    rw [hempty] at hauthor
    rw [hcanon, ← hauthor.2]
    exact ⟨by unfold OneLine; decide, by decide⟩
  · have hcanon : (found.canonicalize currentYear).author = found.author :=
      if_neg (by simpa using hempty)
    rw [hcanon]
    exact hauthor

theorem prints_of_collect (hcollect : collect options lines = some (left, found))
    (hauthor : OneLine (found.canonicalize currentYear).author) :
    Prints options currentYear lines (found.canonicalize currentYear) := by
  refine ⟨⟨left, found, hcollect, rfl⟩, _, _, by rw [process, hcollect]; rfl, ?_⟩
  refine List.mem_append_left _ ?_
  rw [headerLines_eq, ← Header.copyrightText_eq_yearsText]
  exact List.mem_append_left _ (copyrightText_mem_getlines fun hmem => (hauthor _ hmem).1 rfl)

end Kept

end RewriteHeader
