import TaskSuite.RewriteHeaderStages

/-! The loops of `process` over the index `il`. A read of `input_lines[il]`
behind the end is a fault here, and so is an outer loop that does not come to
its end. -/
namespace RewriteHeader
open Regex

inductive Fault where
  | outOfRange (il : Nat)
  | unfinished
  deriving DecidableEq, Repr

/-- `while (il < el && input_lines[il].empty()) ++il;` -/
def skipEmptyLinesAt (inputLines : List Line) (il : Nat) : Nat :=
  if h : il < inputLines.length then
    if (inputLines.get ⟨il, h⟩).isEmpty then skipEmptyLinesAt inputLines (il + 1) else il
  else il
termination_by inputLines.length - il

/-- The loop over the lines of one comment. Its condition and its body read the
same line, and `il` only goes up. -/
def scanCommentAt (isCComment : Bool) (inputLines : List Line) (leadRegExpr : Regex) (il : Nat)
    (s : Scan) : Except Fault (Nat × Scan) :=
  if h : il < inputLines.length then
    let line := inputLines.get ⟨il, h⟩
    if isCComment || isCppComment (trimLeft line) then
      let s' := s.readText (lineText isCComment leadRegExpr line)
      if isLastLine isCComment line then .ok (il + 1, s')
      else
        scanCommentAt isCComment inputLines (if isCComment then nextLead else leadRegExpr) (il + 1) s'
    else .ok (il, s)
  else .error (.outOfRange il)
termination_by inputLines.length - il

/-- The outer loop, with a bound on the number of its rounds. -/
def scanCommentsAt (inputLines : List Line) :
    Nat → Nat → State → Header → Except Fault (Nat × Header)
  | 0, _, _, _ => .error .unfinished
  | n + 1, il, state, header =>
      let il := skipEmptyLinesAt inputLines il
      if h : il < inputLines.length then
        let isCComment := isCCommentStart (trimLeft (inputLines.get ⟨il, h⟩))
        match scanCommentAt isCComment inputLines (firstLead isCComment) il
            (Scan.start state header) with
        | .error fault => .error fault
        | .ok (il, s) =>
            if !s.sawFileOrBriefOrCopyright && s.sawModule then
              scanCommentsAt inputLines n il s.state s.header
            else .ok (il, s.header)
      else .error (.outOfRange il)

/-- `process`, with the faults of its reads. The two loops behind the outer one
test `il < el` before they read. -/
def processAt (options : Options) (currentYear : Nat) (inputLines : List Line) :
    Except Fault (List Line × Bool) :=
  match scanCommentsAt inputLines (inputLines.length + 1) 0 .searching (Header.new options) with
  | .error fault => .error fault
  | .ok (il, header) =>
      let lines := headerLines (header.canonicalize currentYear) ++
        inputLines.drop (skipEmptyLinesAt inputLines il)
      .ok (lines, inputLines ≠ lines)

/-! ### What is left of the lines -/

section Suffix

theorem scanComment_suffix {isCComment : Bool} {lead : Regex} {lines left : List Line} {s s' : Scan}
    (h : scanComment isCComment lead lines s = some (left, s')) : left <:+ lines := by
  induction lines generalizing lead s with
  | nil => simp [scanComment] at h
  | cons line lines ih =>
      simp only [scanComment] at h
      by_cases hcomment : (isCComment || isCppComment (trimLeft line)) = true
      · rw [if_pos hcomment] at h
        by_cases hlast : isLastLine isCComment line = true
        · rw [if_pos hlast] at h
          cases h
          exact List.suffix_cons line left
        · rw [if_neg hlast] at h
          exact (ih h).trans (List.suffix_cons line lines)
      · rw [if_neg hcomment] at h
        cases h
        exact List.suffix_rfl

theorem scanComments_suffix {n : Nat} {lines left : List Line} {state : State}
    {header header' : Header} (h : scanComments n lines state header = some (left, header')) :
    left <:+ lines := by
  induction n generalizing lines state header with
  | zero => simp [scanComments] at h
  | succ n ih =>
      have hskip : skipEmptyLines lines <:+ lines := List.dropWhile_suffix _
      simp only [scanComments] at h
      cases hlines : skipEmptyLines lines with
      | nil => simp [hlines] at h
      | cons line rest =>
          rw [hlines] at h hskip
          dsimp only at h
          split at h
          · cases h
          · rename_i left' s' hscan
            have hleft := (scanComment_suffix hscan).trans hskip
            split_ifs at h
            · exact (ih h).trans hleft
            · cases h
              exact hleft

end Suffix

/-! ### The index and the lines that are left -/

section Index
variable {inputLines : List Line} {il : Nat}

theorem drop_of_lt (h : il < inputLines.length) :
    inputLines.drop il = inputLines.get ⟨il, h⟩ :: inputLines.drop (il + 1) :=
  List.drop_eq_getElem_cons h

theorem drop_skipEmptyLinesAt (inputLines : List Line) (il : Nat) :
    inputLines.drop (skipEmptyLinesAt inputLines il) = skipEmptyLines (inputLines.drop il) := by
  fun_induction skipEmptyLinesAt inputLines il with
  | case1 il h hempty ih =>
      rw [ih, drop_of_lt h, skipEmptyLines, skipEmptyLines, List.dropWhile_cons_of_pos hempty]
  | case2 il h hempty =>
      rw [drop_of_lt h, skipEmptyLines, List.dropWhile_cons_of_neg hempty]
  | case3 il h =>
      rw [List.drop_eq_nil_of_le (Nat.not_lt.mp h)]
      rfl

theorem skipEmptyLinesAt_le (hil : il ≤ inputLines.length) :
    skipEmptyLinesAt inputLines il ≤ inputLines.length := by
  fun_induction skipEmptyLinesAt inputLines il with
  | case1 il h hempty ih => exact ih h
  | case2 il h hempty => exact h.le
  | case3 il h => exact hil

/-- The index loop reads the lines that the other one is given, and it leaves
the range where that one runs out of lines. -/
theorem scanCommentAt_eq (isCComment : Bool) (lead : Regex) (s : Scan) (hil : il ≤ inputLines.length) :
    scanCommentAt isCComment inputLines lead il s =
      match scanComment isCComment lead (inputLines.drop il) s with
      | none => .error (.outOfRange inputLines.length)
      | some (left, s') => .ok (inputLines.length - left.length, s') := by
  fun_induction scanCommentAt isCComment inputLines lead il s with
  | case1 lead il s h line hcomment s' hlast =>
      rw [drop_of_lt h, scanComment, if_pos hcomment, if_pos hlast]
      simp only [List.length_drop]
      rw [show inputLines.length - (inputLines.length - (il + 1)) = il + 1 by omega]
  | case2 lead il s h line hcomment s' hlast ih =>
      simp only [dite_eq_ite] at ih
      rw [ih h, drop_of_lt h, scanComment, if_pos hcomment, if_neg hlast]
  | case3 lead il s h line hcomment =>
      rw [drop_of_lt h, scanComment, if_neg hcomment, ← drop_of_lt h]
      simp only [List.length_drop]
      rw [show inputLines.length - (inputLines.length - il) = il by omega]
  | case4 lead il s h =>
      have heq : il = inputLines.length := by omega
      rw [heq, List.drop_length, scanComment]

theorem scanComment_eq_or_lt {isCComment : Bool} {lead : Regex} {lines left : List Line} {s s' : Scan}
    (h : scanComment isCComment lead lines s = some (left, s')) :
    s' = s ∨ left.length < lines.length := by
  cases lines with
  | nil => cases h
  | cons line lines =>
      rw [scanComment] at h
      by_cases hcomment : (isCComment || isCppComment (trimLeft line)) = true
      · rw [if_pos hcomment] at h
        by_cases hlast : isLastLine isCComment line = true
        · rw [if_pos hlast] at h
          cases h
          exact .inr (Nat.lt_succ_self _)
        · rw [if_neg hlast] at h
          exact .inr (Nat.lt_succ_of_le (scanComment_suffix h).length_le)
      · rw [if_neg hcomment] at h
        cases h
        exact .inl rfl

theorem scanCommentsAt_eq {n : Nat} {state : State} {header : Header} (hil : il ≤ inputLines.length)
    (hn : inputLines.length - il < n) :
    scanCommentsAt inputLines n il state header =
      match scanComments n (inputLines.drop il) state header with
      | none => .error (.outOfRange inputLines.length)
      | some (left, header') => .ok (inputLines.length - left.length, header') := by
  induction n generalizing il state header with
  | zero => omega
  | succ n ih =>
      have hle := skipEmptyLinesAt_le hil
      have hskip := drop_skipEmptyLinesAt inputLines il
      have hlen : (skipEmptyLines (inputLines.drop il)).length ≤ inputLines.length - il := by
        rw [← List.length_drop]
        exact (List.dropWhile_suffix _).length_le
      rw [scanCommentsAt, scanComments, ← hskip]
      rw [← hskip] at hlen
      generalize skipEmptyLinesAt inputLines il = il' at hle hlen ⊢
      by_cases hlt : il' < inputLines.length
      · simp only [hlt, dite_true]
        rw [scanCommentAt_eq _ _ _ hle, drop_of_lt hlt]
        cases hscan : scanComment (isCCommentStart (trimLeft (inputLines.get ⟨il', hlt⟩)))
            (firstLead (isCCommentStart (trimLeft (inputLines.get ⟨il', hlt⟩))))
            (inputLines.get ⟨il', hlt⟩ :: inputLines.drop (il' + 1)) (Scan.start state header) with
        | none => simp only [hscan]
        | some p =>
            obtain ⟨left, s⟩ := p
            simp only [hscan]
            rw [← drop_of_lt hlt] at hscan
            have hleft : left <:+ inputLines := (scanComment_suffix hscan).trans (List.drop_suffix _ _)
            by_cases hmore : (!s.sawFileOrBriefOrCopyright && s.sawModule) = true
            · have hread : left.length < (inputLines.drop il').length := by
                refine (scanComment_eq_or_lt hscan).resolve_left ?_
                rintro rfl
                simp [Scan.start] at hmore
              have hdrop : inputLines.drop (inputLines.length - left.length) = left :=
                (List.suffix_iff_eq_drop.mp hleft).symm
              simp only [hmore, if_true]
              rw [ih (Nat.sub_le ..) (by omega), hdrop]
            · simp only [hmore, if_false, Bool.false_eq_true]
      · have heq : il' = inputLines.length := by omega
        rw [dif_neg hlt, heq, List.drop_length]

end Index

/-- `process` reads `input_lines` in range, unless it reads the line behind the last one. -/
theorem processAt_eq (options : Options) (currentYear : Nat) (inputLines : List Line) :
    processAt options currentYear inputLines =
      match process options currentYear inputLines with
      | none => .error (.outOfRange inputLines.length)
      | some result => .ok result := by
  rw [processAt, scanCommentsAt_eq (Nat.zero_le _) (by omega), List.drop_zero, process, collect]
  cases hcollect : scanComments (inputLines.length + 1) inputLines .searching (Header.new options) with
  | none => rfl
  | some p =>
      obtain ⟨left, header⟩ := p
      have hdrop : inputLines.drop (inputLines.length - left.length) = left :=
        (List.suffix_iff_eq_drop.mp (scanComments_suffix hcollect)).symm
      simp only [drop_skipEmptyLinesAt, hdrop, Option.map_some]

/-! ### Where the comments end -/

/-- The comment at the front of `lines` has an end: the line that closes a C
comment, or a line behind the last `//` line. -/
def Ends (isCComment : Bool) (lines : List Line) : Prop :=
  if isCComment then ∃ line ∈ lines, isCCommentEnd (trimRight line) = true
  else ∃ line ∈ lines, isCppComment (trimLeft line) = false

def commentLines (isCComment : Bool) (lines : List Line) : List Line :=
  if isCComment then
    lines.take ((lines.takeWhile fun line => !isCCommentEnd (trimRight line)).length + 1)
  else lines.takeWhile fun line => isCppComment (trimLeft line)

def linesBehind (isCComment : Bool) (lines : List Line) : List Line :=
  lines.drop (commentLines isCComment lines).length

/-- The texts of the lines of a comment, the first of which has the lead `lead`. -/
def texts (isCComment : Bool) (lead : Regex) : List Line → List Line
  | [] => []
  | line :: lines =>
      lineText isCComment lead line ::
        lines.map (lineText isCComment (if isCComment then nextLead else lead))

section Ends
variable {isCComment : Bool} {lead : Regex} {line : Line} {lines : List Line}

theorem texts_cons : texts isCComment lead (line :: lines) =
    lineText isCComment lead line ::
      texts isCComment (if isCComment then nextLead else lead) lines := by
  cases lines with
  | nil => rfl
  | cons line' lines => cases isCComment <;> simp [texts]

theorem ends_of_last (lines : List Line) (h : isLastLine isCComment line = true) :
    Ends isCComment (line :: lines) ∧ commentLines isCComment (line :: lines) = [line] ∧
      linesBehind isCComment (line :: lines) = lines := by
  obtain ⟨rfl, hend⟩ := Bool.and_eq_true_iff.mp h
  have hlines : commentLines true (line :: lines) = [line] := by simp [commentLines, hend]
  refine ⟨⟨line, List.mem_cons_self .., hend⟩, hlines, ?_⟩
  rw [linesBehind, hlines]
  rfl

theorem ends_of_comment (lines : List Line)
    (h : (isCComment || isCppComment (trimLeft line)) = true)
    (hlast : isLastLine isCComment line = false) :
    (Ends isCComment (line :: lines) ↔ Ends isCComment lines) ∧
      commentLines isCComment (line :: lines) = line :: commentLines isCComment lines ∧
      linesBehind isCComment (line :: lines) = linesBehind isCComment lines := by
  have hlines : commentLines isCComment (line :: lines) = line :: commentLines isCComment lines := by
    cases isCComment with
    | true =>
        have hend : isCCommentEnd (trimRight line) = false := hlast
        simp [commentLines, hend]
    | false =>
        have hcpp : isCppComment (trimLeft line) = true := h
        simp [commentLines, hcpp]
  refine ⟨?_, hlines, ?_⟩
  · cases isCComment with
    | true =>
        have hend : isCCommentEnd (trimRight line) = false := hlast
        simp [Ends, hend]
    | false =>
        have hcpp : isCppComment (trimLeft line) = true := h
        simp [Ends, hcpp]
  · rw [linesBehind, hlines]
    rfl

theorem ends_of_other (lines : List Line)
    (h : (isCComment || isCppComment (trimLeft line)) = false) :
    Ends isCComment (line :: lines) ∧ commentLines isCComment (line :: lines) = [] ∧
      linesBehind isCComment (line :: lines) = line :: lines := by
  obtain ⟨rfl, hcpp⟩ := Bool.or_eq_false_iff.mp h
  have hlines : commentLines false (line :: lines) = [] := by simp [commentLines, hcpp]
  refine ⟨⟨line, List.mem_cons_self .., hcpp⟩, hlines, ?_⟩
  rw [linesBehind, hlines]
  rfl

/-- The comment loop reads the texts of the comment, if that has an end. -/
theorem scanComment_eq_some {s s' : Scan} {left : List Line} :
    scanComment isCComment lead lines s = some (left, s') ↔
      Ends isCComment lines ∧ left = linesBehind isCComment lines ∧
        s' = (texts isCComment lead (commentLines isCComment lines)).foldl Scan.readText s := by
  induction lines generalizing lead s with
  | nil =>
      cases isCComment <;> simp [scanComment, Ends]
  | cons line lines ih =>
      rw [scanComment]
      cases hcomment : (isCComment || isCppComment (trimLeft line)) with
      | false =>
          obtain ⟨hends, hlines, hbehind⟩ := ends_of_other lines hcomment
          simp [hends, hlines, hbehind, texts, eq_comm]
      | true =>
          cases hlast : isLastLine isCComment line with
          | true =>
              obtain ⟨hends, hlines, hbehind⟩ := ends_of_last lines hlast
              simp [hends, hlines, hbehind, texts, eq_comm]
          | false =>
              obtain ⟨hends, hlines, hbehind⟩ := ends_of_comment lines hcomment hlast
              simp [ih, hends, hlines, hbehind, texts_cons]

end Ends

/-! ### Comments that only name the module -/

/-- The texts of a comment that are looked at. -/
def searchedTexts : Place → List Line → List Line
  | _, [] => []
  | place, text :: texts =>
      if place.searches then text :: searchedTexts (place.next text) texts
      else searchedTexts (place.next text) texts

theorem forall_searchedTexts_cons {place : Place} {text : Line} {texts : List Line}
    {P : Line → Prop} : (∀ t ∈ searchedTexts place (text :: texts), P t) ↔
      (place.searches = true → P text) ∧ ∀ t ∈ searchedTexts (place.next text) texts, P t := by
  rw [searchedTexts]
  cases place.searches <;> simp

/-- The comment names the module, and has no `@file` or copyright line. -/
def ModuleOnly (place : Place) (texts : List Line) : Prop :=
  (∃ text ∈ searchedTexts place texts, isModuleText text = true) ∧
    ∀ text ∈ searchedTexts place texts,
      isModuleText text = false → isFileOrCopyrightText text = false

def Place.nextComment : Place → Place
  | .after => .before
  | place => place

/-- The comment loop is at this place, and has not seen an `@file` or copyright line. -/
structure Scan.At (s : Scan) (place : Place) : Prop where
  firstLine : s.firstLine = true
  nothing : s.sawFileOrBriefOrCopyright = false
  noCopyright : s.sawCopyright = false
  state : s.state = place.state
  license : place.searches = true → s.sawLicense = decide (place = .after)

section Flags
variable {s : Scan} {place : Place} {text : Line}

theorem Scan.foldl_sawFile {texts : List Line} (h : s.sawFileOrBriefOrCopyright = true) :
    (texts.foldl Scan.readText s).sawFileOrBriefOrCopyright = true := by
  induction texts generalizing s with
  | nil => exact h
  | cons text texts ih =>
      refine ih ?_
      rw [(s.readText_behind text).sawFile, h, Bool.true_or]

theorem Scan.At.stands (h : s.At place) : s.Stands ⟨place, false⟩ :=
  ⟨h.firstLine, h.state, nofun, h.license⟩

theorem Scan.At.found (h : s.At place) (hsearch : place.searches = true)
    (hmodule : isModuleText text = false) (hfound : isFileOrCopyrightText text = true) :
    (s.readText text).sawFileOrBriefOrCopyright = true := by
  have hclass : (s.classify text).1 ∈ [State.file, .brief, .copyright] := by
    rw [h.stands.classify_search hsearch rfl]
    rw [isFileOrCopyrightText_eq] at hfound
    cases hfile : isFileText text with
    | true =>
        rw [h.stands.search_file hmodule hfile]
        decide
    | false =>
        rw [hfile, Bool.false_or] at hfound
        rw [h.stands.search_copyright hmodule hfile hfound]
        decide
  rw [(s.readText_behind text).sawFile, decide_eq_true hclass, Bool.or_true]

theorem Scan.At.classify (h : s.At place)
    (hother : place.searches = true →
      isModuleText text = false → isFileOrCopyrightText text = false) :
    (s.classify text).1 ∉ [State.file, .brief, .copyright] ∧
      decide ((s.classify text).1 = .moduleLine) = (place.searches && isModuleText text) := by
  cases hsearch : place.searches with
  | false =>
      have hclass := (h.stands.next_skipped text hsearch).2
      have hother : ∀ kind ∈ [State.license, .trailing], kind ∉ [State.file, .brief, .copyright] := by
        decide
      exact ⟨hother _ hclass, decide_eq_false (ne_of_mem_of_not_mem hclass (by decide))⟩
  | true =>
      cases hmodule : isModuleText text with
      | true =>
          rw [h.stands.classify_search hsearch rfl, h.stands.search_module hmodule]
          decide
      | false =>
          have hnone := hother hsearch hmodule
          rw [isFileOrCopyrightText_eq, Bool.or_eq_false_iff] at hnone
          have hclass := (h.stands.next_other hsearch rfl hmodule hnone.1 hnone.2).2
          have hkinds : ∀ kind ∈ [State.searching, .signature, .partOf, .license, .trailing],
              kind ∉ [State.file, .brief, .copyright] := by decide
          exact ⟨hkinds _ hclass, decide_eq_false (ne_of_mem_of_not_mem hclass (by decide))⟩

theorem Scan.At.next (h : s.At place)
    (hother : place.searches = true →
      isModuleText text = false → isFileOrCopyrightText text = false) :
    (s.readText text).At (place.next text) ∧
      (s.readText text).sawModule = (s.sawModule || (place.searches && isModuleText text)) := by
  have hbehind := s.readText_behind text
  obtain ⟨hclass, hmodule⟩ := h.classify hother
  have hnext := (h.stands.next text).1
  rw [Stage.next_eq hother] at hnext
  refine ⟨⟨hnext.firstLine, ?_, ?_, hnext.state, hnext.license⟩, ?_⟩
  · rw [hbehind.sawFile, h.nothing, decide_eq_false hclass, Bool.or_false]
  · have hne : (s.classify text).1 ≠ .copyright := fun heq => hclass (by rw [heq]; decide)
    rw [hbehind.sawCopyright, h.noCopyright, decide_eq_false hne, Bool.or_false]
  · rw [hbehind.sawModule, hmodule]

theorem Scan.At.foldl {texts : List Line} (h : s.At place)
    (hother : ∀ text ∈ searchedTexts place texts,
      isModuleText text = false → isFileOrCopyrightText text = false) :
    (texts.foldl Scan.readText s).At (texts.foldl Place.next place) ∧
      (texts.foldl Scan.readText s).sawModule =
        (s.sawModule || (searchedTexts place texts).any isModuleText) := by
  induction texts generalizing s place with
  | nil => exact ⟨h, (Bool.or_false _).symm⟩
  | cons text texts ih =>
      obtain ⟨htext, hmore⟩ := forall_searchedTexts_cons.mp hother
      obtain ⟨hat, hmodule⟩ := h.next htext
      obtain ⟨hat', hmodule'⟩ := ih hat hmore
      refine ⟨hat', ?_⟩
      rw [List.foldl_cons, hmodule', hmodule, searchedTexts, Bool.or_assoc]
      cases place.searches <;> rfl

/-- A comment with such a line. -/
theorem Scan.At.foldl_found {texts : List Line} (h : s.At place)
    (hfound : ∃ text ∈ searchedTexts place texts,
      isModuleText text = false ∧ isFileOrCopyrightText text = true) :
    (texts.foldl Scan.readText s).sawFileOrBriefOrCopyright = true := by
  induction texts generalizing s place with
  | nil => simp [searchedTexts] at hfound
  | cons text texts ih =>
      obtain ⟨found, hmem, hmodule, hfile⟩ := hfound
      by_cases hother : place.searches = true →
          isModuleText text = false → isFileOrCopyrightText text = false
      · refine ih (h.next hother).1 ⟨found, ?_, hmodule, hfile⟩
        rw [searchedTexts] at hmem
        cases hsearch : place.searches with
        | false => simpa [hsearch] using hmem
        | true =>
            rw [hsearch, if_pos rfl] at hmem
            refine (List.mem_cons.mp hmem).resolve_left ?_
            rintro rfl
            simp [hother hsearch hmodule] at hfile
      · push Not at hother
        obtain ⟨hsearch, hmodule', hfile'⟩ := hother
        rw [List.foldl_cons]
        exact foldl_sawFile (h.found hsearch hmodule' (Bool.eq_true_of_not_eq_false hfile'))

/-- The outer loop starts again behind the comments that only name the module. -/
theorem Scan.At.again_iff {texts : List Line} (h : s.At place) (hmodule : s.sawModule = false) :
    (!(texts.foldl Scan.readText s).sawFileOrBriefOrCopyright &&
      (texts.foldl Scan.readText s).sawModule) = true ↔ ModuleOnly place texts := by
  by_cases hother : ∀ text ∈ searchedTexts place texts,
      isModuleText text = false → isFileOrCopyrightText text = false
  · obtain ⟨hat, hsaw⟩ := h.foldl hother
    rw [hat.nothing, hsaw, hmodule, Bool.false_or, Bool.not_false, Bool.true_and, List.any_eq_true]
    exact ⟨fun hex => ⟨hex, hother⟩, And.left⟩
  · have hsaw : (texts.foldl Scan.readText s).sawFileOrBriefOrCopyright = true := by
      push Not at hother
      obtain ⟨text, hmem, hmodule, hfile⟩ := hother
      exact h.foldl_found ⟨text, hmem, hmodule, Bool.eq_true_of_not_eq_false hfile⟩
    rw [hsaw, Bool.not_true, Bool.false_and]
    exact ⟨fun hfalse => absurd hfalse Bool.false_ne_true, fun honly => absurd honly.2 hother⟩

end Flags

/-! ### The comments at the front of a file -/

def isCCommentAt (line : Line) : Bool := isCCommentStart (trimLeft line)

def commentTexts (line : Line) (rest : List Line) : List Line :=
  texts (isCCommentAt line) (firstLead (isCCommentAt line))
    (commentLines (isCCommentAt line) (line :: rest))

/-- There is a line behind the empty ones, the comment that starts there has an
end, and if all it has is the name of the module, then the same is true of the
lines behind it. -/
inductive Closes : Place → List Line → Prop
  | last {place : Place} {lines : List Line} (line : Line) (rest : List Line)
      (hskip : skipEmptyLines lines = line :: rest)
      (hends : Ends (isCCommentAt line) (line :: rest))
      (hlast : ¬ ModuleOnly place (commentTexts line rest)) : Closes place lines
  | more {place : Place} {lines : List Line} (line : Line) (rest : List Line)
      (hskip : skipEmptyLines lines = line :: rest)
      (hends : Ends (isCCommentAt line) (line :: rest))
      (hmodule : ModuleOnly place (commentTexts line rest))
      (hmore : Closes ((commentTexts line rest).foldl Place.next place).nextComment
        (linesBehind (isCCommentAt line) (line :: rest))) : Closes place lines

section Closes
variable {place : Place} {line : Line} {rest lines : List Line}

theorem Place.nextComment_ne (place : Place) : place.nextComment ≠ .after := by
  cases place <;> decide

theorem Place.nextComment_state (place : Place) : place.nextComment.state = place.state := by
  cases place <;> rfl

theorem Scan.start_at (hplace : place ≠ .after) (header : Header) :
    (Scan.start place.state header).At place :=
  ⟨rfl, rfl, rfl, rfl, fun _ => (decide_eq_false hplace).symm⟩

theorem length_le_of_skip (hskip : skipEmptyLines lines = line :: rest) :
    (line :: rest).length ≤ lines.length := by
  rw [← hskip]
  exact (List.dropWhile_suffix _).length_le

theorem ModuleOnly.length_linesBehind_lt (h : ModuleOnly place (commentTexts line rest)) :
    (linesBehind (isCCommentAt line) (line :: rest)).length < (line :: rest).length := by
  have hne : commentLines (isCCommentAt line) (line :: rest) ≠ [] := by
    intro hnil
    obtain ⟨⟨text, hmem, -⟩, -⟩ := h
    simp [commentTexts, hnil, texts, searchedTexts] at hmem
  have hpos := List.length_pos_iff.mpr hne
  rw [linesBehind, List.length_drop]
  simp only [List.length_cons]
  omega

/-- What a round of the outer loop leads to, by the lines that it finds. -/
theorem closes_iff (hskip : skipEmptyLines lines = line :: rest) :
    Closes place lines ↔ Ends (isCCommentAt line) (line :: rest) ∧
      (ModuleOnly place (commentTexts line rest) →
        Closes ((commentTexts line rest).foldl Place.next place).nextComment
          (linesBehind (isCCommentAt line) (line :: rest))) := by
  constructor
  · intro h
    cases h with
    | last line' rest' hskip' hends hlast =>
        obtain ⟨rfl, rfl⟩ := List.cons.inj (hskip'.symm.trans hskip)
        exact ⟨hends, fun hmodule => absurd hmodule hlast⟩
    | more line' rest' hskip' hends hmodule hmore =>
        obtain ⟨rfl, rfl⟩ := List.cons.inj (hskip'.symm.trans hskip)
        exact ⟨hends, fun _ => hmore⟩
  · rintro ⟨hends, hmore⟩
    by_cases hmodule : ModuleOnly place (commentTexts line rest)
    · exact .more line rest hskip hends hmodule (hmore hmodule)
    · exact .last line rest hskip hends hmodule

theorem not_closes_of_nil (hskip : skipEmptyLines lines = []) : ¬ Closes place lines := by
  intro h
  cases h with
  | last line rest hskip' => simp [hskip] at hskip'
  | more line rest hskip' => simp [hskip] at hskip'

theorem scanComments_of_ends {n : Nat} {state : State} {header : Header} {s : Scan}
    (hskip : skipEmptyLines lines = line :: rest) (hends : Ends (isCCommentAt line) (line :: rest))
    (hs : s = (commentTexts line rest).foldl Scan.readText (Scan.start state header)) :
    scanComments (n + 1) lines state header =
      if !s.sawFileOrBriefOrCopyright && s.sawModule then
        scanComments n (linesBehind (isCCommentAt line) (line :: rest)) s.state s.header
      else some (linesBehind (isCCommentAt line) (line :: rest), s.header) := by
  have hscan : scanComment (isCCommentStart (trimLeft line))
      (firstLead (isCCommentStart (trimLeft line))) (line :: rest) (Scan.start state header) =
        some (linesBehind (isCCommentAt line) (line :: rest), s) :=
    scanComment_eq_some.mpr ⟨hends, rfl, hs⟩
  simp only [scanComments, hskip, hscan]

theorem scanComments_of_not_ends {n : Nat} {state : State} {header : Header}
    (hskip : skipEmptyLines lines = line :: rest)
    (hends : ¬ Ends (isCCommentAt line) (line :: rest)) :
    scanComments (n + 1) lines state header = none := by
  have hscan : scanComment (isCCommentStart (trimLeft line))
      (firstLead (isCCommentStart (trimLeft line))) (line :: rest) (Scan.start state header) = none :=
    Option.eq_none_iff_forall_not_mem.mpr fun p hp => hends (scanComment_eq_some.mp hp).1
  simp only [scanComments, hskip, hscan]

theorem scanComments_eq_some_iff {n : Nat} {header : Header} (hn : lines.length < n)
    (hplace : place ≠ .after) :
    (∃ r, scanComments n lines place.state header = some r) ↔ Closes place lines := by
  induction n generalizing lines place header with
  | zero => omega
  | succ n ih =>
      cases hskip : skipEmptyLines lines with
      | nil => simp [scanComments, hskip, not_closes_of_nil hskip]
      | cons line rest =>
          have hlen := length_le_of_skip hskip
          rw [closes_iff hskip]
          by_cases hends : Ends (isCCommentAt line) (line :: rest)
          · have hat := Scan.start_at hplace header
            rw [scanComments_of_ends hskip hends rfl]
            by_cases hmodule : ModuleOnly place (commentTexts line rest)
            · have hstate := (hat.foldl hmodule.2).1.state.trans (Place.nextComment_state _).symm
              have hlt := hmodule.length_linesBehind_lt
              rw [if_pos ((hat.again_iff rfl).mpr hmodule), hstate,
                ih (by omega) (Place.nextComment_ne _)]
              simp [hends, hmodule]
            · rw [if_neg (fun hagain => hmodule ((hat.again_iff rfl).mp hagain))]
              simp [hends, hmodule]
          · simp [scanComments_of_not_ends hskip hends, hends]

end Closes

/-- The loops of `process` come to an end within the file exactly if the
comments at its front do. -/
theorem process_safe_iff (options : Options) (currentYear : Nat) (inputLines : List Line) :
    (∃ result, processAt options currentYear inputLines = .ok result) ↔
      Closes .before inputLines := by
  rw [← scanComments_eq_some_iff (n := inputLines.length + 1) (Nat.lt_succ_self _) (by decide),
    processAt_eq, process]
  change _ ↔ ∃ r, collect options inputLines = some r
  cases collect options inputLines <;> simp

/-- The first line of an empty file is read. -/
theorem empty_file_out_of_range :
    processAt ⟨[], []⟩ 2024 [] = .error (.outOfRange 0) ∧
      ¬ ∃ result, processAt ⟨[], []⟩ 2024 [] = .ok result := by
  have hfault : processAt ⟨[], []⟩ 2024 [] = .error (.outOfRange 0) := processAt_eq _ _ _
  refine ⟨hfault, ?_⟩
  rintro ⟨result, hresult⟩
  rw [hfault] at hresult
  cases hresult

end RewriteHeader
