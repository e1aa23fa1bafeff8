import TaskSuite.RewriteHeaderComment
import TaskSuite.RewriteHeaderFound

/-! The lines of a printed header, as `process` finds them when it is run again:
the texts in them, and what the regexes make of these texts. -/
namespace RewriteHeader
open Regex

/-! ### The printed lines -/

def spaced (texts : List Line) : List Line := if texts.isEmpty then [] else [] :: texts

def moduleText (name desc : Line) : Line := name ++ (" -- ".toList ++ desc)

def partOfText (name : Line) : Line := "This file is part of ".toList ++ (name ++ ['.'])

def Header.middleLines (h : Header) : List Line :=
  "@file".toList :: ("@brief ".toList ++ h.brief) :: [] :: h.copyrightText :: [] :: h.signature

/-- The texts of the printed lines up to the license. -/
def Header.frontLines (h : Header) : List Line :=
  (if h.moduleName.isEmpty then [] else [moduleText h.moduleName h.moduleDesc, []]) ++
    (h.middleLines ++ ((if h.moduleName.isEmpty then [] else [[], partOfText h.moduleName]) ++ [[]]))

def Header.licenseLines (h : Header) : List Line := h.license ++ spaced h.trailing

def printed (text : Line) : List Line := getlines (Header.printLine text)

def readBack (text : Line) : List Line := (printed text).map (plainText true false)

section Lines
variable {h : Header} {text : Line} {texts : List Line} {u v : Line}

theorem printLine_of_ne_nil (ht : text ≠ []) :
    Header.printLine text = Header.doxygenLead ++ (text ++ ['\n']) := by
  rw [Header.printLine, if_neg (fun hnil => ht (List.isEmpty_iff.mp hnil)), List.append_assoc]

theorem flatMap_ite {b : Bool} {f : Line → List Char} {lines : List Line} :
    (if b then [] else lines).flatMap f = if b then [] else lines.flatMap f := by
  cases b <;> rfl

theorem moduleText_ne_nil (name desc : Line) : moduleText name desc ≠ [] :=
  List.append_ne_nil_of_right_ne_nil _ (List.append_ne_nil_of_left_ne_nil (by decide) _)

theorem partOfText_ne_nil (name : Line) : partOfText name ≠ [] :=
  List.append_ne_nil_of_left_ne_nil (by decide) _

theorem printLine_moduleText (name desc : Line) : Header.printLine (moduleText name desc) =
    Header.doxygenLead ++ (name ++ (" -- ".toList ++ (desc ++ ['\n']))) := by
  rw [printLine_of_ne_nil (moduleText_ne_nil name desc), moduleText, List.append_assoc, List.append_assoc]

theorem printLine_partOfText (name : Line) : Header.printLine (partOfText name) =
    Header.doxygenLead ++ ("This file is part of ".toList ++ (name ++ ".\n".toList)) := by
  have hassoc : partOfText name ++ ['\n'] =
      "This file is part of ".toList ++ (name ++ (['.'] ++ ['\n'])) :=
    (List.append_assoc _ _ _).trans (congrArg _ (List.append_assoc _ _ _))
  exact (printLine_of_ne_nil (partOfText_ne_nil name)).trans (congrArg _ hassoc)

theorem print_eq (h : Header) : h.print = Header.doxygenStart ++ '\n' ::
    (h.frontLines.flatMap Header.printLine ++
      (h.licenseLines.flatMap Header.printLine ++ (Header.doxygenEnd ++ ['\n']))) := by
  have hfile := @printLine_of_ne_nil "@file".toList (by decide)
  have hbrief := @printLine_of_ne_nil ("@brief ".toList ++ h.brief)
    (List.append_ne_nil_of_left_ne_nil (by decide) _)
  have hcopyright := @printLine_of_ne_nil h.copyrightText
    (List.append_ne_nil_of_right_ne_nil _ (by decide))
  have hnl : "@file\n".toList = "@file".toList ++ ['\n'] := by decide
  simp only [Header.print, Header.pieces, Header.frontLines, Header.middleLines, Header.licenseLines, spaced,
    List.cons_append, List.flatten_cons, List.flatten_nil, List.flatMap_append, List.flatMap_cons, List.flatMap_nil,
    flatMap_ite, hfile, hbrief, hcopyright, hnl,
    printLine_moduleText, printLine_partOfText,
    List.append_nil, List.append_assoc]
  cases h.moduleName.isEmpty <;> cases h.trailing <;>
    simp only [Bool.false_eq_true, if_false, if_true, List.nil_append, List.append_assoc,
      List.cons_append, List.isEmpty_nil, List.isEmpty_cons, List.flatMap_nil]

theorem getlines_printLines (texts : List Line) (s : List Char) :
    getlines (texts.flatMap Header.printLine ++ s) = texts.flatMap printed ++ getlines s := by
  induction texts with
  | nil => rfl
  | cons text texts ih =>
      rw [List.flatMap_cons, List.append_assoc, (ended_printLine text).getlines_append, ih,
        List.flatMap_cons, List.append_assoc, printed]

theorem getlines_print_eq (h : Header) : getlines h.print = Header.doxygenStart ::
    ((h.frontLines ++ h.licenseLines).flatMap printed ++ [Header.doxygenEnd]) := by
  rw [print_eq, getlines_line (by decide), getlines_printLines, getlines_printLines,
    List.flatMap_append, List.append_assoc]
  rfl

theorem printed_of_ne_nil (hline : OneLine text) (hne : text ≠ []) :
    printed text = [Header.doxygenLead ++ text] := by
  have hnl : '\n' ∉ Header.doxygenLead ++ text := by
    intro hmem
    rcases List.mem_append.mp hmem with hmem | hmem
    · revert hmem
      decide
    · exact (hline _ hmem).1 rfl
  rw [printed, printLine_of_ne_nil hne, ← List.append_assoc, getlines_line hnl]
  rfl

/-- A `*/` at the end of a text is not begun in front of it. -/
theorem isCCommentEnd_append (hu : '*' ∉ u) : isCCommentEnd (u ++ v) = isCCommentEnd v := by
  rw [isCCommentEnd, isCCommentEnd, Bool.eq_iff_iff, List.isSuffixOf_iff_suffix,
    List.isSuffixOf_iff_suffix]
  constructor
  · rintro ⟨w, hw⟩
    rcases List.append_eq_append_iff.mp hw with ⟨c, huc, hc⟩ | ⟨c, -, hv⟩
    · cases c with
      | nil => exact ⟨[], hc⟩
      | cons x c =>
          obtain ⟨rfl, -⟩ := List.cons.inj hc
          rw [huc] at hu
          exact absurd (List.mem_append_right w (List.mem_cons_self ..)) hu
    · exact ⟨c, hv.symm⟩
  · exact fun hv => hv.trans (List.suffix_append u v)

theorem isCCommentEnd_space (u v : Line) : isCCommentEnd (u ++ ' ' :: v) = isCCommentEnd v := by
  have hspace := @isCCommentEnd_append [' '] v (by decide)
  rw [List.singleton_append] at hspace
  rw [← hspace, isCCommentEnd, isCCommentEnd, Bool.eq_iff_iff, List.isSuffixOf_iff_suffix,
    List.isSuffixOf_iff_suffix]
  constructor
  · rintro ⟨w, hw⟩
    rcases List.append_eq_append_iff.mp hw with ⟨c, -, hc⟩ | ⟨c, -, hv⟩
    · have hmem : ' ' ∈ ['*', '/'] := by
        rw [hc]
        exact List.mem_append_right c (List.mem_cons_self ..)
      exact absurd hmem (by decide)
    · exact ⟨c, hv.symm⟩
  · exact fun hv => hv.trans (List.suffix_append u _)

theorem period_end (s : Line) : trimRight (s ++ ['.']) = s ++ ['.'] ∧ isCCommentEnd (s ++ ['.']) = false := by
  constructor
  · rw [trimRight_append]
    exact if_neg (by decide)
  · rw [isCCommentEnd, ← Bool.not_eq_true, List.isSuffixOf_iff_suffix]
    rintro ⟨front, hfront⟩
    have hlast := congrArg List.getLast? hfront
    rw [List.getLast?_append, List.getLast?_append] at hlast
    cases hlast

theorem isLastLine_lead (hend : isCCommentEnd (trimRight text) = false) :
    isLastLine true (Header.doxygenLead ++ text) = false := by
  rw [isLastLine, Bool.true_and, trimRight_append]
  split_ifs
  · decide
  · exact (isCCommentEnd_space [' ', '*'] _).trans hend

theorem printed_inside (hline : OneLine text) (hend : isCCommentEnd (trimRight text) = false) :
    ∀ line ∈ printed text, isLastLine true line = false := by
  by_cases hne : text = []
  · subst hne
    decide
  · rw [printed_of_ne_nil hline hne]
    exact List.forall_mem_singleton.mpr (isLastLine_lead hend)

theorem readBack_of_oneLine (hline : OneLine text) (hend : isCCommentEnd (trimRight text) = false) :
    readBack text = [trimRight text] := by
  by_cases hne : text = []
  · subst hne
    decide
  · have hbehind : behindLead true false (Header.doxygenLead ++ text) = text := by
      show dropSpace (('*' :: ' ' :: text).dropWhile (· = '*')) = text
      rw [List.dropWhile_cons_of_pos (by decide), List.dropWhile_cons_of_neg (by decide), dropSpace,
        if_pos rfl]
    rw [readBack, printed_of_ne_nil hline hne, List.map_singleton, plainText, hbehind]
    simp only [hline, if_true, isLastLine_lead hend, Bool.false_eq_true, if_false]

theorem readBack_of_isText (hline : OneLine text) (htrim : trimRight text = text)
    (hend : isCCommentEnd text = false) : readBack text = [text] := by
  have hback := readBack_of_oneLine hline (by rwa [htrim])
  rwa [htrim] at hback

theorem flatMap_readBack (h : ∀ text ∈ texts, readBack text = [text]) : texts.flatMap readBack = texts := by
  induction texts with
  | nil => rfl
  | cons text texts ih =>
      obtain ⟨htext, htexts⟩ := List.forall_mem_cons.mp h
      rw [List.flatMap_cons, htext, ih htexts, List.singleton_append]

/-- The comment at the front of some lines, if its end is the first that there is. -/
theorem commentLines_of_inside {first last : Line} {lines rest : List Line}
    (hfirst : isLastLine true first = false) (hinside : ∀ line ∈ lines, isLastLine true line = false)
    (hlast : isLastLine true last = true) :
    commentLines true (first :: (lines ++ last :: rest)) = first :: (lines ++ [last]) := by
  have hall : ∀ line ∈ first :: lines, (!isCCommentEnd (trimRight line)) = true := by
    refine List.forall_mem_cons.mpr ⟨by simpa [isLastLine] using hfirst, fun line hmem => ?_⟩
    simpa [isLastLine] using hinside line hmem
  have hstop : (!isCCommentEnd (trimRight last)) = false := by simpa [isLastLine] using hlast
  have htake : (first :: (lines ++ last :: rest)).takeWhile (fun line => !isCCommentEnd (trimRight line)) =
      first :: lines := by
    rw [← List.cons_append, List.takeWhile_append_of_pos hall,
      List.takeWhile_cons_of_neg (by simp [hstop]), List.append_nil]
  have hsplit : first :: (lines ++ last :: rest) = (first :: (lines ++ [last])) ++ rest := by simp
  rw [commentLines, if_pos rfl, htake, hsplit, List.take_left']
  simp

theorem sawFile_of_read {s : Scan} {stage : Stage} (hs : s.Stands stage)
    (hfile : (State.file, text) ∈ stage.read s.sawCopyright texts) :
    (texts.foldl Scan.readText s).sawFileOrBriefOrCopyright = true := by
  induction texts generalizing s stage with
  | nil => cases hfile
  | cons t texts ih =>
      have hbehind := s.readText_behind t
      rw [hs.classify_eq] at hbehind
      rw [Stage.read, ← hbehind.sawCopyright] at hfile
      rcases List.mem_cons.mp hfile with hfirst | hmore
      · have hsaw : (s.readText t).sawFileOrBriefOrCopyright = true := by
          rw [hbehind.sawFile, ← (Prod.mk.inj hfirst).1]
          exact Bool.or_true _
        rw [List.foldl_cons]
        exact Scan.foldl_sawFile hsaw
      · exact ih (hs.next t).1 hmore

/-- A comment with an `@file` line is the last that is read. -/
theorem not_moduleOnly (hfile : (State.file, text) ∈ Stage.read ⟨.before, false⟩ false texts) :
    ¬ ModuleOnly .before texts := by
  have hat : (Scan.start .searching (Header.new ⟨[], []⟩)).At .before := by
    exact @Scan.start_at .before (by decide) _
  rw [← hat.again_iff rfl, sawFile_of_read hat.stands hfile]
  exact Bool.false_ne_true

/-- The comment that a printed header is, and what is read of it. -/
theorem front_print {reading : Reading} (left : List Line)
    (hinside : ∀ line ∈ (h.frontLines ++ h.licenseLines).flatMap printed, isLastLine true line = false)
    (hread : Stage.read ⟨.before, false⟩ false
      ([] :: ((h.frontLines ++ h.licenseLines).flatMap readBack ++ [[]])) = reading)
    (hfile : (State.file, text) ∈ reading) :
    Front .before (headerLines h ++ left) [reading] ([] :: left) := by
  have hlines : headerLines h ++ left = Header.doxygenStart ::
      ((h.frontLines ++ h.licenseLines).flatMap printed ++ Header.doxygenEnd :: [] :: left) := by
    rw [headerLines_eq, getlines_print_eq]
    simp
  have hcomment : isCCommentAt Header.doxygenStart = true := by decide
  generalize hprinted : (h.frontLines ++ h.licenseLines).flatMap printed = lines at hinside hlines
  have hfront : commentLines true (Header.doxygenStart :: (lines ++ Header.doxygenEnd :: [] :: left)) =
      Header.doxygenStart :: (lines ++ [Header.doxygenEnd]) :=
    commentLines_of_inside (by decide) hinside (by decide)
  have htexts : plainTexts Header.doxygenStart (lines ++ Header.doxygenEnd :: [] :: left) =
      [] :: ((h.frontLines ++ h.licenseLines).flatMap readBack ++ [[]]) := by
    have hstart : plainText true true Header.doxygenStart = [] := by decide
    have hend : plainText true false Header.doxygenEnd = [] := by decide
    have hback : (h.frontLines ++ h.licenseLines).flatMap readBack = lines.map (plainText true false) := by
      rw [← hprinted, List.map_flatMap]
      rfl
    rw [plainTexts, hcomment, hfront, hback]
    simp only [hstart, List.map_append, List.map_singleton, hend]
  have hbehind : linesBehind true (Header.doxygenStart :: (lines ++ Header.doxygenEnd :: [] :: left)) =
      [] :: left := by
    rw [linesBehind, hfront]
    simp
  have hends : Ends true (Header.doxygenStart :: (lines ++ Header.doxygenEnd :: [] :: left)) :=
    ⟨Header.doxygenEnd, by simp, by decide⟩
  have hlast := not_moduleOnly (hread ▸ hfile)
  rw [← htexts] at hread hlast
  rw [← hcomment] at hends hbehind
  have hcomments := Front.last _ _ (List.dropWhile_cons_of_neg (by decide)) hends hlast
  rwa [hbehind, hread, ← hlines] at hcomments

end Lines

/-! ### The regexes on the printed texts -/

section Regexps
variable {name desc brief s : Line}

theorem regexMatch_brief (hline : OneLine brief)
    (hleft : ∀ x, brief.head? = some x → isSpace x = false) :
    regexMatch briefRegexp ("@brief ".toList ++ brief) =
      some (Function.update (fun _ => []) 1 brief) := by
  show regexMatch briefRegexp ('@' :: ("brief".toList ++ ' ' :: brief)) = _
  simp only [regexMatch, briefRegexp, concat, run_seq, oneOf, run_char_cons]
  rw [if_pos (by decide), run_literal]
  simp only [plus, run_seq, space, run_char_cons]
  rw [if_pos (by decide), run_star_char_stop hleft]
  exact run_line hline

theorem run_module_rest {first : Bool} {c : Captures} (hline : OneLine desc) :
    run (concat [plus space, literal "--".toList, plus space, .group 2 (.star dot)])
      ⟨first, ' ' :: ("-- ".toList ++ desc)⟩ c (fun pos c => if pos.rest.isEmpty then some c else none) =
      some (Function.update c 2 (desc.dropWhile isSpace)) := by
  show run _ ⟨first, ' ' :: ("--".toList ++ ' ' :: desc)⟩ _ _ = _
  simp only [concat, plus, run_seq, space, run_char_cons]
  rw [if_pos (by decide)]
  refine (run_star_char_stop (s := '-' :: ('-' :: ' ' :: desc)) fun y hy => ?_).trans ?_
  · cases hy
    decide
  refine (run_literal (l := "--".toList) (s := ' ' :: desc)).trans ?_
  rw [run_char_cons, if_pos (by decide)]
  exact run_star_char_takeWhile (run_line (hline.of_suffix (List.dropWhile_suffix _)))

theorem regexMatch_module (hne : name ≠ []) (hname : ∀ x ∈ name, isSpace x = false)
    (hline : OneLine desc) :
    regexMatch moduleRegexp (name ++ (" -- ".toList ++ desc)) =
      some (Function.update (Function.update (fun _ => []) 1 name) 2 (desc.dropWhile isSpace)) := by
  obtain ⟨x, xs, rfl⟩ := List.exists_cons_of_ne_nil hne
  obtain ⟨hx, hxs⟩ := List.forall_mem_cons.mp hname
  have hgroup := take_front (x :: xs) (" -- ".toList ++ desc)
  rw [List.cons_append] at hgroup ⊢
  rw [regexMatch, moduleRegexp, concat, run_seq, run_group, plus, run_seq, nonSpace, run_char_cons,
    if_pos (by simpa using hx)]
  refine run_star_char_append (fun y hy => by simpa using hxs y hy) ?_
  refine (run_star_char_stop (s := ' ' :: ("-- ".toList ++ desc)) fun y hy => ?_).trans ?_
  · cases hy
    decide
  refine (run_module_rest hline).trans ?_
  rw [← hgroup]
  rfl

theorem moduleRegexp_shape {sm : Captures} (h : regexMatch moduleRegexp s = some sm) :
    ∃ a b r, s = a ++ (b ++ '-' :: r) ∧ (∀ x ∈ a, isSpace x = false) ∧ b ≠ [] ∧
      ∀ x ∈ b, isSpace x = true := by
  obtain ⟨pos, c, hm, -⟩ := run_sound h
  obtain ⟨pos₁, c₁, ⟨c₀, ⟨pos₀, c₀', ⟨x, hx, hnon, -⟩, hmore⟩, -⟩, pos₂, c₂,
    ⟨pos₂', c₂', ⟨y, hy, hspace, -⟩, hspaces⟩, pos₃, c₃, hm, -⟩ := hm
  obtain ⟨a, ha, hall⟩ := hmore.exists_append
  obtain ⟨b, hb, hblank⟩ := hspaces.exists_append
  refine ⟨x :: a, y :: b, '-' :: pos₃.rest, ?_, ?_, List.cons_ne_nil y b,
    List.forall_mem_cons.mpr ⟨hspace, hblank⟩⟩
  · have hdashes : pos₂.rest = '-' :: '-' :: pos₃.rest := (matches_literal.mp hm).1
    have hs : s = x :: pos₀.rest := hx
    rw [hs, ha, hy, hb, hdashes]
    rfl
  · exact List.forall_mem_cons.mpr ⟨by simpa using hnon, fun w hw => by simpa using hall w hw⟩

theorem regexMatch_module_none {a r : Line} {x : Char} (ha : ∀ y ∈ a, isSpace y = false)
    (hx : isSpace x = false) (hdash : x ≠ '-') :
    regexMatch moduleRegexp (a ++ ' ' :: x :: r) = none := by
  cases h : regexMatch moduleRegexp (a ++ ' ' :: x :: r) with
  | none => rfl
  | some sm =>
      obtain ⟨a', b, r', heq, ha', hb, hblank⟩ := moduleRegexp_shape h
      have hfirst : ∀ {u v : Line} {y : Char}, (∀ z ∈ u, isSpace z = false) → isSpace y = true →
          (u ++ y :: v).dropWhile (fun z => !isSpace z) = y :: v := by
        intro u v y hu hy
        rw [List.dropWhile_append_of_pos (by simpa using hu), List.dropWhile_cons_of_neg (by simp [hy])]
      obtain ⟨y, ys, rfl⟩ := List.exists_cons_of_ne_nil hb
      have hword := congrArg (List.dropWhile fun z => !isSpace z) heq
      rw [hfirst ha (by decide), List.cons_append,
        hfirst ha' (hblank y (List.mem_cons_self ..))] at hword
      have hleft : (' ' :: x :: r).dropWhile isSpace = x :: r := by
        rw [List.dropWhile_cons_of_pos (by decide), List.dropWhile_cons_of_neg (by simp [hx])]
      have hright : (y :: (ys ++ '-' :: r')).dropWhile isSpace = '-' :: r' := by
        rw [← List.cons_append, List.dropWhile_append_of_pos hblank,
          List.dropWhile_cons_of_neg (by decide)]
      rw [hword, hright] at hleft
      injection hleft.symm with hx'
      exact absurd hx' hdash

theorem regexMatch_file_none {x y : Char} {r : Line} (hy : y ≠ 'f') :
    regexMatch fileRegexp (x :: y :: r) = none := by
  refine run_eq_none fun pos c hm => ?_
  obtain ⟨pos₁, c₁, ⟨z, hz, -⟩, pos₂, c₂, hword, -⟩ := hm
  have hword : pos₁.rest = 'f' :: ("ile".toList ++ pos₂.rest) := (matches_literal.mp hword).1
  rw [hword] at hz
  injection hz with _ hz
  injection hz with hf
  exact absurd hf hy

theorem regexSearch_copyright {a b : Line} (hline : OneLine a)
    (hname : "Carlo Wood".toList <:+: b) (hb : OneLine b) :
    regexSearch copyrightRegexp ("@Copyright ".toList ++ (a ++ b)) ≠ none := by
  obtain ⟨u, v, rfl⟩ := hname
  have hu : OneLine (a ++ u) := by
    rw [List.append_assoc] at hb
    exact oneLine_append.mpr ⟨hline, (oneLine_append.mp hb).1⟩
  have hfind : find copyrightRegexp true ("@Copyright ".toList ++ (a ++ (u ++ "Carlo Wood".toList ++ v))) ≠
      none := by
    refine find_ne_none (t := 'C' :: ("opyright ".toList ++ ((a ++ u) ++ ("Carlo Wood".toList ++ v))))
      ⟨['@'], by simp⟩ fun first => ?_
    refine ⟨⟨false, v⟩, fun _ => [], ⟨false, _⟩, _, ⟨'C', rfl, by decide, rfl, rfl⟩, ⟨false, _⟩, _,
      matches_literal.mpr ⟨rfl, by simp, rfl⟩, ⟨false, _⟩, _, iterates_append ?_, ⟨false, v⟩, _,
      matches_literal.mpr ⟨rfl, by simp, rfl⟩, rfl, rfl⟩
    simpa [OneLine] using hu
  rw [regexSearch, ne_eq, Option.map_eq_none_iff]
  exact hfind

theorem infix_of_space {l m a b : Line} (h : l ++ ' ' :: m <:+: a ++ b) (hb : ' ' ∉ b) :
    l ++ [' '] <:+: a := by
  obtain ⟨u, v, huv⟩ := h
  have heq : (u ++ (l ++ [' '])) ++ (m ++ v) = a ++ b := by
    rw [← huv]
    simp
  rcases List.append_eq_append_iff.mp heq with ⟨c, hc, -⟩ | ⟨c, hc, hbc⟩
  · exact ⟨u, c, by rw [hc, List.append_assoc]⟩
  · rcases List.eq_nil_or_concat c with rfl | ⟨d, x, rfl⟩
    · exact ⟨u, [], by rw [List.append_nil, hc, List.append_nil]⟩
    · have hlast : ' ' = x := by
        have heq := congrArg List.getLast? hc
        simpa [← List.append_assoc] using heq
      rw [hbc, ← hlast] at hb
      simp at hb

/-- The line with the name of the module is no copyright line. -/
theorem regexSearch_copyright_none (hname : ∀ x ∈ name, isSpace x = false) :
    regexSearch copyrightRegexp ("This file is part of ".toList ++ (name ++ ['.'])) = none := by
  rw [regexSearch, Option.map_eq_none_iff]
  cases hfind : find copyrightRegexp true ("This file is part of ".toList ++ (name ++ ['.'])) with
  | none => rfl
  | some f =>
      obtain ⟨first, t, pos, ht, c₀, ⟨pos₁, c₁, ⟨x, hx, -⟩, pos₂, c₂, hword, -⟩, -⟩ :=
        find_matches hfind
      have hword : pos₁.rest = "opyright".toList ++ ' ' :: pos₂.rest :=
        (matches_literal.mp hword).1
      have hinfix : "opyright".toList ++ ' ' :: pos₂.rest <:+: "This file is part of ".toList ++
          (name ++ ['.']) := by
        refine List.IsInfix.trans ?_ ht.isInfix
        rw [← hword]
        exact (List.IsSuffix.isInfix ⟨[x], hx.symm⟩)
      have hspace : ' ' ∉ name ++ ['.'] := by
        intro hmem
        rcases List.mem_append.mp hmem with hmem | hmem
        · exact absurd (hname _ hmem) (by decide)
        · revert hmem
          decide
      exact absurd (infix_of_space hinfix hspace) (by decide)

theorem regexSearch_partOf (hne : name ≠ []) (hname : ∀ x ∈ name, isSpace x = false) :
    ∃ sm, regexSearch partOfRegexp ("This file is part of ".toList ++ (name ++ ['.'])) = some sm ∧
      sm 1 = name.takeWhile isPartOfChar := by
  have hhead : ∀ x, (name ++ ['.']).head? = some x → isSpace x = false := by
    obtain ⟨y, ys, rfl⟩ := List.exists_cons_of_ne_nil hne
    intro x hx
    cases hx
    exact hname y (List.mem_cons_self ..)
  have hchars : (name ++ ['.']).takeWhile isPartOfChar = name.takeWhile isPartOfChar := by
    rw [List.takeWhile_append, List.takeWhile_cons_of_neg (by decide), List.append_nil]
    split_ifs with hall
    · exact ((List.takeWhile_prefix _).eq_of_length hall).symm
    · rfl
  have hgroup : (name ++ ['.']).take ((name ++ ['.']).length -
      ((name ++ ['.']).dropWhile isPartOfChar).length) = name.takeWhile isPartOfChar := by
    have hfront := take_front ((name ++ ['.']).takeWhile isPartOfChar)
      ((name ++ ['.']).dropWhile isPartOfChar)
    rwa [List.takeWhile_append_dropWhile, hchars] at hfront
  let text := "This file is part of".toList ++ ' ' :: (name ++ ['.'])
  let rest := (name ++ ['.']).dropWhile isPartOfChar
  let sm : Captures := Function.update
    (Function.update (fun _ => []) 1 (name.takeWhile isPartOfChar)) 0
    (text.take (text.length - rest.length))
  have hrun : run (.group 0 partOfRegexp) ⟨true, text⟩ (fun _ => [])
      (fun pos c => some (Found.mk [] c pos.rest)) = some ⟨[], sm, rest⟩ := by
    rw [run_group, partOfRegexp, concat, run_seq, run_literal]
    simp only [concat, plus, run_seq, space, run_char_cons]
    rw [if_pos (by decide), run_star_char_stop hhead]
    refine run_star_char_takeWhile ?_
    simp only [run_empty, hgroup]
    rfl
  have hwords : "This file is part of ".toList = "This file is part of".toList ++ [' '] := by decide
  have htext : "This file is part of ".toList ++ (name ++ ['.']) = text := by
    rw [hwords, List.append_assoc, List.singleton_append]
  rw [htext, regexSearch, find_of_run hrun]
  exact ⟨sm, rfl, rfl⟩

end Regexps

end RewriteHeader
