import TaskSuite.RewriteHeaderBounds
import TaskSuite.RewriteHeaderFound

/-! The text of a line of a comment: what stands behind its lead, and in front of
the `*/` that closes the comment. This is what the regexes of `process` take out
of the line. -/
namespace RewriteHeader
open Regex

/-- Only the first space goes. -/
def dropSpace : Line → Line
  | [] => []
  | x :: xs => if x = ' ' then xs else x :: xs

def isLeadChar (x : Char) : Bool := x ∈ "-+*/!=#%^".toList

/-- What stands behind the lead of a line. A C comment starts with slashes and
more, and has stars on its other lines. -/
def behindLead (isCComment first : Bool) (line : Line) : Line :=
  let line := trimLeft line
  if isCComment then
    if first then dropSpace ((line.dropWhile (· = '/')).dropWhile isLeadChar)
    else if line.head? = some '*' then dropSpace (line.dropWhile (· = '*'))
    else []
  else if isCppComment line then dropSpace ((line.drop 2).dropWhile isLeadChar)
  else []

def inFrontOfEnd (text : Line) : Line :=
  if isCCommentEnd text then trimLeft (trimRight (text.take (text.length - 2))) else []

/-- The text of a line; none is read from a line with a line end in it. -/
def plainText (isCComment first : Bool) (line : Line) : Line :=
  let text := behindLead isCComment first line
  if OneLine text then
    if isLastLine isCComment line then inFrontOfEnd (trimRight text) else trimRight text
  else []

def plainTexts (line : Line) (rest : List Line) : List Line :=
  match commentLines (isCCommentAt line) (line :: rest) with
  | [] => []
  | line' :: lines =>
      plainText (isCCommentAt line) true line' :: lines.map (plainText (isCCommentAt line) false)

/-! ### Behind the lead -/

section Lead
variable {s line : Line} {first : Bool} {c : Captures}

theorem dropSpace_suffix (s : Line) : dropSpace s <:+ s := by
  cases s with
  | nil => exact List.suffix_rfl
  | cons x xs =>
      rw [dropSpace]
      split_ifs
      · exact List.suffix_cons x xs
      · exact List.suffix_rfl

theorem behindLead_suffix (isCComment first : Bool) (line : Line) :
    behindLead isCComment first line <:+ line := by
  have hleft : trimLeft line <:+ line := List.dropWhile_suffix _
  rw [behindLead]
  split_ifs
  · exact (dropSpace_suffix _).trans ((List.dropWhile_suffix _).trans
      ((List.dropWhile_suffix _).trans hleft))
  · exact (dropSpace_suffix _).trans ((List.dropWhile_suffix _).trans hleft)
  · exact List.nil_suffix
  · exact (dropSpace_suffix _).trans ((List.dropWhile_suffix _).trans
      ((List.drop_suffix 2 _).trans hleft))
  · exact List.nil_suffix

/-- The end of every lead: perhaps a space, and the text. -/
def leadEnd : Regex := concat [opt (.char (· = ' ')), .group 1 (.star dot)]

/-- With this the search for a text ends. -/
def takesAll (pos : Pos) (c : Captures) : Option Captures :=
  run (.group 2 (.star dot)) pos c fun pos c => if pos.rest.isEmpty then some c else none

theorem takesAll_nil : takesAll ⟨first, []⟩ c = some (Function.update c 2 []) := rfl

theorem run_text (h : OneLine s) : run (concat [.group 1 (.star dot)]) ⟨first, s⟩ c takesAll =
    some (Function.update (Function.update c 1 s) 2 []) := by
  refine run_star_char_all (by simpa [OneLine] using h) ?_
  simp only [concat, run_empty, List.length_nil, Nat.sub_zero, List.take_length, takesAll_nil]

theorem run_leadEnd (h : OneLine (dropSpace s)) : run leadEnd ⟨first, s⟩ c takesAll =
    some (Function.update (Function.update c 1 (dropSpace s)) 2 []) := by
  rw [leadEnd, concat, run_seq, opt, run_alt]
  cases s with
  | nil => exact run_text h
  | cons x xs =>
      rw [run_char_cons]
      rw [dropSpace] at h ⊢
      by_cases hx : x = ' '
      · rw [if_pos hx] at h ⊢
        rw [decide_eq_true hx, if_pos rfl, run_text h]
        rfl
      · rw [if_neg hx] at h ⊢
        rw [decide_eq_false hx, if_neg Bool.false_ne_true, Option.none_or]
        exact run_text h

theorem oneLine_of_leadEnd {pos pos₁ pos₂ : Pos} {c₁ c₂ : Captures}
    (h : leadEnd.Matches pos c pos₁ c₁) (hmore : (Regex.group 2 (.star dot)).Matches pos₁ c₁ pos₂ c₂)
    (hend : pos₂.rest = []) : OneLine pos.rest := by
  have hleadEnd : leadEnd.InLine := by
    simp [leadEnd, concat, InLine, opt, dot]
  have hgroup : (Regex.group 2 (.star dot)).InLine := by
    simp [InLine, dot]
  obtain ⟨a, ha, hline⟩ := hleadEnd.oneLine h
  obtain ⟨b, hb, hline'⟩ := hgroup.oneLine hmore
  rw [ha, hb, hend, List.append_nil]
  exact oneLine_append.mpr ⟨hline, hline'⟩

theorem oneLine_dropWhile_append {p : Char → Bool} {a : Line} (ha : ∀ x ∈ a, p x = true)
    (hp : ∀ x, p x = true → x ≠ '\n' ∧ x ≠ '\r') (hs : OneLine s) : OneLine (a ++ s) :=
  oneLine_append.mpr ⟨fun x hx => hp x (ha x hx), hs⟩

/-- The text behind a lead, if there is no other way to read the line. -/
theorem extract_of_run {lead : Regex} {text : Line}
    (h : OneLine text → regexMatch (.seq lead (.group 2 (.star dot))) line =
      some (Function.update (Function.update (fun _ => []) 1 text) 2 []))
    (hnone : ¬ OneLine text → regexMatch (.seq lead (.group 2 (.star dot))) line = none) :
    extract lead line = if OneLine text then trimRight text else [] := by
  rw [extract]
  split_ifs with hline
  · rw [h hline]
    rfl
  · rw [hnone hline]

theorem isLeadChar_inLine (x : Char) (h : isLeadChar x = true) : x ≠ '\n' ∧ x ≠ '\r' := by
  constructor <;>
  · rintro rfl
    revert h
    decide

theorem trimLeft_of_spaces {first : Bool} {pos : Pos} {c₁ : Captures} {x : Char} {xs : Line}
    (h : Iterates (Regex.char isSpace).Matches ⟨first, line⟩ c pos c₁) (hpos : pos.rest = x :: xs)
    (hx : isSpace x = false) : trimLeft line = x :: xs := by
  obtain ⟨a, ha, hblank⟩ := h.exists_append
  rw [trimLeft, show line = a ++ pos.rest from ha, List.dropWhile_append_of_pos hblank, hpos,
    List.dropWhile_cons_of_neg (by simp [hx])]

theorem extract_firstLead_true (line : Line) : extract (firstLead true) line =
    if OneLine (behindLead true true line) then trimRight (behindLead true true line) else [] := by
  refine extract_of_run (fun h => ?_) fun h => ?_
  · refine run_star_char_takeWhile (run_star_char_takeWhile (run_star_char_takeWhile ?_))
    exact run_leadEnd h
  · refine run_eq_none fun pos c hm => if_neg fun hend => h ?_
    obtain ⟨pos₁, c₁, ⟨pos₂, c₂, ⟨-, rfl, rfl⟩, pos₃, c₃, hspaces, pos₄, c₄, hslashes, pos₅, c₅, hlead,
      hend'⟩, hmore⟩ := hm
    obtain ⟨a, ha, hblank⟩ := hspaces.exists_append
    obtain ⟨b, hb, hslash⟩ := hslashes.exists_append
    obtain ⟨d, hd, hchars⟩ := hlead.exists_append
    have hline := oneLine_of_leadEnd hend' hmore (List.isEmpty_iff.mp hend)
    have hrest : OneLine pos₃.rest := by
      rw [hb, hd]
      refine oneLine_dropWhile_append hslash (fun x hx => ?_) (oneLine_dropWhile_append hchars ?_ hline)
      · rw [of_decide_eq_true hx]
        decide
      · exact fun x hx => isLeadChar_inLine x hx
    have hleft : (trimLeft line) <:+ pos₃.rest := by
      rw [trimLeft, show line = a ++ pos₃.rest from ha, List.dropWhile_append_of_pos hblank]
      exact List.dropWhile_suffix _
    exact hrest.of_suffix ((dropSpace_suffix _).trans ((List.dropWhile_suffix _).trans
      ((List.dropWhile_suffix _).trans hleft)))

theorem extract_nextLead (line : Line) : extract nextLead line =
    if OneLine (behindLead true false line) then trimRight (behindLead true false line) else [] := by
  by_cases hstar : (trimLeft line).head? = some '*'
  · obtain ⟨xs, hxs⟩ := List.head?_eq_some_iff.mp hstar
    have hbehind : behindLead true false line = dropSpace (xs.dropWhile (· = '*')) := by
      simp only [behindLead, if_true, Bool.false_eq_true, if_false, hxs, List.head?_cons]
      rw [List.dropWhile_cons_of_pos (by decide)]
    refine extract_of_run (fun h => ?_) fun h => ?_
    · refine run_star_char_takeWhile ?_
      have hdrop : line.dropWhile isSpace = '*' :: xs := hxs
      simp only [hdrop, concat, plus, run_seq, run_char_cons, decide_true, if_true]
      refine run_star_char_takeWhile ?_
      rw [hbehind] at h ⊢
      exact run_leadEnd h
    · refine run_eq_none fun pos c hm => if_neg fun hend => h ?_
      obtain ⟨pos₁, c₁, ⟨pos₂, c₂, ⟨-, rfl, rfl⟩, pos₃, c₃, hspaces, pos₄, c₄,
        ⟨pos₅, c₅, ⟨x, hx, hxstar, -⟩, hstars⟩, hend'⟩, hmore⟩ := hm
      obtain ⟨b, hb, hall⟩ := hstars.exists_append
      have hline := oneLine_of_leadEnd hend' hmore (List.isEmpty_iff.mp hend)
      have hrest : OneLine pos₅.rest := by
        rw [hb]
        refine oneLine_dropWhile_append hall (fun x hx => ?_) hline
        rw [of_decide_eq_true hx]
        decide
      have hdrop := trimLeft_of_spaces hspaces hx (by rw [of_decide_eq_true hxstar]; decide)
      have hleft : xs = pos₅.rest := (List.cons.inj (hxs.symm.trans hdrop)).2
      rw [hbehind, hleft]
      exact hrest.of_suffix ((dropSpace_suffix _).trans (List.dropWhile_suffix _))
  · have hbehind : behindLead true false line = [] := by
      simp only [behindLead, hstar, if_true, Bool.false_eq_true, if_false]
    have hnone : regexMatch (.seq nextLead (.group 2 (.star dot))) line = none := by
      refine run_eq_none fun pos c hm => absurd ?_ hstar
      obtain ⟨pos₁, c₁, ⟨pos₂, c₂, ⟨-, rfl, rfl⟩, pos₃, c₃, hspaces, pos₄, c₄,
        ⟨pos₅, c₅, ⟨x, hx, hxstar, -⟩, -⟩, -⟩, -⟩ := hm
      rw [trimLeft_of_spaces hspaces hx (by rw [of_decide_eq_true hxstar]; decide),
        of_decide_eq_true hxstar]
      rfl
    rw [extract, hnone, hbehind, if_pos (by simp [OneLine])]
    rfl

theorem extract_firstLead_false (line : Line) : extract (firstLead false) line =
    if OneLine (behindLead false first line) then trimRight (behindLead false first line) else [] := by
  by_cases hslashes : isCppComment (trimLeft line) = true
  · obtain ⟨xs, hxs⟩ := List.isPrefixOf_iff_prefix.mp hslashes
    have hbehind : behindLead false first line = dropSpace (xs.dropWhile isLeadChar) := by
      simp only [behindLead, Bool.false_eq_true, if_false, ← hxs]
      rfl
    refine extract_of_run (fun h => ?_) fun h => ?_
    · refine run_star_char_takeWhile ?_
      have hdrop : line.dropWhile isSpace = '/' :: '/' :: xs := hxs.symm
      simp only [hdrop, concat, run_seq, run_char_cons, decide_true, if_true]
      refine run_star_char_takeWhile ?_
      rw [hbehind] at h ⊢
      exact run_leadEnd h
    · refine run_eq_none fun pos c hm => if_neg fun hend => h ?_
      obtain ⟨pos₁, c₁, ⟨pos₂, c₂, ⟨-, rfl, rfl⟩, pos₃, c₃, hspaces, pos₄, c₄, ⟨x, hx, hslash, -⟩,
        pos₅, c₅, ⟨y, hy, -, -⟩, pos₆, c₆, hlead, hend'⟩, hmore⟩ := hm
      obtain ⟨d, hd, hchars⟩ := hlead.exists_append
      have hline := oneLine_of_leadEnd hend' hmore (List.isEmpty_iff.mp hend)
      have hrest : OneLine pos₅.rest := by
        rw [hd]
        exact oneLine_dropWhile_append hchars (fun x hx => isLeadChar_inLine x hx) hline
      have hdrop := trimLeft_of_spaces hspaces hx (by rw [of_decide_eq_true hslash]; decide)
      have hleft : xs = pos₅.rest := (List.cons.inj ((List.cons.inj (hxs.trans hdrop)).2.trans hy)).2
      rw [hbehind, hleft]
      exact hrest.of_suffix ((dropSpace_suffix _).trans (List.dropWhile_suffix _))
  · have hbehind : behindLead false first line = [] := by
      simp only [behindLead, hslashes, Bool.false_eq_true, if_false]
    have hnone : regexMatch (.seq (firstLead false) (.group 2 (.star dot))) line = none := by
      refine run_eq_none fun pos c hm => absurd ?_ hslashes
      obtain ⟨pos₁, c₁, ⟨pos₂, c₂, ⟨-, rfl, rfl⟩, pos₃, c₃, hspaces, pos₄, c₄, ⟨x, hx, hslash, -⟩,
        pos₅, c₅, ⟨y, hy, hslash', -⟩, -⟩, -⟩ := hm
      rw [trimLeft_of_spaces hspaces hx (by rw [of_decide_eq_true hslash]; decide), hy,
        of_decide_eq_true hslash, of_decide_eq_true hslash']
      rfl
    rw [extract, hnone, hbehind, if_pos (by simp [OneLine])]
    rfl

end Lead

/-! ### In front of the end -/

section Closing
variable {s text line : Line}

def inked (s : Line) : Nat := s.countP fun x => !isSpace x

theorem inked_le_of_suffix (h : s <:+ text) : inked s ≤ inked text := h.sublist.countP_le

theorem inked_eq_zero (h : ∀ x ∈ s, isSpace x = true) : inked s = 0 :=
  List.countP_eq_zero.mpr fun x hx => by simp [h x hx]

def markEnd : Regex := concat [.star space, literal "*/".toList]

theorem three_le_inked {pos pos₁ pos₂ : Pos} {c c₁ c₂ c₃ : Captures}
    (hnon : nonSpace.Matches pos c pos₁ c₁) (hend : markEnd.Matches pos₁ c₂ pos₂ c₃) :
    3 ≤ inked pos.rest := by
  obtain ⟨x, hx, hnon, -⟩ := hnon
  obtain ⟨pos₃, c₄, hspaces, pos₄, c₅, hmark, rfl, -⟩ := hend
  obtain ⟨a, ha, hblank⟩ := hspaces.exists_append
  have hmark : pos₃.rest = '*' :: '/' :: pos₂.rest := (matches_literal.mp hmark).1
  have hblank := inked_eq_zero hblank
  have hnon : (!isSpace x) = true := hnon
  rw [hx, ha, hmark]
  simp only [inked, List.countP_cons, List.countP_append] at hblank ⊢
  rw [hblank, hnon, if_pos rfl, if_pos (by decide), if_pos (by decide)]
  omega

theorem inked_append_mark (h : ∀ x ∈ s, isSpace x = true) : inked (s ++ ['*', '/']) = 2 := by
  have hblank := inked_eq_zero h
  have hmark : inked ['*', '/'] = 2 := by decide
  rw [inked] at hblank hmark ⊢
  rw [List.countP_append, hblank, hmark]

theorem run_markEnd {b : Line} {first : Bool} {c : Captures} (hb : ∀ x ∈ b, isSpace x = true) :
    run markEnd ⟨first, b ++ ['*', '/']⟩ c takesAll = some (Function.update c 2 []) := by
  refine run_star_char_append hb ?_
  rw [run_star_char_stop fun y hy => by cases hy; decide]
  have hmark : run (literal "*/".toList) ⟨first && b.isEmpty, "*/".toList ++ []⟩ c takesAll =
      takesAll ⟨first && b.isEmpty && "*/".toList.isEmpty, []⟩ c := run_literal
  exact hmark.trans takesAll_nil

/-- The text up to the last character in front of the end that is no space. -/
theorem run_inFront {d b : Line} {x : Char} {first : Bool} {c : Captures}
    (hline : OneLine (d ++ [x])) (hx : isSpace x = false) (hb : ∀ y ∈ b, isSpace y = true) :
    run (.group 1 (.seq (.star dot) nonSpace)) ⟨first, d ++ x :: (b ++ ['*', '/'])⟩ c
      (fun pos c => run markEnd pos c takesAll) =
      some (Function.update (Function.update c 1 (d ++ [x])) 2 []) := by
  obtain ⟨hd, hone⟩ := oneLine_append.mp hline
  have htake := take_front (d ++ [x]) (b ++ ['*', '/'])
  rw [List.append_assoc, List.singleton_append] at htake
  rw [run_group, run_seq]
  refine run_star_char_append (by simpa [OneLine] using hd) ?_
  have hdot : decide (x ≠ '\n' ∧ x ≠ '\r') = true := decide_eq_true (hone x (List.mem_singleton_self x))
  rw [run_star_char_cons, hdot, if_pos rfl, run_star_char_none, Option.none_or, nonSpace, run_char_cons,
    hx, Bool.not_false, if_pos rfl]
  · rw [htake]
    exact run_markEnd hb
  · -- behind that character there is none that is no space, but for the end itself
    intro t ht
    refine run_eq_none fun pos₁ c₁ hnon => run_eq_none fun pos₂ c₂ hend => ?_
    have hthree := three_le_inked hnon hend
    have htwo := inked_le_of_suffix ht
    rw [inked_append_mark hb] at htwo
    exact absurd (hthree.trans htwo) (by decide)

/-- The blanks in front of a text and behind it. -/
theorem exists_trimmed (s : Line) : ∃ a b, s = a ++ (trimLeft (trimRight s) ++ b) ∧
    (∀ x ∈ a, isSpace x = true) ∧ ∀ x ∈ b, isSpace x = true := by
  refine ⟨(trimRight s).takeWhile isSpace, s.rtakeWhile isSpace, ?_, fun x hx => List.mem_takeWhile_imp hx,
    fun x hx => List.mem_rtakeWhile_imp hx⟩
  rw [← List.append_assoc, trimLeft, List.takeWhile_append_dropWhile]
  exact List.rdropWhile_append_rtakeWhile.symm

theorem extract_closingLead_none (h : inked text ≤ 2) : extract closingLead text = [] := by
  have hnone : regexMatch (.seq closingLead (.group 2 (.star dot))) text = none := by
    refine run_eq_none fun pos c hm => ?_
    obtain ⟨pos₁, c₁, ⟨pos₂, c₂, ⟨-, rfl, rfl⟩, pos₃, c₃, hspaces, pos₄, c₄,
      ⟨c₅, ⟨pos₅, c₆, hdots, hnon⟩, rfl⟩, hend⟩, -⟩ := hm
    obtain ⟨a, ha, -⟩ := hspaces.exists_append
    obtain ⟨b, hb, -⟩ := hdots.exists_append
    have hle : inked pos₅.rest ≤ inked text :=
      inked_le_of_suffix ⟨a ++ b, by rw [List.append_assoc, ← hb]; exact ha.symm⟩
    exact absurd ((three_le_inked hnon hend).trans (hle.trans h)) (by decide)
  rw [extract, hnone]

theorem extract_closingLead_append (hline : OneLine s) :
    extract closingLead (s ++ ['*', '/']) = trimLeft (trimRight s) := by
  obtain ⟨a, b, hs, ha, hb⟩ := exists_trimmed s
  have hleft : ∀ y, (trimLeft (trimRight s)).head? = some y → isSpace y = false := fun y hy => by
    have hnot := List.head?_dropWhile_not isSpace (trimRight s)
    rwa [show List.dropWhile isSpace (trimRight s) = trimLeft (trimRight s) from rfl, hy] at hnot
  have hright : trimRight (trimLeft (trimRight s)) = trimLeft (trimRight s) :=
    trimRight_of_suffix (trimRight_trimRight s) (List.dropWhile_suffix _)
  rcases List.eq_nil_or_concat (trimLeft (trimRight s)) with hnil | ⟨d, x, hd⟩
  · have hblank : ∀ x ∈ s, isSpace x = true := by
      rw [hs, hnil, List.nil_append]
      exact List.forall_mem_append.mpr ⟨ha, hb⟩
    rw [extract_closingLead_none (inked_append_mark hblank).le, hnil]
  · rw [List.concat_eq_append] at hd
    rw [hd] at hs hleft hright ⊢
    have hx : isSpace x = false := by
      have hlast := List.rdropWhile_eq_self_iff.mp hright (by simp)
      simpa using hlast
    have htext : s ++ ['*', '/'] = a ++ (d ++ x :: (b ++ ['*', '/'])) := by
      rw [hs]
      simp
    have hone : OneLine (d ++ [x]) := by
      rw [hs] at hline
      exact (oneLine_append.mp (oneLine_append.mp hline).2).1
    have hmatch : regexMatch (.seq closingLead (.group 2 (.star dot))) (s ++ ['*', '/']) =
        some (Function.update (Function.update (fun _ => []) 1 (d ++ [x])) 2 []) := by
      rw [htext]
      refine run_star_char_append ha ?_
      rw [run_star_char_stop fun y hy => ?_]
      · exact run_inFront hone hx hb
      · refine hleft y ?_
        rw [← hy]
        cases d <;> rfl
    rw [extract, hmatch]
    exact hright

theorem trimRight_inFrontOfEnd (text : Line) : trimRight (inFrontOfEnd text) = inFrontOfEnd text := by
  rw [inFrontOfEnd]
  split_ifs
  · exact trimRight_of_suffix (trimRight_trimRight _) (List.dropWhile_suffix _)
  · rfl

/-- The end of a text is the end of the line, unless the lead goes beyond it. -/
theorem extract_closingLead (hline : OneLine text) (hsuffix : text <:+ trimRight line)
    (hlast : isLastLine true line = true) : extract closingLead text = inFrontOfEnd text := by
  have hend : ['*', '/'] <:+ trimRight line := List.isSuffixOf_iff_suffix.mp hlast
  by_cases hmark : ['*', '/'] <:+ text
  · obtain ⟨s, rfl⟩ := hmark
    have htake : (s ++ ['*', '/']).take ((s ++ ['*', '/']).length - 2) = s := take_front s ['*', '/']
    have hcomment : isCCommentEnd (s ++ ['*', '/']) = true :=
      List.isSuffixOf_iff_suffix.mpr (List.suffix_append ..)
    rw [extract_closingLead_append (oneLine_append.mp hline).1, inFrontOfEnd, if_pos hcomment, htake]
  · have hshort := (List.suffix_or_suffix_of_suffix hsuffix hend).resolve_right hmark
    have htwo : inked text ≤ 2 := (inked_le_of_suffix hshort).trans (by decide)
    rw [extract_closingLead_none htwo, inFrontOfEnd, if_neg]
    exact fun hcomment => hmark (List.isSuffixOf_iff_suffix.mp hcomment)

end Closing

/-- What `process` reads of a line is the text of the line. -/
theorem lineText_eq (isCComment first : Bool) (line : Line) :
    lineText isCComment (if first then firstLead isCComment else if isCComment then nextLead
      else firstLead isCComment) line = plainText isCComment first line := by
  have hextract : extract (if first then firstLead isCComment else if isCComment then nextLead
      else firstLead isCComment) line =
      if OneLine (behindLead isCComment first line) then trimRight (behindLead isCComment first line)
      else [] := by
    cases isCComment with
    | true =>
        cases first with
        | true => exact extract_firstLead_true line
        | false => exact extract_nextLead line
    | false => cases first <;> exact extract_firstLead_false line
  rw [lineText, hextract, plainText]
  by_cases hline : OneLine (behindLead isCComment first line)
  · have htext := isText_trimRight hline
    rw [if_pos hline, if_pos hline]
    cases hlast : isLastLine isCComment line with
    | false => exact htext.trimmed
    | true =>
        obtain ⟨rfl, -⟩ := Bool.and_eq_true_iff.mp hlast
        have hsuffix := trimRight_suffix (behindLead_suffix true first line)
        rw [if_pos rfl, if_pos rfl, extract_closingLead htext.oneLine hsuffix hlast]
        exact trimRight_inFrontOfEnd _
  · have hnil : extract closingLead [] = [] := by decide
    rw [if_neg hline, if_neg hline, hnil, ite_self]
    rfl

theorem isText_plainText (isCComment first : Bool) (line : Line) :
    IsText (plainText isCComment first line) := by
  rw [← lineText_eq]
  refine isText_lineText isCComment ?_ line
  split_ifs
  · exact groupsInLine_firstLead _
  · exact groupsInLine_nextLead
  · exact groupsInLine_firstLead _

theorem isText_plainTexts (line : Line) (rest : List Line) : ∀ text ∈ plainTexts line rest, IsText text := by
  rw [plainTexts]
  cases commentLines (isCCommentAt line) (line :: rest) with
  | nil => exact nofun
  | cons line' lines =>
      refine List.forall_mem_cons.mpr ⟨isText_plainText _ true line', fun text htext => ?_⟩
      obtain ⟨l, -, rfl⟩ := List.mem_map.mp htext
      exact isText_plainText _ false l

theorem commentTexts_eq (line : Line) (rest : List Line) :
    commentTexts line rest = plainTexts line rest := by
  rw [commentTexts, plainTexts]
  cases commentLines (isCCommentAt line) (line :: rest) with
  | nil => rfl
  | cons line' lines =>
      rw [texts]
      refine congrArg₂ List.cons (lineText_eq _ true line') (List.map_congr_left fun l _ => ?_)
      exact lineText_eq _ false l

end RewriteHeader
