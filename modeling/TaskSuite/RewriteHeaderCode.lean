import TaskSuite.RewriteHeaderReading

/-! Which lines of a source file have code on them, for a C++ compiler, and
whether `rewrite_header` keeps these lines. -/
namespace RewriteHeader
open Regex

/-! ### Comments and code -/

def placed (lines : List Line) : List (Char × Nat) :=
  lines.zipIdx.flatMap fun line => (line.1 ++ ['\n']).map (·, line.2)

def joinLines : List (Char × Nat) → List (Char × Nat)
  | ('\\', _) :: ('\n', _) :: cs => joinLines cs
  | c :: cs => c :: joinLines cs
  | [] => []

/-- Where the compiler is: outside of comments and literals, perhaps in a word
or a number, in a literal with the given quote, in the delimiter or the text of
a raw string, or in a comment. -/
inductive Mode where
  | code
  | word (w : List Char)
  | number
  | literal (quote : Char)
  | rawStart (delimiter : List Char)
  | raw (delimiter : List Char)
  | lineComment
  | blockComment

def doubleQuote : Char := Char.ofNat 34

def singleQuote : Char := Char.ofNat 39

def isWordChar (x : Char) : Bool := x.isAlpha || x.isDigit || x == '_'

def rawPrefixes : List (List Char) :=
  [['R'], ['L', 'R'], ['u', 'R'], ['U', 'R'], ['u', '8', 'R']]

/-- The mode behind a character of the code. A single quote in a number is a
digit separator. -/
def Mode.after (m : Mode) (x : Char) : Mode :=
  if x = doubleQuote then
    match m with
    | .word w => if w ∈ rawPrefixes then .rawStart [] else .literal x
    | _ => .literal x
  else
    match m with
    | .number =>
        if isWordChar x || x = '.' || x = singleQuote then .number else .code
    | .word w =>
        if isWordChar x then .word (w ++ [x]) else if x = singleQuote then .literal x else .code
    | _ =>
        if x.isDigit then .number
        else if isWordChar x then .word [x]
        else if x = singleQuote then .literal x
        else .code

/-- A line gets its number for each character on it that is not blank. -/
def mark (x : Char) (i : Nat) : List Nat := if isSpace x then [] else [i]

/-- The numbers of the lines with characters outside of comments. -/
def lex : Mode → List (Char × Nat) → List Nat
  | _, [] => []
  | .lineComment, (x, _) :: cs => lex (if x = '\n' then .code else .lineComment) cs
  | .blockComment, ('*', _) :: ('/', _) :: cs => lex .code cs
  | .blockComment, _ :: cs => lex .blockComment cs
  | .literal q, ('\\', i) :: (x, j) :: cs => i :: (mark x j ++ lex (.literal q) cs)
  | .literal q, (x, i) :: cs =>
      mark x i ++ lex (if x = q ∨ x = '\n' then .code else .literal q) cs
  | .rawStart d, (x, i) :: cs =>
      mark x i ++ lex (if x = '(' then .raw d else .rawStart (d ++ [x])) cs
  | .raw d, (x, i) :: cs =>
      mark x i ++ lex (if x = ')' ∧ (d ++ [doubleQuote]).isPrefixOf (cs.map Prod.fst)
        then .literal doubleQuote else .raw d) cs
  | _, ('/', _) :: ('/', _) :: cs => lex .lineComment cs
  | _, ('/', _) :: ('*', _) :: cs => lex .blockComment cs
  | m, (x, i) :: cs => mark x i ++ lex (m.after x) cs

def codeNumbers (lines : List Line) : List Nat := lex .code (joinLines (placed lines))

def codeLines (lines : List Line) : List Line :=
  (lines.zipIdx.filter fun line => line.2 ∈ codeNumbers lines).map Prod.fst

section Lex

theorem mem_joinLines {c : Char × Nat} {cs : List (Char × Nat)} (h : c ∈ joinLines cs) : c ∈ cs := by
  fun_induction joinLines cs with
  | case1 _ _ cs ih => exact List.mem_cons_of_mem _ (List.mem_cons_of_mem _ (ih h))
  | case2 d cs _ ih =>
      rcases List.mem_cons.mp h with rfl | h
      · exact List.mem_cons_self ..
      · exact List.mem_cons_of_mem _ (ih h)
  | case3 => exact h

theorem mem_mark {x : Char} {i j : Nat} : j ∈ mark x i ↔ j = i ∧ isSpace x = false := by
  cases hx : isSpace x <;> simp [mark, hx]

theorem exists_of_mem_lex {m : Mode} {cs : List (Char × Nat)} {i : Nat} (h : i ∈ lex m cs) :
    ∃ x, (x, i) ∈ cs ∧ isSpace x = false := by
  have hslash : isSpace '\\' = false := by decide
  fun_induction lex m cs <;> grind [= mem_mark]

theorem mem_placed {x : Char} {i : Nat} {lines : List Line} (h : (x, i) ∈ placed lines) :
    ∃ line, lines[i]? = some line ∧ x ∈ line ++ ['\n'] := by
  obtain ⟨⟨line, j⟩, hline, hx⟩ := List.mem_flatMap.mp h
  obtain ⟨y, hy, he⟩ := List.mem_map.mp hx
  cases he
  exact ⟨line, List.mk_mem_zipIdx_iff_getElem?.mp hline, hy⟩

theorem ne_nil_of_mem_codeNumbers {lines : List Line} {i : Nat} (h : i ∈ codeNumbers lines) :
    ∃ line, lines[i]? = some line ∧ line ≠ [] := by
  obtain ⟨x, hx, hblank⟩ := exists_of_mem_lex h
  obtain ⟨line, hline, hmem⟩ := mem_placed (mem_joinLines hx)
  refine ⟨line, hline, ?_⟩
  rintro rfl
  rw [List.mem_singleton.mp hmem] at hblank
  revert hblank
  decide

/-- If the lines with code all come behind the first `n`, then dropping these
keeps the lines with code. -/
theorem codeLines_sublist_drop {lines : List Line} {n : Nat}
    (h : ∀ i ∈ codeNumbers lines, n ≤ i) : (codeLines lines).Sublist (lines.drop n) := by
  have hsplit : lines.zipIdx = (lines.take n).zipIdx ++ (lines.drop n).zipIdx (lines.take n).length := by
    rw [← Nat.zero_add (lines.take n).length, ← List.zipIdx_append, List.take_append_drop]
  have hfront : (lines.take n).zipIdx.filter (fun line => line.2 ∈ codeNumbers lines) = [] := by
    refine List.filter_eq_nil_iff.mpr fun line hline hcode => ?_
    have hlt := List.snd_lt_of_mem_zipIdx hline
    have hle := h line.2 (by simpa using hcode)
    have hlen := List.length_take_le n lines
    omega
  rw [codeLines, hsplit, List.filter_append, hfront, List.nil_append]
  refine (List.filter_sublist.map Prod.fst).trans ?_
  rw [List.zipIdx_map_fst]

end Lex

/-! ### What is left of the lines -/

/-- The lines that are skipped behind the comments have no code. -/
theorem body_le_of_mem_codeNumbers {lines left : List Line} (hleft : left <:+ lines) {i : Nat}
    (hi : i ∈ codeNumbers lines) (hread : lines.length - left.length ≤ i) :
    lines.length - (skipEmptyLines left).length ≤ i := by
  obtain ⟨line, hline, hne⟩ := ne_nil_of_mem_codeNumbers hi
  obtain ⟨read, rfl⟩ := hleft
  have hsplit : left.takeWhile List.isEmpty ++ skipEmptyLines left = left :=
    List.takeWhile_append_dropWhile
  have hlen := congrArg List.length hsplit
  simp only [List.length_append] at hlen hread ⊢
  by_contra hlt
  have hskipped : i - read.length < (left.takeWhile List.isEmpty).length := by omega
  rw [List.getElem?_append_right (by omega), ← hsplit, List.getElem?_append_left hskipped] at hline
  exact hne (List.isEmpty_iff.mp (List.mem_takeWhile_imp (List.mem_of_getElem? hline)))

-- The condition is not needed where the header has the very lines that were taken for a
-- comment: both lines behind the first one are code here, and are printed again.
example :
    let lines := ["/* a */ // b".toList, " * @file".toList, " */".toList, "int x;".toList]
    (collect ⟨[], []⟩ lines).map Prod.fst = some ["int x;".toList] ∧ codeLines lines = lines.tail ∧
      (process ⟨[], []⟩ 2024 lines).map (fun p => decide ((codeLines lines).Sublist p.1)) =
        some true := by
  decide +kernel

end RewriteHeader
