import TaskSuite.RewriteHeaderReading
import Mathlib.Algebra.Ring.Nat

/-! Whether the header that `rewrite_header` prints is one comment for the
compiler, which ends a comment at the first `*/` in it. -/
namespace RewriteHeader
open Regex

def endMarks : List Char → Nat
  | [] => 0
  | x :: xs => (x == '*' && xs.head? == some '/').toNat + endMarks xs

/-- One C comment: `*/` occurs once in it, at the end of the last line. -/
structure OneComment (header : List Line) : Prop where
  starts : ∃ line, header.head? = some line ∧ ['/', '*', '*'] <+: line
  ends : ∃ line, header.getLast? = some line ∧ ['*', '/'] <:+ line
  once : (header.map endMarks).sum = 1

def Header.texts (h : Header) : List Line :=
  (if h.moduleName.isEmpty then [] else [h.moduleName, h.moduleDesc]) ++
    h.brief :: h.author :: (h.signature ++ h.license ++ h.trailing)

/-- The lines of the output in front of the empty line that precedes the body. -/
def outputHeader (options : Options) (currentYear : Nat) (lines : List Line) :
    Option (List Line) :=
  (process options currentYear lines).bind fun output =>
    (collect options lines).map fun found =>
      output.1.take (output.1.length - ((skipEmptyLines found.1).length + 1))

/-! ### Counting -/

section Count

theorem endMarks_append {a b : List Char} (h : b.head? ≠ some '/') :
    endMarks (a ++ b) = endMarks a + endMarks b := by
  induction a with
  | nil => simp [endMarks]
  | cons x a ih =>
      cases a with
      | nil => simp [endMarks, h]
      | cons y a =>
          simp only [List.cons_append, endMarks, List.head?_cons] at ih ⊢
          simp only [ih, Nat.add_assoc]

@[simp] theorem endMarks_cons_of_ne {x : Char} {xs : List Char} (h : x ≠ '*') :
    endMarks (x :: xs) = endMarks xs := by
  simp [endMarks, h]

theorem endMarks_eq_zero_of_not_mem {s : List Char} (h : '*' ∉ s) : endMarks s = 0 := by
  induction s with
  | nil => rfl
  | cons x xs ih =>
      rw [List.mem_cons, not_or] at h
      rw [endMarks_cons_of_ne (Ne.symm h.1), ih h.2]

theorem endMarks_append_of_not_mem {a b : List Char} (h : '*' ∉ a) :
    endMarks (a ++ b) = endMarks b := by
  induction a with
  | nil => rfl
  | cons x a ih =>
      rw [List.mem_cons, not_or] at h
      rw [List.cons_append, endMarks_cons_of_ne (Ne.symm h.1), ih h.2]

theorem endMarks_flatten {pieces : List (List Char)}
    (h : ∀ p ∈ pieces, p.head? ≠ some '/') :
    endMarks pieces.flatten = (pieces.map endMarks).sum ∧ pieces.flatten.head? ≠ some '/' := by
  induction pieces with
  | nil => simp [endMarks]
  | cons p pieces ih =>
      obtain ⟨hsum, hhead⟩ := ih fun q hq => h q (List.mem_cons_of_mem p hq)
      refine ⟨?_, ?_⟩
      · rw [List.flatten_cons, endMarks_append hhead, hsum, List.map_cons, List.sum_cons]
      · cases p with
        | nil => exact hhead
        | cons x xs => exact h (x :: xs) (List.mem_cons_self ..)

theorem endMarks_eq_zero {s : List Char} : endMarks s = 0 ↔ ¬ ['*', '/'] <:+: s := by
  induction s with
  | nil => simp [endMarks]
  | cons x xs ih =>
      rw [endMarks, Nat.add_eq_zero_iff, ih, List.infix_cons_iff, not_or]
      refine and_congr ?_ Iff.rfl
      cases xs with
      | nil => simp
      | cons y ys =>
          rw [Bool.toNat_eq_zero, List.cons_prefix_cons, List.cons_prefix_cons]
          by_cases hx : x = '*'
          · by_cases hy : y = '/'
            · simp [hx, hy]
            · simp [hx, hy, Ne.symm hy]
          · simp [hx, Ne.symm hx]

theorem getlines_eq_nil {s : List Char} : getlines s = [] ↔ s = [] := by
  cases s with
  | nil => simp [getlines]
  | cons x xs =>
      simp only [getlines]
      split_ifs
      · simp
      · split <;> simp

theorem head_of_getlines_cons {s : List Char} {l : Line} {ls : List Line} {x : Char}
    (h : getlines s = l :: ls) (hx : x ≠ '\n') : l.head? = some x ↔ s.head? = some x := by
  cases s with
  | nil => simp [getlines] at h
  | cons y ys =>
      simp only [getlines] at h
      split_ifs at h with hy
      · cases h
        simp [hy, Ne.symm hx]
      · split at h <;> cases h <;> simp

/-- No mark goes over the end of a line. -/
theorem sum_endMarks_getlines (s : List Char) :
    ((getlines s).map endMarks).sum = endMarks s := by
  induction s with
  | nil => rfl
  | cons x xs ih =>
      simp only [getlines]
      split_ifs with hx
      · subst hx
        rw [List.map_cons, List.sum_cons, ih]
        simp [endMarks]
      · cases hl : getlines xs with
        | nil =>
            rw [getlines_eq_nil.mp hl]
            simp
        | cons l ls =>
            rw [hl, List.map_cons, List.sum_cons] at ih
            have hhead : (l.head? == some '/') = (xs.head? == some '/') := by
              rw [Bool.eq_iff_iff, beq_iff_eq, beq_iff_eq]
              exact head_of_getlines_cons hl (by decide)
            simp only [List.map_cons, List.sum_cons, endMarks, hhead, ← ih, Nat.add_assoc]

end Count

/-! ### The marks in a printed header -/

section Print
variable {h : Header}

theorem endMarks_lead (s : List Char) :
    endMarks (Header.doxygenLead ++ s) = endMarks s ∧
      (Header.doxygenLead ++ s).head? ≠ some '/' := by
  refine ⟨?_, show some ' ' ≠ some '/' by decide⟩
  show endMarks (' ' :: '*' :: ' ' :: s) = _
  simp [endMarks]

theorem endMarks_printLine (line : Line) :
    endMarks (Header.printLine line) = endMarks line ∧
      (Header.printLine line).head? ≠ some '/' := by
  cases line with
  | nil => decide
  | cons x xs =>
      rw [show Header.printLine (x :: xs) = Header.doxygenLead ++ (x :: xs ++ ['\n']) from rfl,
        (endMarks_lead _).1, endMarks_append (by decide)]
      exact ⟨rfl, (endMarks_lead _).2⟩

theorem endMarks_printLines (lines : List Line) :
    endMarks (lines.flatMap Header.printLine) = (lines.map endMarks).sum ∧
      (lines.flatMap Header.printLine).head? ≠ some '/' := by
  have hall : ∀ p ∈ lines.map Header.printLine, p.head? ≠ some '/' := by
    intro p hp
    obtain ⟨line, -, rfl⟩ := List.mem_map.mp hp
    exact (endMarks_printLine line).2
  obtain ⟨hsum, hhead⟩ := endMarks_flatten hall
  refine ⟨?_, hhead⟩
  rw [List.flatMap_def, hsum, List.map_map]
  exact congrArg List.sum (List.map_congr_left fun line _ => (endMarks_printLine line).1)

theorem not_mem_printYears {x : Char} {finalYear : Nat} {separator : Line} {firstYear lastYear : Nat}
    {years : List Nat} (hx : x.isDigit = false) (hcomma : x ∉ ", ".toList) (hdash : x ∉ " - ".toList)
    (hs : x ∉ separator) : x ∉ Header.printYears finalYear separator firstYear lastYear years := by
  have hdigits : ∀ n, x ∉ Nat.toDigits 10 n := by
    intro n hmem
    exact absurd (Nat.isDigit_of_mem_toDigits (by decide) (by decide) hmem) (by simp [hx])
  induction years generalizing separator firstYear lastYear with
  | nil => exact List.not_mem_nil
  | cons year years ih =>
      simp only [Header.printYears]
      split_ifs <;> simp only [List.mem_append, not_or, List.not_mem_nil, not_false_eq_true,
        and_true, hs, hdigits, hcomma, hdash, ih hs, ih hcomma]

theorem endMarks_copyrightText (h : Header) :
    endMarks h.copyrightText = endMarks h.author := by
  rw [Header.copyrightText, endMarks_append (by decide), List.append_assoc,
    endMarks_append_of_not_mem (not_mem_printYears (by decide) (by decide) (by decide) (by decide)),
    endMarks_append_of_not_mem (by decide)]
  rfl

theorem endMarks_ite {b : Bool} {s : List Char} :
    endMarks (if b then [] else s) = if b then 0 else endMarks s := by
  cases b <;> rfl

theorem head_ite {b : Bool} {s : List Char} (h : s.head? ≠ some '/') :
    (if b then [] else s).head? ≠ some '/' := by
  cases b with
  | false => exact h
  | true => exact nofun

/-- Only the first line starts with a slash. -/
theorem head_pieces (h : Header) : ∀ p ∈ h.pieces.tail, p.head? ≠ some '/' := by
  have hempty := (endMarks_printLine []).2
  simp only [Header.pieces, List.tail_cons, List.forall_mem_cons, List.not_mem_nil,
    IsEmpty.forall_iff, implies_true, and_true]
  exact ⟨head_ite (endMarks_lead _).2, head_ite hempty, (endMarks_lead _).2, (endMarks_lead _).2,
    hempty, (endMarks_lead _).2, hempty, (endMarks_printLines _).2, head_ite hempty,
    head_ite (endMarks_lead _).2, hempty, (endMarks_printLines _).2, head_ite hempty,
    (endMarks_printLines _).2, by decide⟩

theorem endMarks_moduleLine (name desc : Line) :
    endMarks (Header.doxygenLead ++ (name ++ (" -- ".toList ++ (desc ++ ['\n'])))) =
      endMarks name + endMarks desc := by
  have hhead : (" -- ".toList ++ (desc ++ ['\n'])).head? ≠ some '/' :=
    show some ' ' ≠ some '/' by decide
  rw [(endMarks_lead _).1, endMarks_append hhead, endMarks_append_of_not_mem (by decide),
    endMarks_append (by decide)]
  rfl

theorem endMarks_textLine {words : Line} (hw : '*' ∉ words) (text : Line) (x : Char)
    (rest : List Char) (hx : x ≠ '/') (hrest : '*' ∉ x :: rest) :
    endMarks (Header.doxygenLead ++ (words ++ (text ++ x :: rest))) = endMarks text := by
  rw [(endMarks_lead _).1, endMarks_append_of_not_mem hw, endMarks_append (by simpa using hx),
    endMarks_eq_zero_of_not_mem hrest]
  rfl

theorem endMarks_copyrightLine (h : Header) :
    endMarks (Header.doxygenLead ++ (h.copyrightText ++ ['\n'])) = endMarks h.author := by
  rw [(endMarks_lead _).1, endMarks_append (by decide), endMarks_copyrightText]
  rfl

/-- Each text of the header adds its own marks, and the last line adds one. -/
theorem endMarks_print (h : Header) :
    endMarks h.print = (if h.moduleName.isEmpty then 0 else 2 * endMarks h.moduleName +
      endMarks h.moduleDesc) + endMarks h.brief + endMarks h.author +
      (h.signature.map endMarks).sum + (h.license.map endMarks).sum +
      (h.trailing.map endMarks).sum + 1 := by
  have hbrief := endMarks_textLine (show '*' ∉ "@brief ".toList by decide) h.brief '\n' []
    (by decide) (by decide)
  have hpart : endMarks (Header.doxygenLead ++ ("This file is part of ".toList ++ (h.moduleName ++
      ".\n".toList))) = endMarks h.moduleName :=
    endMarks_textLine (by decide) h.moduleName '.' ['\n'] (by decide) (by decide)
  have hfile : endMarks (Header.doxygenLead ++ "@file\n".toList) = 0 := by decide
  have hempty : endMarks (Header.printLine []) = 0 := by decide
  have hend : endMarks (Header.doxygenEnd ++ ['\n']) = 1 := by decide
  have hstart : endMarks (Header.doxygenStart ++ ['\n']) = 0 := by decide
  obtain ⟨hsum, hhead⟩ := endMarks_flatten (head_pieces h)
  have hsplit : h.print = (Header.doxygenStart ++ ['\n']) ++ h.pieces.tail.flatten :=
    List.flatten_cons
  rw [hsplit, endMarks_append hhead, hsum, hstart]
  simp only [Header.pieces, List.tail_cons, List.map_cons, List.map_nil, List.sum_cons,
    List.sum_nil, endMarks_ite, endMarks_moduleLine, hbrief, endMarks_copyrightLine, hpart, hfile,
    hempty, hend, (endMarks_printLines _).1]
  have hzero : (if h.trailing.isEmpty then 0 else 0) = 0 := by split_ifs <;> rfl
  rw [hzero]
  have harith : ∀ n d b a s l t : Nat, n + d + (b + (a + (s + (n + (l + (t + 1)))))) =
      2 * n + d + b + a + s + l + t + 1 := by omega
  cases h.moduleName.isEmpty with
  | true => simp only [if_true, Nat.zero_add, Nat.add_zero, Nat.add_assoc]
  | false =>
      simp only [Bool.false_eq_true, if_false, Nat.zero_add, Nat.add_zero]
      exact harith ..

end Print

/-! ### The lines of a printed header -/

section Lines

def Ended (s : List Char) : Prop := s = [] ∨ ['\n'] <:+ s

theorem getlines_line {l : Line} (h : '\n' ∉ l) (s : List Char) :
    getlines (l ++ '\n' :: s) = l :: getlines s := by
  induction l with
  | nil => simp [getlines]
  | cons x xs ih =>
      rw [List.mem_cons, not_or] at h
      rw [List.cons_append, getlines, if_neg (Ne.symm h.1), ih h.2]

theorem Ended.getlines_append {s : List Char} (h : Ended s) (t : List Char) :
    getlines (s ++ t) = getlines s ++ getlines t := by
  rcases h with rfl | ⟨s, rfl⟩
  · rfl
  · induction s with
    | nil => simp [getlines]
    | cons x xs ih =>
        simp only [List.append_assoc, List.cons_append, List.nil_append] at ih ⊢
        simp only [getlines]
        split_ifs
        · rw [ih]
          rfl
        · rw [ih]
          cases hl : getlines (xs ++ ['\n']) with
          | nil =>
              have hempty := getlines_eq_nil.mp hl
              simp at hempty
          | cons l ls => rfl

theorem Ended.append {s t : List Char} (hs : Ended s) (ht : Ended t) : Ended (s ++ t) := by
  rcases ht with rfl | ht
  · rwa [List.append_nil]
  · exact .inr (List.suffix_append_of_suffix ht)

theorem Ended.flatten {pieces : List (List Char)} (h : ∀ p ∈ pieces, Ended p) :
    Ended pieces.flatten := by
  induction pieces with
  | nil => exact .inl rfl
  | cons p pieces ih =>
      exact (h p (List.mem_cons_self ..)).append
        (ih fun q hq => h q (List.mem_cons_of_mem p hq))

theorem ended_printLine (line : Line) : Ended (Header.printLine line) :=
  .inr (List.suffix_append _ _)

theorem ended_printLines (lines : List Line) : Ended (lines.flatMap Header.printLine) := by
  rw [List.flatMap_def]
  refine Ended.flatten fun p hp => ?_
  obtain ⟨line, -, rfl⟩ := List.mem_map.mp hp
  exact ended_printLine line

theorem Ended.ite {b : Bool} {s : List Char} (h : Ended s) : Ended (if b then [] else s) := by
  cases b with
  | false => exact h
  | true => exact .inl rfl

theorem ended_pieces (h : Header) : ∀ p ∈ h.pieces, Ended p := by
  have hline : ∀ s : List Char, ['\n'] <:+ s ++ ['\n'] := fun s => List.suffix_append s _
  have hlead : ∀ {a s : List Char}, ['\n'] <:+ s → ['\n'] <:+ a ++ s :=
    List.suffix_append_of_suffix
  have hempty := ended_printLine []
  simp only [Header.pieces, List.forall_mem_cons, List.not_mem_nil, IsEmpty.forall_iff,
    implies_true, and_true]
  exact ⟨.inr (hline _), .ite (.inr (hlead (hlead (hlead (hline _))))), hempty.ite,
    .inr (hlead (by decide)), .inr (hlead (hlead (hline _))), hempty, .inr (hlead (hline _)),
    hempty, ended_printLines _, hempty.ite, .ite (.inr (hlead (hlead (hlead (by decide))))), hempty,
    ended_printLines _, hempty.ite, ended_printLines _, .inr (hline _)⟩

/-- The lines of the header: the first one, the last one, and what is between. -/
theorem getlines_print (h : Header) :
    ∃ lines, getlines h.print = Header.doxygenStart :: (lines ++ [Header.doxygenEnd]) := by
  have hsplit : h.print = Header.doxygenStart ++ ('\n' ::
      (h.pieces.tail.dropLast.flatten ++ (Header.doxygenEnd ++ ['\n']))) := by
    have hpieces : h.pieces = (Header.doxygenStart ++ ['\n']) ::
        (h.pieces.tail.dropLast ++ [Header.doxygenEnd ++ ['\n']]) := rfl
    refine (congrArg List.flatten hpieces).trans ?_
    rw [List.flatten_cons, List.flatten_append, List.flatten_singleton, List.append_assoc,
      List.singleton_append]
  have hmid : Ended h.pieces.tail.dropLast.flatten := by
    refine Ended.flatten fun p hp => ended_pieces h p ?_
    exact List.mem_of_mem_tail (List.mem_of_mem_dropLast hp)
  refine ⟨getlines h.pieces.tail.dropLast.flatten, ?_⟩
  rw [hsplit, getlines_line (by decide), hmid.getlines_append]
  rfl

theorem mem_getlines_flatten {pieces : List (List Char)} {p : List Char} {l : Line}
    (h : ∀ p ∈ pieces, Ended p) (hp : p ∈ pieces) (hl : l ∈ getlines p) :
    l ∈ getlines pieces.flatten := by
  obtain ⟨front, back, rfl⟩ := List.append_of_mem hp
  obtain ⟨hfront, hback⟩ := List.forall_mem_append.mp h
  rw [List.flatten_append, List.flatten_cons, (Ended.flatten hfront).getlines_append,
    (hback p (List.mem_cons_self ..)).getlines_append]
  exact List.mem_append_right _ (List.mem_append_left _ hl)

theorem copyrightText_mem_getlines {h : Header} (hauthor : '\n' ∉ h.author) :
    Header.doxygenLead ++ h.copyrightText ∈ getlines h.print := by
  have hline : '\n' ∉ Header.doxygenLead ++ h.copyrightText := by
    have hyears : '\n' ∉ Header.printYears (h.copyrightYears.getLastD 0) "@Copyright (C) ".toList 0 0
        h.copyrightYears := not_mem_printYears (by decide) (by decide) (by decide) (by decide)
    have hlead : '\n' ∉ Header.doxygenLead := by decide
    simp only [Header.copyrightText, List.mem_append, not_or]
    exact ⟨hlead, ⟨⟨hyears, by decide⟩, hauthor⟩, by decide⟩
  refine mem_getlines_flatten (p := Header.doxygenLead ++ (h.copyrightText ++ ['\n']))
    (ended_pieces h) ?_ ?_
  · exact .tail _ (.tail _ (.tail _ (.tail _ (.tail _ (.tail _ (.head _))))))
  · rw [← List.append_assoc, getlines_line hline]
    exact List.mem_cons_self ..

theorem ended_print (h : Header) : Ended h.print := Ended.flatten (ended_pieces h)

theorem headerLines_eq (h : Header) : headerLines h = getlines h.print ++ [[]] :=
  (ended_print h).getlines_append ['\n']

theorem outputHeader_eq {options : Options} {currentYear : Nat} {lines left : List Line}
    {header : Header} (h : collect options lines = some (left, header)) :
    outputHeader options currentYear lines =
      some (getlines (header.canonicalize currentYear).print) := by
  have htake : ∀ (a : List Line) (b : List Line),
      (a ++ [[]] ++ b).take ((a ++ [[]] ++ b).length - (b.length + 1)) = a := by
    intro a b
    have hlen : (a ++ [[]] ++ b).length - (b.length + 1) = a.length := by
      simp only [List.length_append, List.length_singleton]
      omega
    rw [hlen, List.append_assoc, List.take_left]
  rw [outputHeader, process, h]
  simp only [Option.map_some, Option.bind_some, headerLines_eq, htake]

end Lines

/-- The printed header is one comment exactly if no text in it has a `*/`. -/
theorem oneComment_iff (h : Header) :
    OneComment (getlines h.print) ↔ ∀ text ∈ h.texts, ¬ ['*', '/'] <:+: text := by
  obtain ⟨lines, hlines⟩ := getlines_print h
  have hcount : (∀ text ∈ h.texts, ¬ ['*', '/'] <:+: text) ↔ endMarks h.print = 1 := by
    rw [endMarks_print, Header.texts]
    simp only [← endMarks_eq_zero, List.forall_mem_append, List.forall_mem_cons]
    have hsum : ∀ texts : List Line, (∀ t ∈ texts, endMarks t = 0) ↔
        (texts.map endMarks).sum = 0 := by
      intro texts
      rw [List.sum_eq_zero_iff_forall_eq_nat, List.forall_mem_map]
    rw [hsum h.signature, hsum h.license, hsum h.trailing]
    cases h.moduleName.isEmpty with
    | true =>
        simp only [if_true, List.not_mem_nil, IsEmpty.forall_iff, implies_true, true_and]
        omega
    | false =>
        simp only [Bool.false_eq_true, if_false, List.forall_mem_cons, List.not_mem_nil,
          IsEmpty.forall_iff, implies_true, and_true]
        omega
  rw [hcount, ← sum_endMarks_getlines]
  constructor
  · exact OneComment.once
  · intro honce
    refine ⟨⟨Header.doxygenStart, ?_, List.prefix_rfl⟩, ⟨Header.doxygenEnd, ?_, by decide⟩, honce⟩
    · rw [hlines]
      rfl
    · rw [hlines, ← List.cons_append, List.getLast?_concat]

/-! ### The texts of the file -/

/-- The lines of the license that are printed with the names in them. -/
def licenseIn (reading : Reading) : List Line :=
  if textsOf .license reading = [] then Header.defaultLicense else textsOf .license reading

/-- A line of the license with the name of the module put in, if there is one. -/
def putName (name old line : Line) : Line :=
  if name = [] then line
  else Header.rename { Header.new ⟨name, []⟩ with oldModuleName := old } line

def HasEndMark (text : Line) : Prop := ['*', '/'] <:+: text

instance (text : Line) : Decidable (HasEndMark text) := inferInstanceAs (Decidable (_ <:+: _))

/-- No text that is taken over has a `*/`: the lines of the signature and the trailing
lines, the last `@brief` line, what stands behind the years of the last copyright line,
the line that names the module, and the license with the names in it. -/
structure NoEndMark (options : Options) (reading : Reading) : Prop where
  lines : ∀ kind ∈ [State.signature, .trailing], ∀ text ∈ textsOf kind reading, ¬ HasEndMark text
  brief : ∀ text ∈ (textsOf .brief reading).getLast?, ¬ HasEndMark text
  author : ∀ text ∈ (textsOf .copyright reading).getLast?, ∀ items rest, YearList text items rest →
    ¬ HasEndMark rest
  module : options.moduleName = [] →
    ∀ p ∈ reading.find? (fun p => (nameIn options.moduleDesc p).1 ≠ []), p.1 = .moduleLine →
      ¬ HasEndMark p.2
  license : ∀ line ∈ licenseIn reading, ¬ HasEndMark
    (putName (moduleOf options reading).1 (oldNameIn (moduleOf options reading).1 reading) line)

section Texts
variable {options : Options} {reading : Reading} {readings : List Reading} {text a b : Line}

theorem hasEndMark_iff_endMarks : HasEndMark text ↔ endMarks text ≠ 0 := by
  rw [ne_eq, endMarks_eq_zero, HasEndMark, not_not]

theorem hasEndMark_append_of_not_mem (h : '*' ∉ a) : HasEndMark (a ++ b) ↔ HasEndMark b := by
  rw [hasEndMark_iff_endMarks, hasEndMark_iff_endMarks, endMarks_append_of_not_mem h]

theorem hasEndMark_append (h : b.head? ≠ some '/') :
    HasEndMark (a ++ b) ↔ HasEndMark a ∨ HasEndMark b := by
  simp only [hasEndMark_iff_endMarks, endMarks_append h]
  omega

theorem star_not_mem_of_space {s : Line} (h : ∀ x ∈ s, isSpace x = true) : '*' ∉ s := fun hmem =>
  absurd (h '*' hmem) (by decide)

theorem head_ne_slash_of_space {s t : Line} (hs : s ≠ []) (h : ∀ x ∈ s, isSpace x = true) :
    (s ++ t).head? ≠ some '/' := by
  obtain ⟨x, s, rfl⟩ := List.exists_cons_of_ne_nil hs
  intro hslash
  have hx : x = '/' := by simpa using hslash
  exact absurd (h x (List.mem_cons_self ..)) (by rw [hx]; decide)

theorem hasEndMark_moduleIn (h : isModuleText text = true) :
    HasEndMark text ↔ HasEndMark (moduleIn text).1 ∨ HasEndMark (moduleIn text).2 := by
  obtain ⟨-, a, b, htext, ha, hne, hb⟩ := moduleIn_spec h
  have hmark := hasEndMark_append (a := (moduleIn text).1)
    (head_ne_slash_of_space (t := "--".toList ++ (b ++ (moduleIn text).2)) hne ha)
  rw [← htext, hasEndMark_append_of_not_mem (star_not_mem_of_space ha),
    hasEndMark_append_of_not_mem (by decide),
    hasEndMark_append_of_not_mem (star_not_mem_of_space hb)] at hmark
  exact hmark

theorem hasEndMark_briefIn (h : isBriefText text = true) : HasEndMark text ↔ HasEndMark (briefIn text) := by
  obtain ⟨x, a, hx, ha, htext⟩ := briefIn_spec h
  have hfront : '*' ∉ [x] ++ "brief".toList := by
    rcases hx with rfl | rfl <;> decide
  have hmark := hasEndMark_append_of_not_mem (b := a ++ briefIn text) hfront
  rw [List.append_assoc, List.singleton_append, ← htext,
    hasEndMark_append_of_not_mem (star_not_mem_of_space ha)] at hmark
  exact hmark

theorem hasEndMark_rdropWhile (s : Line) :
    HasEndMark (s.rdropWhile fun x => x = ' ' ∨ x = '.') ↔ HasEndMark s := by
  have hsplit : s.rdropWhile (fun x => x = ' ' ∨ x = '.') ++ s.rtakeWhile (fun x => x = ' ' ∨ x = '.') = s :=
    List.rdropWhile_append_rtakeWhile
  have hend : ∀ x ∈ s.rtakeWhile (fun x => x = ' ' ∨ x = '.'), x = ' ' ∨ x = '.' := fun x hx => by
    simpa using List.mem_rtakeWhile_imp hx
  generalize s.rtakeWhile (fun x => x = ' ' ∨ x = '.') = t at hsplit hend
  have hstar : '*' ∉ t := fun hmem => absurd (hend '*' hmem) (by decide)
  have hhead : t.head? ≠ some '/' := fun hslash =>
    absurd (hend '/' (List.mem_of_head? hslash)) (by decide)
  have hmark := hasEndMark_append (a := s.rdropWhile fun x => x = ' ' ∨ x = '.') hhead
  rw [hsplit, @hasEndMark_iff_endMarks t, endMarks_eq_zero_of_not_mem hstar] at hmark
  simpa using hmark.symm

theorem hasEndMark_authorIn (htext : OneLine text) (h : isCopyrightText text = true) :
    ¬ HasEndMark (authorIn text) ↔ ∀ items rest, YearList text items rest → ¬ HasEndMark rest := by
  have hauthor : ∀ {items rest}, YearList text items rest →
      (HasEndMark (authorIn text) ↔ HasEndMark rest) := by
    intro items rest hlist
    rw [authorIn, hlist.decode htext, ← hasEndMark_rdropWhile rest]
  obtain ⟨items, rest, hlist⟩ := exists_yearList (not_noMark_of_isCopyrightText h)
  constructor
  · intro hno items rest hlist
    exact (hauthor hlist).not.mp hno
  · intro hall
    exact (hauthor hlist).not.mpr (hall items rest hlist)

theorem mem_trailingLines {P : Line → Prop} (hnil : P []) (texts : List Line) :
    (∀ line ∈ trailingLines texts, P line) ↔ ∀ text ∈ texts, P text := by
  induction texts with
  | nil => rfl
  | cons text texts ih =>
      rw [trailingLines, List.forall_mem_cons, ← ih]
      split_ifs with hempty
      · obtain ⟨hempty, -⟩ := Bool.and_eq_true_iff.mp hempty
        rw [List.isEmpty_iff.mp hempty]
        exact (and_iff_right hnil).symm
      · exact List.forall_mem_cons

theorem forall_getLastD {texts : List Line} {f : Line → Line} {default : Line} {P Q : Line → Prop}
    (hdefault : P default) (hnil : P []) (hf : ∀ text ∈ texts, P (f text) ↔ Q text) :
    P (if ((texts.map f).getLastD []).isEmpty then default else (texts.map f).getLastD []) ↔
      ∀ text ∈ texts.getLast?, Q text := by
  rcases List.eq_nil_or_concat texts with rfl | ⟨front, text, rfl⟩
  · simpa using hdefault
  · rw [List.concat_eq_append] at hf ⊢
    have hlast := hf text (by simp)
    have hmap : ((front ++ [text]).map f).getLastD [] = f text := by
      rw [List.map_append, List.map_singleton, List.getLastD_concat]
    rw [hmap, List.getLast?_concat]
    split_ifs with hempty
    · rw [List.isEmpty_iff.mp hempty] at hlast
      simpa [hdefault] using hlast.mp hnil
    · simpa using hlast

/-- The first name that is given, by a module line or behind the words. -/
theorem namesIn_headD (desc : Line) (reading : Reading) (default : Line × Line) :
    (namesIn desc reading).headD default =
      ((reading.find? fun p => (nameIn desc p).1 ≠ []).map (nameIn desc)).getD default := by
  rw [List.headD_eq_head?_getD, namesIn, List.head?_filter, List.find?_map]
  rfl

end Texts

section Header
variable {options : Options} {readings : List Reading}

theorem hasEndMark_fixme (desc : Line) :
    HasEndMark (if desc.isEmpty then "FIXME".toList else desc) ↔ HasEndMark desc := by
  cases desc with
  | nil => decide
  | cons x xs => rfl

theorem module_noEndMark (currentYear : Nat) (hsuits : ∀ p ∈ readings.flatten, p.1.Suits p.2 ∧ IsText p.2)
    (hname : ¬ HasEndMark options.moduleName) (hdesc : ¬ HasEndMark options.moduleDesc) :
    (∀ text ∈ (if ((headerOf options readings).canonicalize currentYear).moduleName.isEmpty then []
        else [((headerOf options readings).canonicalize currentYear).moduleName,
          ((headerOf options readings).canonicalize currentYear).moduleDesc]), ¬ HasEndMark text) ↔
      (options.moduleName = [] → ∀ p ∈ readings.flatten.find?
        (fun p => (nameIn options.moduleDesc p).1 ≠ []), p.1 = .moduleLine → ¬ HasEndMark p.2) := by
  have hnames : ((headerOf options readings).canonicalize currentYear).moduleName =
      (moduleOf options readings.flatten).1 := rfl
  have hdescs : HasEndMark ((headerOf options readings).canonicalize currentYear).moduleDesc ↔
      HasEndMark (moduleOf options readings.flatten).2 := hasEndMark_fixme _
  rw [hnames]
  by_cases hgiven : options.moduleName = []
  · have hmodule : moduleOf options readings.flatten = _ :=
      (if_pos hgiven).trans (namesIn_headD options.moduleDesc readings.flatten ([], options.moduleDesc))
    rw [hmodule] at hdescs ⊢
    cases hfind : readings.flatten.find? fun p => (nameIn options.moduleDesc p).1 ≠ [] with
    | none => simp
    | some p =>
        obtain ⟨kind, text⟩ := p
        have hsuits := (hsuits _ (List.mem_of_find?_eq_some hfind)).1
        have hne : (nameIn options.moduleDesc (kind, text)).1 ≠ [] := by
          simpa using List.find?_some hfind
        rw [hfind, Option.map_some, Option.getD_some] at hdescs
        rw [Option.map_some, Option.getD_some, if_neg fun hempty => hne (List.isEmpty_iff.mp hempty)]
        simp only [List.forall_mem_cons, hdescs]
        cases kind with
        | moduleLine =>
            have hmark := hasEndMark_moduleIn hsuits
            simp [hgiven, hmark, nameIn]
        | partOf =>
            have hstar : '*' ∉ partOfIn text := fun hmem =>
              absurd (partOfIn_chars text '*' hmem) (by decide)
            have hpart : ¬ HasEndMark (partOfIn text) := by
              rw [hasEndMark_iff_endMarks, endMarks_eq_zero_of_not_mem hstar]
              exact not_not.mpr rfl
            simp [hgiven, nameIn, hpart, hdesc]
        | searching | file | brief | copyright | signature | license | trailing => exact absurd rfl hne
  · have hmodule : moduleOf options readings.flatten = (options.moduleName, options.moduleDesc) :=
      if_neg hgiven
    rw [hmodule] at hdescs ⊢
    simp [hgiven, hname, hdescs, hdesc]

theorem license_headerOf (currentYear : Nat) :
    ((headerOf options readings).canonicalize currentYear).license =
      (licenseIn readings.flatten).map (putName (moduleOf options readings.flatten).1
        (oldNameIn (moduleOf options readings.flatten).1 readings.flatten)) := by
  have hlicense : (if (textsOf .license readings.flatten).isEmpty then Header.defaultLicense
      else textsOf .license readings.flatten) = licenseIn readings.flatten := by
    rw [licenseIn]
    cases textsOf .license readings.flatten <;> rfl
  change (if (moduleOf options readings.flatten).1.isEmpty then
    (if (textsOf .license readings.flatten).isEmpty then Header.defaultLicense
      else textsOf .license readings.flatten)
    else (if (textsOf .license readings.flatten).isEmpty then Header.defaultLicense
      else textsOf .license readings.flatten).map (headerOf options readings).rename) = _
  rw [hlicense]
  by_cases hname : (moduleOf options readings.flatten).1 = []
  · rw [if_pos (List.isEmpty_iff.mpr hname), hname]
    exact (List.map_id' _).symm
  · rw [if_neg fun hempty => hname (List.isEmpty_iff.mp hempty)]
    exact List.map_congr_left fun line _ => (if_neg hname).symm

/-- The texts of the printed header have a `*/` exactly where those of the file have one. -/
theorem noEndMark_iff (currentYear : Nat) (hsuits : ∀ p ∈ readings.flatten, p.1.Suits p.2 ∧ IsText p.2)
    (hname : ¬ HasEndMark options.moduleName) (hdesc : ¬ HasEndMark options.moduleDesc) :
    (∀ text ∈ ((headerOf options readings).canonicalize currentYear).texts, ¬ HasEndMark text) ↔
      NoEndMark options readings.flatten := by
  have hmodule := module_noEndMark currentYear hsuits hname hdesc
  have hbrief : ¬ HasEndMark ((headerOf options readings).canonicalize currentYear).brief ↔
      ∀ text ∈ (textsOf .brief readings.flatten).getLast?, ¬ HasEndMark text :=
    forall_getLastD (P := (¬ HasEndMark ·)) (f := briefIn) (by decide) (by decide) fun text htext =>
      (hasEndMark_briefIn (hsuits (.brief, text) (mem_textsOf.mp htext)).1).not.symm
  have hauthor : ¬ HasEndMark ((headerOf options readings).canonicalize currentYear).author ↔
      ∀ text ∈ (textsOf .copyright readings.flatten).getLast?, ∀ items rest,
        YearList text items rest → ¬ HasEndMark rest :=
    forall_getLastD (P := (¬ HasEndMark ·)) (f := authorIn) (by decide) (by decide) fun text htext =>
      have hmem := hsuits (.copyright, text) (mem_textsOf.mp htext)
      hasEndMark_authorIn hmem.2.oneLine hmem.1
  have hsignature : (∀ text ∈ ((headerOf options readings).canonicalize currentYear).signature,
      ¬ HasEndMark text) ↔ ∀ text ∈ textsOf .signature readings.flatten, ¬ HasEndMark text := by
    have hdefault : ∀ text ∈ Header.defaultSignature, ¬ HasEndMark text := by decide +kernel
    change (∀ text ∈ if (textsOf .signature readings.flatten).isEmpty then Header.defaultSignature
      else textsOf .signature readings.flatten, ¬ HasEndMark text) ↔ _
    cases textsOf .signature readings.flatten with
    | nil => exact iff_of_true hdefault nofun
    | cons text texts => exact Iff.rfl
  have hlicense : (∀ text ∈ ((headerOf options readings).canonicalize currentYear).license,
      ¬ HasEndMark text) ↔ ∀ line ∈ licenseIn readings.flatten, ¬ HasEndMark
        (putName (moduleOf options readings.flatten).1
          (oldNameIn (moduleOf options readings.flatten).1 readings.flatten) line) := by
    rw [license_headerOf, List.forall_mem_map]
  have htrailing : (∀ text ∈ ((headerOf options readings).canonicalize currentYear).trailing,
      ¬ HasEndMark text) ↔ ∀ text ∈ textsOf .trailing readings.flatten, ¬ HasEndMark text := by
    change (∀ text ∈ readings.flatMap fun reading => trailingLines (textsOf .trailing reading), _) ↔ _
    rw [textsOf_flatten, List.forall_mem_flatMap, List.forall_mem_flatMap]
    exact forall₂_congr fun reading _ => mem_trailingLines (P := (¬ HasEndMark ·)) (by decide) _
  rw [Header.texts, List.forall_mem_append, List.forall_mem_cons, List.forall_mem_cons,
    List.forall_mem_append, List.forall_mem_append, hmodule, hbrief, hauthor, hsignature, hlicense,
    htrailing]
  constructor
  · rintro ⟨hmodule, hbrief, hauthor, ⟨hsignature, hlicense⟩, htrailing⟩
    refine ⟨fun kind hkind => ?_, hbrief, hauthor, hmodule, hlicense⟩
    rcases List.mem_pair.mp hkind with rfl | rfl
    · exact hsignature
    · exact htrailing
  · intro h
    exact ⟨h.module, h.brief, h.author, ⟨h.lines _ (by simp), h.license⟩, h.lines _ (by simp)⟩

end Header

end RewriteHeader
