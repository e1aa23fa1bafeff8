import Mathlib.Data.List.Infix
import Mathlib.Logic.Function.Basic

/-! Regular expressions with the backtracking semantics of ECMAScript: the
alternatives are tried in order, a repetition takes as much as it can, and the
first way to match that lets the rest match decides what the groups capture. -/

inductive Regex where
  | empty
  | char (p : Char → Bool)
  | bol
  | eol
  | seq (r s : Regex)
  | alt (r s : Regex)
  | star (r : Regex)
  | group (n : Nat) (r : Regex)

namespace Regex

/-- What is left of the text, and whether that is the whole of it. -/
structure Pos where
  first : Bool
  rest : List Char

/-- The texts of the groups; empty for a group that did not take part. -/
abbrev Captures := Nat → List Char

/-- A condition on the characters of a text is decided along the text, not by
going through every character there is. -/
instance (priority := 2000) decidableForallChar (p : Char → Prop) [DecidablePred p]
    (s : List Char) : Decidable (∀ x ∈ s, p x) :=
  List.decidableBAll p s

variable {β : Type}

/-- A repetition of `m` before `k`, as often as possible; a round that takes
nothing does not count. -/
def iterate (m : Pos → Captures → (Pos → Captures → Option β) → Option β)
    (k : Pos → Captures → Option β) : Nat → Pos → Captures → Option β
  | 0, pos, c => k pos c
  | n + 1, pos, c =>
      (m pos c fun pos' c' =>
        if pos'.rest.length < pos.rest.length then iterate m k n pos' c' else none).orElse
      fun _ => k pos c

/-- The first way to match a front part of the text with which `k` succeeds. -/
def run : Regex → Pos → Captures → (Pos → Captures → Option β) → Option β
  | .empty, pos, c, k => k pos c
  | .char p, pos, c, k =>
      match pos.rest with
      | [] => none
      | x :: xs => if p x then k ⟨false, xs⟩ c else none
  | .bol, pos, c, k => if pos.first then k pos c else none
  | .eol, pos, c, k => if pos.rest.isEmpty then k pos c else none
  | .seq r s, pos, c, k => run r pos c fun pos' c' => run s pos' c' k
  | .alt r s, pos, c, k => (run r pos c k).orElse fun _ => run s pos c k
  | .star r, pos, c, k => iterate (run r) k pos.rest.length pos c
  | .group n r, pos, c, k => run r pos c fun pos' c' =>
      k pos' (Function.update c' n (pos.rest.take (pos.rest.length - pos'.rest.length)))

def regexMatch (r : Regex) (s : List Char) : Option Captures :=
  run r ⟨true, s⟩ (fun _ => []) fun pos c => if pos.rest.isEmpty then some c else none

/-- A match somewhere in a text: what stands before it, its captures with the
whole match as group 0, and what stands behind it. -/
structure Found where
  before : List Char
  captures : Captures
  after : List Char

def find (r : Regex) (first : Bool) (s : List Char) : Option Found :=
  match run (.group 0 r) ⟨first, s⟩ (fun _ => []) fun pos c => some ⟨[], c, pos.rest⟩ with
  | some f => some f
  | none =>
      match s with
      | [] => none
      | x :: xs => (find r false xs).map fun f => { f with before := x :: f.before }

def regexSearch (r : Regex) (s : List Char) : Option Captures := (find r true s).map (·.captures)

inductive Mark where
  | plain
  | dollar
  | number (n : Nat)

def Found.group (f : Found) (groups n : Nat) : List Char :=
  if n ≤ groups then f.captures n else []

/-- The replacement text for a match, in which `$$`, `$&`, `$n`, and `$` with a
grave accent (number 96) or an apostrophe (number 39) are special. -/
def format (groups : Nat) (f : Found) : Mark → List Char → List Char
  | .plain, [] => []
  | .dollar, [] => ['$']
  | .number n, [] => f.group groups n
  | .plain, x :: fmt =>
      if x = '$' then format groups f .dollar fmt else x :: format groups f .plain fmt
  | .dollar, x :: fmt =>
      if x = '$' then '$' :: format groups f .plain fmt
      else if x = '&' then f.captures 0 ++ format groups f .plain fmt
      else if x = Char.ofNat 96 then f.before ++ format groups f .plain fmt
      else if x = Char.ofNat 39 then f.after ++ format groups f .plain fmt
      else if x.isDigit then format groups f (.number (x.toNat - 48)) fmt
      else '$' :: x :: format groups f .plain fmt
  | .number n, x :: fmt =>
      if x.isDigit then f.group groups (10 * n + (x.toNat - 48)) ++ format groups f .plain fmt
      else if x = '$' then f.group groups n ++ format groups f .dollar fmt
      else f.group groups n ++ x :: format groups f .plain fmt

/-- The matches one after the other, and the text behind the last one; a match
that is empty ends the search. -/
def findAll (r : Regex) : Nat → Bool → List Char → List Found × List Char
  | 0, _, s => ([], s)
  | n + 1, first, s =>
      match find r first s with
      | none => ([], s)
      | some f =>
          if (f.captures 0).isEmpty then ([], s)
          else
            let more := findAll r n false f.after
            (f :: more.1, more.2)

/-- `std::sregex_iterator`, for a regex that does not match the empty text. -/
def regexIterator (r : Regex) (s : List Char) : List Found := (findAll r s.length true s).1

/-- `std::regex_replace`, for a regex that does not match the empty text. -/
def regexReplace (r : Regex) (groups : Nat) (s fmt : List Char) : List Char :=
  let all := findAll r s.length true s
  all.1.flatMap (fun f => f.before ++ format groups f .plain fmt) ++ all.2

/-! ### Shorthands -/

def literal : List Char → Regex
  | [] => .empty
  | x :: xs => .seq (.char (· = x)) (literal xs)

def concat : List Regex → Regex
  | [] => .empty
  | r :: rs => .seq r (concat rs)

def plus (r : Regex) : Regex := .seq r (.star r)

def opt (r : Regex) : Regex := .alt r .empty

def oneOf (cs : List Char) : Regex := .char (· ∈ cs)

/-- `.` does not match the end of a line. -/
def dot : Regex := .char fun x => x ≠ '\n' ∧ x ≠ '\r'

/-- The whitespace of the C locale. -/
def isSpace (x : Char) : Bool :=
  x ∈ [' ', '\t', '\n', '\r', Char.ofNat 11, Char.ofNat 12]

def space : Regex := .char isSpace

def nonSpace : Regex := .char fun x => !isSpace x

def digit : Regex := .char Char.isDigit

def nonDigit : Regex := .char fun x => !x.isDigit

end Regex
