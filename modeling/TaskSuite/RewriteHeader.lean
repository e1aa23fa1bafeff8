import TaskSuite.Regex
import Mathlib.Data.List.DropRight
import Mathlib.Data.List.Destutter
import Mathlib.Data.List.Sort

/-! The text processing of `rewrite_header.cxx`: the leading comment of a file
is taken apart line by line and printed again in a fixed form. A `std::string`
is a list of characters here, and the lines that are still to come stand for the
index `il` into `input_lines`. -/
namespace RewriteHeader
open Regex

abbrev Line := List Char

/-- `options::module_name` and `options::module_desc`. -/
structure Options where
  moduleName : Line
  moduleDesc : Line

def trimRight (s : Line) : Line := s.rdropWhile isSpace

def trimLeft (s : Line) : Line := s.dropWhile isSpace

/-- The lines that `std::getline` reads from a stream, one after the other. -/
def getlines : List Char → List Line
  | [] => []
  | x :: xs =>
      if x = '\n' then [] :: getlines xs
      else
        match getlines xs with
        | [] => [[x]]
        | l :: ls => (x :: l) :: ls

/-! ### The header -/

structure Header where
  moduleName : Line
  moduleDesc : Line
  oldModuleName : Line
  brief : Line
  copyrightYears : List Nat
  author : Line
  signature : List Line
  license : List Line
  trailing : List Line

namespace Header

/-- The constructor of `Header`. -/
def new (options : Options) : Header :=
  ⟨options.moduleName, options.moduleDesc, [], [], [], [], [], [], []⟩

def setModule (h : Header) (name desc : Line) : Header :=
  if h.moduleName.isEmpty then { h with moduleName := name, moduleDesc := desc } else h

def setBrief (h : Header) (desc : Line) : Header := { h with brief := desc }

def addSignatureLine (h : Header) (line : Line) : Header :=
  { h with signature := h.signature ++ [line] }

def setPartOf (h : Header) (moduleName : Line) : Header :=
  if h.moduleName.isEmpty then { h with moduleName := moduleName }
  else if h.moduleName ≠ moduleName then { h with oldModuleName := moduleName }
  else h

def addLicenseLine (h : Header) (line : Line) : Header := { h with license := h.license ++ [line] }

def addTrailingLine (h : Header) (line : Line) : Header :=
  { h with trailing := h.trailing ++ [line] }

/-- `(?:19|20)[\d][\d]` -/
def year : Regex :=
  concat [.alt (literal "19".toList) (literal "20".toList), digit, digit]

/-- `.*[Cc]opyright\s+[^\d]*((?:(?:19|20)[\d][\d](?:\s*[,-]\s*|\s+))*)(.*)` -/
def copyrightLineRegexp : Regex :=
  concat [.star dot, oneOf ['C', 'c'], literal "opyright".toList, plus space, .star nonDigit,
    .group 1 (.star (.seq year (.alt (concat [.star space, oneOf [',', '-'], .star space])
      (plus space)))),
    .group 2 (.star dot)]

/-- `((?:19|20)[\d][\d])(?:\s*-\s*((?:19|20)[\d][\d]))?` -/
def yearRegexp : Regex :=
  .seq (.group 1 year)
    (opt (concat [.star space, .char (· = '-'), .star space, .group 2 year]))

def stoi (s : Line) : Nat := Nat.ofDigitChars 10 s 0

/-- The years of one match of `yearRegexp`. -/
def yearRange (f : Found) : List Nat :=
  let rangeBegin := stoi (f.captures 1)
  let rangeEnd := if (f.captures 2).isEmpty then rangeBegin else stoi (f.captures 2)
  List.range' rangeBegin (rangeEnd + 1 - rangeBegin)

def decodeCopyrightLine (h : Header) (line : Line) : Header :=
  match regexMatch copyrightLineRegexp line with
  | none => h
  | some sm =>
      { h with
        copyrightYears := h.copyrightYears ++ (regexIterator yearRegexp (sm 1)).flatMap yearRange
        author := (sm 2).rdropWhile fun x => x = ' ' ∨ x = '.' }

def defaultSignature : List Line :=
  ["RSA-1024 0x624ACAD5 1997-01-26                    Sign & Encrypt".toList,
   "Fingerprint16 = 32 EC A7 B6 AC DB 65 A6  F6 F6 55 DD 1C DC FF 61".toList]

def defaultLicense : List Line :=
  ["This program is free software: you can redistribute it and/or modify".toList,
   "it under the terms of the GNU Affero General Public License as published".toList,
   "by the Free Software Foundation, either version 3 of the License, or".toList,
   "(at your option) any later version.".toList,
   "".toList,
   "This program is distributed in the hope that it will be useful,".toList,
   "but WITHOUT ANY WARRANTY; without even the implied warranty of".toList,
   "MERCHANTABILITY or FITNESS FOR A PARTICULAR PURPOSE.  See the".toList,
   "GNU Affero General Public License for more details.".toList,
   "".toList,
   "You should have received a copy of the GNU Affero General Public License".toList,
   "along with this program.  If not, see <http://www.gnu.org/licenses/>.".toList]

def capitalize : Line → Line
  | [] => []
  | x :: xs => x.toUpper :: xs

/-- The substitutions that `canonicalize` makes in a line of the license. -/
def rename (h : Header) (line : Line) : Line :=
  let line := regexReplace (literal "This program".toList) 0 line (capitalize h.moduleName)
  let line := regexReplace (literal "this program".toList) 0 line h.moduleName
  match h.oldModuleName with
  | [] => line
  | x :: xs =>
      let line := regexReplace (concat [.bol, oneOf [x.toUpper, x.toLower], literal xs]) 0 line
        (capitalize h.moduleName)
      regexReplace (literal (x :: xs)) 0 line h.moduleName

/-- `currentYear` is what `add_current_year` adds. -/
def canonicalize (h : Header) (currentYear : Nat) : Header :=
  let license := if h.license.isEmpty then defaultLicense else h.license
  { h with
    moduleDesc := if h.moduleDesc.isEmpty then "FIXME".toList else h.moduleDesc
    brief := if h.brief.isEmpty then "FIXME".toList else h.brief
    copyrightYears :=
      if h.copyrightYears.isEmpty then [currentYear]
      else (h.copyrightYears.insertionSort (· ≤ ·)).destutter (· ≠ ·)
    author := if h.author.isEmpty then "Carlo Wood".toList else h.author
    signature := if h.signature.isEmpty then defaultSignature else h.signature
    license := if h.moduleName.isEmpty then license else license.map h.rename }

def doxygenStart : Line := "/**".toList

def doxygenLead : Line := " * ".toList

def doxygenEnd : Line := " */".toList

/-- `print_line_to`. -/
def printLine (line : Line) : List Char :=
  (if line.isEmpty then trimRight doxygenLead else doxygenLead ++ line) ++ ['\n']

/-- The loop of `print_on` over the years. -/
def printYears (finalYear : Nat) : Line → Nat → Nat → List Nat → List Char
  | _, _, _, [] => []
  | separator, firstYear, lastYear, year :: years =>
      if year = lastYear + 1 ∧ year ≠ finalYear then
        printYears finalYear separator firstYear year years
      else
        let lastYear := if year = lastYear + 1 then year else lastYear
        if firstYear ≠ 0 ∨ year = finalYear then
          let firstYear := if firstYear = 0 then year else firstYear
          separator ++ Nat.toDigits 10 firstYear ++
            (if lastYear > firstYear then
              (if lastYear > firstYear + 1 then " - ".toList else ", ".toList) ++
                Nat.toDigits 10 lastYear
            else []) ++
            (if year = finalYear ∧ year > max firstYear lastYear then
              ", ".toList ++ Nat.toDigits 10 year
            else []) ++
            printYears finalYear ", ".toList year year years
        else printYears finalYear separator year year years

def copyrightText (h : Header) : Line :=
  printYears (h.copyrightYears.getLastD 0) "@Copyright (C) ".toList 0 0 h.copyrightYears ++
    "  ".toList ++ h.author ++ ".".toList

/-- What `print_on` writes, statement by statement. -/
def pieces (h : Header) : List (List Char) :=
  [doxygenStart ++ ['\n'],
   if h.moduleName.isEmpty then []
    else doxygenLead ++ (h.moduleName ++ (" -- ".toList ++ (h.moduleDesc ++ ['\n']))),
   if h.moduleName.isEmpty then [] else printLine [],
   doxygenLead ++ "@file\n".toList,
   doxygenLead ++ ("@brief ".toList ++ (h.brief ++ ['\n'])),
   printLine [],
   doxygenLead ++ (h.copyrightText ++ ['\n']),
   printLine [],
   h.signature.flatMap printLine,
   if h.moduleName.isEmpty then [] else printLine [],
   if h.moduleName.isEmpty then []
    else doxygenLead ++ ("This file is part of ".toList ++ (h.moduleName ++ ".\n".toList)),
   printLine [],
   h.license.flatMap printLine,
   if h.trailing.isEmpty then [] else printLine [],
   h.trailing.flatMap printLine,
   doxygenEnd ++ ['\n']]

def print (h : Header) : List Char := h.pieces.flatten

end Header

/-! ### The comment loop -/

def isCCommentStart (leftTrimmedLine : Line) : Bool := ['/', '*'].isPrefixOf leftTrimmedLine

def isCCommentEnd (rightTrimmedLine : Line) : Bool := ['*', '/'].isSuffixOf rightTrimmedLine

def isCppComment (leftTrimmedLine : Line) : Bool := ['/', '/'].isPrefixOf leftTrimmedLine

/-- The text of the first group, if the regex with `(.*)` appended matches. -/
def extract (leadRegExpr : Regex) (line : Line) : Line :=
  match regexMatch (.seq leadRegExpr (.group 2 (.star dot))) line with
  | some sm => trimRight (sm 1)
  | none => []

/-- `[-+*/!=#%^]* ?(.*)` -/
def leadRest : List Regex :=
  [.star (oneOf "-+*/!=#%^".toList), opt (.char (· = ' ')), .group 1 (.star dot)]

/-- The lead of the first line; behind `^\s*/` the source appends a `*` that is
not escaped, or a second `/`. -/
def firstLead (isCComment : Bool) : Regex :=
  if isCComment then concat (.bol :: .star space :: .star (.char (· = '/')) :: leadRest)
  else concat (.bol :: .star space :: .char (· = '/') :: .char (· = '/') :: leadRest)

/-- `^\s*\*+ ?(.*)` -/
def nextLead : Regex :=
  concat [.bol, .star space, plus (.char (· = '*')), opt (.char (· = ' ')), .group 1 (.star dot)]

/-- `^[\s]*(.*[^\s])[\s]*\*/` -/
def closingLead : Regex :=
  concat [.bol, .star space, .group 1 (.seq (.star dot) nonSpace), .star space,
    literal "*/".toList]

/-- `(\S+)\s+--\s+(.*)` -/
def moduleRegexp : Regex :=
  concat [.group 1 (plus nonSpace), plus space, literal "--".toList, plus space,
    .group 2 (.star dot)]

/-- `[@\\]file(?:\s+|$)(.*)` -/
def fileRegexp : Regex :=
  concat [oneOf ['@', '\\'], literal "file".toList, .alt (plus space) .eol, .group 1 (.star dot)]

/-- `[@\\]brief\s+(.*)` -/
def briefRegexp : Regex :=
  concat [oneOf ['@', '\\'], literal "brief".toList, plus space, .group 1 (.star dot)]

/-- `[Cc]opyright .*Carlo Wood` -/
def copyrightRegexp : Regex :=
  concat [oneOf ['C', 'c'], literal "opyright ".toList, .star dot, literal "Carlo Wood".toList]

def isPartOfChar (x : Char) : Bool := x.isAlpha || x.isDigit || x == '_' || x == '-'

/-- `This file is part of\s+([A-Za-z0-9_-]*)` -/
def partOfRegexp : Regex :=
  concat [literal "This file is part of".toList, plus space, .group 1 (.star (.char isPartOfChar))]

def licenseStartRegexp : Regex := literal "free software".toList

def licenseEndRegexp : Regex := literal "www.gnu.org".toList

inductive State where
  | searching
  | moduleLine
  | file
  | brief
  | copyright
  | signature
  | partOf
  | license
  | trailing
  deriving DecidableEq, Repr

/-- What the loop over the lines of one comment keeps. -/
structure Scan where
  state : State
  header : Header
  firstLine : Bool
  sawFileOrBriefOrCopyright : Bool
  sawCopyright : Bool
  sawLicense : Bool
  sawModule : Bool
  trailingEmptyLine : Bool

def Scan.start (state : State) (header : Header) : Scan :=
  ⟨state, header, true, false, false, false, false, false⟩

/-- The state that the text of a line leads to from `searching`, and `sm`. -/
def Scan.search (s : Scan) (text : Line) : State × Captures :=
  match (if s.firstLine then regexMatch moduleRegexp text else none) with
  | some sm => (.moduleLine, sm)
  | none =>
  match regexMatch fileRegexp text with
  | some sm => (.file, sm)
  | none =>
  match regexSearch copyrightRegexp text with
  | some sm => (.copyright, sm)
  | none =>
  match (if s.sawLicense then none else regexSearch partOfRegexp text) with
  | some sm => (.partOf, sm)
  | none =>
  match (if s.sawLicense then none else regexSearch licenseStartRegexp text) with
  | some sm => (.license, sm)
  | none =>
    if s.sawCopyright && !s.sawLicense && !text.isEmpty then (.signature, fun _ => [])
    else if s.sawLicense && !text.isEmpty then (.trailing, fun _ => [])
    else (.searching, fun _ => [])

/-- The state in which the switch handles a line. Only a line directly behind
`@file` can be the `@brief` line. -/
def Scan.classify (s : Scan) (text : Line) : State × Captures :=
  match s.state with
  | .file =>
      match regexMatch briefRegexp text with
      | some sm => (.brief, sm)
      | none => s.search text
  | .searching => s.search text
  | state => (state, fun _ => [])

/-- The switch. All its cases end in a `break`, so `first_line = false` behind
the last one is never reached. -/
def Scan.handle (s : Scan) (text : Line) : State × Captures → Scan
  | (.searching, _) => { s with state := .searching }
  | (.moduleLine, sm) =>
      { s with header := s.header.setModule (sm 1) (sm 2), state := .searching, sawModule := true }
  | (.file, _) => { s with state := .file, sawFileOrBriefOrCopyright := true }
  | (.brief, sm) =>
      { s with
        header := s.header.setBrief (sm 1), state := .searching, sawFileOrBriefOrCopyright := true }
  | (.copyright, _) =>
      { s with
        header := s.header.decodeCopyrightLine text, state := .searching
        sawFileOrBriefOrCopyright := true, sawCopyright := true }
  | (.signature, _) => { s with header := s.header.addSignatureLine text, state := .searching }
  | (.partOf, sm) => { s with header := s.header.setPartOf (sm 1), state := .searching }
  | (.license, _) =>
      { s with
        header := s.header.addLicenseLine text, sawLicense := true
        state := if (regexSearch licenseEndRegexp text).isSome then .searching else .license }
  | (.trailing, _) =>
      if text.isEmpty then { s with state := .trailing, trailingEmptyLine := true }
      else
        { s with
          header := (if s.trailingEmptyLine then s.header.addTrailingLine [] else
            s.header).addTrailingLine text
          state := .trailing, trailingEmptyLine := false }

/-- Is this the line that closes a C comment? -/
def isLastLine (isCComment : Bool) (line : Line) : Bool :=
  isCComment && isCCommentEnd (trimRight line)

/-- The text of a line of the comment. -/
def lineText (isCComment : Bool) (leadRegExpr : Regex) (line : Line) : Line :=
  let text := extract leadRegExpr line
  trimRight (if isLastLine isCComment line then extract closingLead text else text)

def Scan.readText (s : Scan) (text : Line) : Scan := s.handle text (s.classify text)

/-- The loop over the lines of one comment, with what it leaves to be read; none
if it reads `input_lines` past the end. -/
def scanComment (isCComment : Bool) : Regex → List Line → Scan → Option (List Line × Scan)
  | _, [], _ => none
  | leadRegExpr, line :: lines, s =>
      if isCComment || isCppComment (trimLeft line) then
        let s' := s.readText (lineText isCComment leadRegExpr line)
        if isLastLine isCComment line then some (lines, s')
        else scanComment isCComment (if isCComment then nextLead else leadRegExpr) lines s'
      else some (line :: lines, s)

def skipEmptyLines (lines : List Line) : List Line := lines.dropWhile List.isEmpty

/-- The outer loop. It starts again behind a comment that only has a module
line; the state and the header stay as they are. -/
def scanComments : Nat → List Line → State → Header → Option (List Line × Header)
  | 0, _, _, _ => none
  | n + 1, lines, state, header =>
      match skipEmptyLines lines with
      | [] => none
      | line :: rest =>
          let isCComment := isCCommentStart (trimLeft line)
          match scanComment isCComment (firstLead isCComment) (line :: rest)
              (Scan.start state header) with
          | none => none
          | some (left, s) =>
              if !s.sawFileOrBriefOrCopyright && s.sawModule then
                scanComments n left s.state s.header
              else some (left, s.header)

/-- The header as it is found in the comments, and the lines behind them. Each
round of the outer loop that is followed by another one reads a line. -/
def collect (options : Options) (lines : List Line) : Option (List Line × Header) :=
  scanComments (lines.length + 1) lines .searching (Header.new options)

/-- The lines of the new header, with the empty line that ends it. -/
def headerLines (header : Header) : List Line := getlines (header.print ++ ['\n'])

/-- `process`: the new lines, and whether they differ from the old ones. -/
def process (options : Options) (currentYear : Nat) (lines : List Line) :
    Option (List Line × Bool) :=
  (collect options lines).map fun (left, header) =>
    let lines' := headerLines (header.canonicalize currentYear) ++ skipEmptyLines left
    (lines', lines ≠ lines')

end RewriteHeader
