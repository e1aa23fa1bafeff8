import TaskSuite.RewriteHeader

/-! The stages of a comment: what `process` looks for in a line of it depends on
the lines in front of that one. -/
namespace RewriteHeader
open Regex

def isModuleText (text : Line) : Bool := (regexMatch moduleRegexp text).isSome

def isFileOrCopyrightText (text : Line) : Bool :=
  (regexMatch fileRegexp text).isSome || (regexSearch copyrightRegexp text).isSome

def isPartOfText (text : Line) : Bool := (regexSearch partOfRegexp text).isSome

def isLicenseStart (text : Line) : Bool := (regexSearch licenseStartRegexp text).isSome

def isLicenseEnd (text : Line) : Bool := (regexSearch licenseEndRegexp text).isSome

def isBriefText (text : Line) : Bool := (regexMatch briefRegexp text).isSome

def isFileText (text : Line) : Bool := (regexMatch fileRegexp text).isSome

def isCopyrightText (text : Line) : Bool := (regexSearch copyrightRegexp text).isSome

/-- Where a text stands in a comment without an `@file` or copyright line: in
front of the license, in it, behind it, or behind the first text that follows it. -/
inductive Place where
  | before
  | license
  | after
  | trailing
  deriving DecidableEq, Repr

/-- Is a text at this place looked at for a module, `@file` or copyright line? -/
def Place.searches : Place → Bool
  | .before | .after => true
  | .license | .trailing => false

def Place.next : Place → Line → Place
  | .before, text =>
      if isModuleText text || isPartOfText text || !isLicenseStart text then .before
      else if isLicenseEnd text then .after
      else .license
  | .license, text => if isLicenseEnd text then .after else .license
  | .after, text => if isModuleText text || text.isEmpty then .after else .trailing
  | .trailing, _ => .trailing

def Place.state : Place → State
  | .before | .after => .searching
  | .license => .license
  | .trailing => .trailing

/-- Where a text stands in a comment, and whether the one in front of it was an
`@file` line. -/
structure Stage where
  place : Place
  afterFile : Bool

namespace Stage

/-- A module, `@file` or `@brief` line is not looked at for a copyright. -/
def overlooks (stage : Stage) (text : Line) : Bool :=
  !stage.place.searches || (stage.afterFile && isBriefText text) || isModuleText text ||
    isFileText text

def next (stage : Stage) (text : Line) : Stage :=
  if !stage.place.searches then ⟨stage.place.next text, false⟩
  else if stage.afterFile && isBriefText text then ⟨stage.place, false⟩
  else if isModuleText text then ⟨stage.place, false⟩
  else if isFileText text then ⟨stage.place, true⟩
  else if isCopyrightText text then ⟨stage.place, false⟩
  else ⟨stage.place.next text, false⟩

end Stage

structure Scan.Stands (s : Scan) (stage : Stage) : Prop where
  firstLine : s.firstLine = true
  state : s.state = if stage.afterFile then .file else stage.place.state
  searches : stage.afterFile = true → stage.place.searches = true
  license : stage.place.searches = true → s.sawLicense = decide (stage.place = .after)

def State.behind (text : Line) : State → State
  | .file => .file
  | .license => if isLicenseEnd text then .searching else .license
  | .trailing => .trailing
  | _ => .searching

/-- What the loop keeps besides the header, behind a line that was handled as `kind`. -/
structure Scan.Behind (s s' : Scan) (kind : State) (text : Line) : Prop where
  firstLine : s'.firstLine = s.firstLine
  state : s'.state = kind.behind text
  sawFile : s'.sawFileOrBriefOrCopyright =
    (s.sawFileOrBriefOrCopyright || decide (kind ∈ [State.file, .brief, .copyright]))
  sawCopyright : s'.sawCopyright = (s.sawCopyright || decide (kind = .copyright))
  sawLicense : s'.sawLicense = (s.sawLicense || decide (kind = .license))
  sawModule : s'.sawModule = (s.sawModule || decide (kind = .moduleLine))

theorem Scan.readText_behind (s : Scan) (text : Line) :
    s.Behind (s.readText text) (s.classify text).1 text := by
  rw [Scan.readText]
  generalize s.classify text = p
  obtain ⟨state, sm⟩ := p
  have hor : ∀ b : Bool, b = (b || false) := fun b => (Bool.or_false b).symm
  have htrue : ∀ b : Bool, true = (b || true) := fun b => (Bool.or_true b).symm
  cases state with
  | searching => exact ⟨rfl, rfl, hor _, hor _, hor _, hor _⟩
  | moduleLine => exact ⟨rfl, rfl, hor _, hor _, hor _, htrue _⟩
  | file => exact ⟨rfl, rfl, htrue _, hor _, hor _, hor _⟩
  | brief => exact ⟨rfl, rfl, htrue _, hor _, hor _, hor _⟩
  | copyright => exact ⟨rfl, rfl, htrue _, htrue _, hor _, hor _⟩
  | signature => exact ⟨rfl, rfl, hor _, hor _, hor _, hor _⟩
  | partOf => exact ⟨rfl, rfl, hor _, hor _, hor _, hor _⟩
  | license => exact ⟨rfl, rfl, hor _, hor _, htrue _, hor _⟩
  | trailing =>
      rw [Scan.handle]
      split_ifs <;> exact ⟨rfl, rfl, hor _, hor _, hor _, hor _⟩

section Step
variable {s : Scan} {stage : Stage} {place : Place} {text : Line}

theorem regexMatch_eq_none (h : isModuleText text = false) : regexMatch moduleRegexp text = none :=
  Option.not_isSome_iff_eq_none.mp (by simpa [isModuleText] using h)

theorem Place.next_of_module (hsearch : place.searches = true) (hmodule : isModuleText text = true) :
    place.next text = place := by
  cases place with
  | before | after => simp [Place.next, hmodule]
  | license | trailing => cases hsearch

theorem isFileOrCopyrightText_eq (text : Line) :
    isFileOrCopyrightText text = (isFileText text || isCopyrightText text) := rfl

/-- Without `@file` and copyright lines the stage is the place. -/
theorem Stage.next_eq (h : place.searches = true →
      isModuleText text = false → isFileOrCopyrightText text = false) :
    Stage.next ⟨place, false⟩ text = ⟨place.next text, false⟩ := by
  cases hsearch : place.searches with
  | false => simp [Stage.next, hsearch]
  | true =>
      cases hmodule : isModuleText text with
      | true => simp [Stage.next, hsearch, hmodule, Place.next_of_module hsearch hmodule]
      | false =>
          have hother := h hsearch hmodule
          rw [isFileOrCopyrightText_eq, Bool.or_eq_false_iff] at hother
          simp [Stage.next, hsearch, hmodule, hother]

namespace Scan.Stands

theorem classify_skipped (text : Line) (h : s.Stands stage) (hsearch : stage.place.searches = false) :
    (s.classify text).1 = stage.place.state := by
  have hfile : stage.afterFile = false := by
    by_contra hfile
    rw [h.searches (Bool.eq_true_of_not_eq_false hfile)] at hsearch
    cases hsearch
  have hstate := h.state
  rw [hfile] at hstate
  cases hplace : stage.place with
  | before | after => simp [hplace, Place.searches] at hsearch
  | license =>
      rw [hplace] at hstate
      rw [Scan.classify, hstate]
      rfl
  | trailing =>
      rw [hplace] at hstate
      rw [Scan.classify, hstate]
      rfl

theorem state_searching (h : s.Stands stage) (hsearch : stage.place.searches = true) :
    s.state = if stage.afterFile then .file else .searching := by
  rw [h.state]
  cases hplace : stage.place with
  | before | after => rfl
  | license | trailing => simp [hplace, Place.searches] at hsearch

theorem classify_brief (h : s.Stands stage) (hbrief : (stage.afterFile && isBriefText text) = true) :
    (s.classify text).1 = .brief := by
  obtain ⟨hfile, hbrief⟩ := Bool.and_eq_true_iff.mp hbrief
  obtain ⟨sm, hsm⟩ := Option.isSome_iff_exists.mp hbrief
  have hstate := h.state_searching (h.searches hfile)
  rw [if_pos hfile] at hstate
  simp only [Scan.classify, hstate, hsm]

theorem classify_search (h : s.Stands stage) (hsearch : stage.place.searches = true)
    (hbrief : (stage.afterFile && isBriefText text) = false) : s.classify text = s.search text := by
  have hstate := h.state_searching hsearch
  cases hfile : stage.afterFile with
  | false =>
      rw [hfile, if_neg Bool.false_ne_true] at hstate
      rw [Scan.classify, hstate]
  | true =>
      rw [hfile, Bool.true_and] at hbrief
      have hnone : regexMatch briefRegexp text = none :=
        Option.not_isSome_iff_eq_none.mp (Bool.eq_false_iff.mp hbrief)
      rw [hfile, if_pos rfl] at hstate
      simp only [Scan.classify, hstate, hnone]

theorem search_module (h : s.Stands stage) (hmodule : isModuleText text = true) :
    (s.search text).1 = .moduleLine := by
  obtain ⟨sm, hsm⟩ := Option.isSome_iff_exists.mp hmodule
  simp only [Scan.search, h.firstLine, if_true, hsm]

theorem search_file (h : s.Stands stage) (hmodule : isModuleText text = false)
    (hfile : isFileText text = true) : (s.search text).1 = .file := by
  obtain ⟨sm, hsm⟩ := Option.isSome_iff_exists.mp hfile
  simp only [Scan.search, h.firstLine, if_true, regexMatch_eq_none hmodule, hsm]

theorem search_copyright (h : s.Stands stage) (hmodule : isModuleText text = false)
    (hfile : isFileText text = false) (hcopyright : isCopyrightText text = true) :
    (s.search text).1 = .copyright := by
  obtain ⟨sm, hsm⟩ := Option.isSome_iff_exists.mp hcopyright
  have hfile : regexMatch fileRegexp text = none :=
    Option.not_isSome_iff_eq_none.mp (Bool.eq_false_iff.mp hfile)
  simp only [Scan.search, h.firstLine, if_true, regexMatch_eq_none hmodule, hfile, hsm]

theorem search_other (h : s.Stands stage) (hsearch : stage.place.searches = true)
    (hmodule : isModuleText text = false) (hfile : isFileText text = false)
    (hcopyright : isCopyrightText text = false) :
    (s.search text).1 ∈ [State.searching, .signature, .partOf, .license, .trailing] ∧
      (s.search text).1.behind text = (stage.place.next text).state ∧
      ((stage.place.next text).searches = true →
        (s.sawLicense || decide ((s.search text).1 = .license)) =
          decide (stage.place.next text = .after)) := by
  have hfile : regexMatch fileRegexp text = none :=
    Option.not_isSome_iff_eq_none.mp (Bool.eq_false_iff.mp hfile)
  have hcopyright : regexSearch copyrightRegexp text = none :=
    Option.not_isSome_iff_eq_none.mp (Bool.eq_false_iff.mp hcopyright)
  have hlicense := h.license hsearch
  simp only [Scan.search, h.firstLine, if_true, regexMatch_eq_none hmodule, hfile, hcopyright, hlicense]
  cases hplace : stage.place with
  | license | trailing => simp [hplace, Place.searches] at hsearch
  | before =>
      simp only [reduceCtorEq, decide_false, Bool.false_eq_true, if_false]
      cases hpart : regexSearch partOfRegexp text with
      | some sm => simp [Place.next, isPartOfText, hpart, State.behind, Place.state]
      | none =>
          cases hstart : regexSearch licenseStartRegexp text with
          | some sm =>
              cases hend : isLicenseEnd text with
              | true =>
                  simp [Place.next, hmodule, isPartOfText, hpart, isLicenseStart, hstart, hend,
                    State.behind, Place.state]
              | false =>
                  simp [Place.next, hmodule, isPartOfText, hpart, isLicenseStart, hstart, hend,
                    State.behind, Place.state, Place.searches]
          | none =>
              simp only [Place.next, hmodule, isPartOfText, hpart, isLicenseStart, hstart]
              split_ifs <;> simp_all [State.behind, Place.state]
  | after =>
      simp only [decide_true, if_true]
      cases hempty : text.isEmpty with
      | true => simp [Place.next, hmodule, hempty, State.behind, Place.state]
      | false => simp [Place.next, hmodule, hempty, State.behind, Place.state, Place.searches]

theorem stay (h : s.Stands stage) (hsearch : stage.place.searches = true) {state : State}
    {afterFile : Bool} (hclass : (s.classify text).1 = state)
    (hstate : state.behind text = if afterFile then .file else .searching)
    (hlicense : state ≠ .license) : (s.readText text).Stands ⟨stage.place, afterFile⟩ := by
  have hbehind := s.readText_behind text
  rw [hclass] at hbehind
  refine ⟨hbehind.firstLine.trans h.firstLine, ?_, fun _ => hsearch, fun _ => ?_⟩
  · rw [hbehind.state, hstate]
    cases hplace : stage.place with
    | before | after => rfl
    | license | trailing => simp [hplace, Place.searches] at hsearch
  · rw [hbehind.sawLicense, decide_eq_false hlicense, Bool.or_false]
    exact h.license hsearch

theorem next_skipped (text : Line) (h : s.Stands stage) (hsearch : stage.place.searches = false) :
    (s.readText text).Stands ⟨stage.place.next text, false⟩ ∧
      (s.classify text).1 ∈ [State.license, .trailing] := by
  have hbehind := s.readText_behind text
  have hclass := h.classify_skipped text hsearch
  rw [hclass] at hbehind ⊢
  cases hplace : stage.place with
  | before | after => simp [hplace, Place.searches] at hsearch
  | trailing =>
      rw [hplace] at hbehind
      exact ⟨⟨hbehind.firstLine.trans h.firstLine, hbehind.state, nofun, nofun⟩, by decide⟩
  | license =>
      rw [hplace] at hbehind
      refine ⟨⟨hbehind.firstLine.trans h.firstLine, ?_, nofun, fun hnext => ?_⟩, by decide⟩
      · rw [hbehind.state]
        cases hend : isLicenseEnd text <;> simp [Place.state, State.behind, Place.next, hend]
      · rw [hbehind.sawLicense]
        cases hend : isLicenseEnd text <;> simp_all [Place.state, Place.next, Place.searches]

theorem next_other (h : s.Stands stage) (hsearch : stage.place.searches = true)
    (hbrief : (stage.afterFile && isBriefText text) = false) (hmodule : isModuleText text = false)
    (hfile : isFileText text = false) (hcopyright : isCopyrightText text = false) :
    (s.readText text).Stands ⟨stage.place.next text, false⟩ ∧
      (s.classify text).1 ∈ [State.searching, .signature, .partOf, .license, .trailing] := by
  have hbehind := s.readText_behind text
  obtain ⟨hmem, hstate, hlicense⟩ := h.search_other hsearch hmodule hfile hcopyright
  rw [h.classify_search hsearch hbrief] at hbehind ⊢
  exact ⟨⟨hbehind.firstLine.trans h.firstLine, hbehind.state.trans hstate, nofun,
    fun hs => hbehind.sawLicense.trans (hlicense hs)⟩, hmem⟩

/-- Every line leads to the next stage. -/
theorem next (h : s.Stands stage) (text : Line) : (s.readText text).Stands (stage.next text) ∧
    ((s.classify text).1 = .copyright ↔ (!stage.overlooks text && isCopyrightText text) = true) := by
  rw [Stage.next, Stage.overlooks]
  cases hsearch : stage.place.searches with
  | false =>
      obtain ⟨hnext, hclass⟩ := h.next_skipped text hsearch
      have hne : (s.classify text).1 ≠ .copyright := ne_of_mem_of_not_mem hclass (by decide)
      simpa [hne] using hnext
  | true =>
  cases hbrief : stage.afterFile && isBriefText text with
  | true =>
      have hclass := h.classify_brief hbrief
      have hstay : (s.readText text).Stands ⟨stage.place, false⟩ :=
        h.stay hsearch hclass rfl (by decide)
      simpa [hclass] using hstay
  | false =>
  have hclass := h.classify_search hsearch hbrief
  cases hmodule : isModuleText text with
  | true =>
      have hclass := (congrArg Prod.fst hclass).trans (h.search_module hmodule)
      have hstay : (s.readText text).Stands ⟨stage.place, false⟩ :=
        h.stay hsearch hclass rfl (by decide)
      simpa [hclass] using hstay
  | false =>
  cases hfile : isFileText text with
  | true =>
      have hclass := (congrArg Prod.fst hclass).trans (h.search_file hmodule hfile)
      have hstay : (s.readText text).Stands ⟨stage.place, true⟩ :=
        h.stay hsearch hclass rfl (by decide)
      simpa [hclass] using hstay
  | false =>
  cases hcopyright : isCopyrightText text with
  | true =>
      have hclass := (congrArg Prod.fst hclass).trans (h.search_copyright hmodule hfile hcopyright)
      have hstay : (s.readText text).Stands ⟨stage.place, false⟩ :=
        h.stay hsearch hclass rfl (by decide)
      simpa [hclass] using hstay
  | false =>
      obtain ⟨hnext, hclass⟩ := h.next_other hsearch hbrief hmodule hfile hcopyright
      have hne : (s.classify text).1 ≠ .copyright := ne_of_mem_of_not_mem hclass (by decide)
      simpa [hne] using hnext

end Scan.Stands

end Step

end RewriteHeader
