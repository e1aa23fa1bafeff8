import TaskSuite.RewriteHeaderReread

/-! Running `process` on its own output. The header that was printed is read
again section by section, and then printed again. -/
namespace RewriteHeader
open Regex

/-! ### The condition -/

def descOf (options : Options) (reading : Reading) : Line :=
  let desc := (moduleOf options reading).2
  if desc.isEmpty then "FIXME".toList else desc

def briefOf (reading : Reading) : Line :=
  let brief := ((textsOf .brief reading).map briefIn).getLastD []
  if brief.isEmpty then "FIXME".toList else brief

def authorOf (reading : Reading) : Line :=
  let author := ((textsOf .copyright reading).map authorIn).getLastD []
  if author.isEmpty then "Carlo Wood".toList else author

def listedYears (currentYear : Nat) (reading : Reading) : List Nat :=
  let years := (textsOf .copyright reading).flatMap yearsIn
  if years.isEmpty then [currentYear] else years

/-- What is read of the line of the module, behind the first line of the comment. -/
def moduleReading (name desc : Line) : Reading :=
  if name = [] then [] else Stage.read ⟨.before, false⟩ false (readBack (moduleText name desc))

/-- What is read of the line with the name, behind the signature. -/
def partOfReading (name : Line) : Reading :=
  if name = [] then [] else Stage.read ⟨.before, false⟩ true (readBack (partOfText name))

/-- What is read of the two lines with the name of the module says the same about the
module as the comments in the file, and nothing else about the rest of the header. -/
structure NamesKept (options : Options) (currentYear : Nat) (reading front behind : Reading) :
    Prop where
  quiet : ∀ p ∈ front ++ behind, p.1 ∉ [State.signature, .license, .trailing]
  name : (moduleOf options (front ++ behind)).1 = (moduleOf options reading).1
  desc : (moduleOf options reading).1 ≠ [] → descOf options (front ++ behind) = descOf options reading
  brief : ((textsOf .brief behind).map briefIn).getLastD (briefOf reading) = briefOf reading
  author : ((textsOf .copyright behind).map authorIn).getLastD (authorOf reading) = authorOf reading
  years : ∀ text ∈ textsOf .copyright (front ++ behind), ∀ y ∈ yearsIn text,
    y ∈ listedYears currentYear reading

/-- The first text starts the license, and the last one and no other ends it. -/
structure IsLicense (texts : List Line) : Prop where
  starts : ∀ text ∈ texts.head?, Stage.kind ⟨.before, false⟩ true text = .license
  continues : ∀ text ∈ texts.dropLast, isLicenseEnd text = false
  ends : ∃ text ∈ texts.getLast?, isLicenseEnd text = true

/-- The lines of the license with the trailing ones behind them: they are read as a
license and trailing lines, and these are printed in the same way. -/
structure LicenseKept (name old : Line) (license trailing : List Line) : Prop where
  inside : ∀ line ∈ license.flatMap printed, isLastLine true line = false
  again : ∃ license' trailing', (license ++ spaced trailing).flatMap readBack = license' ++ spaced trailing' ∧
    IsLicense license' ∧ (trailing' = [] ∨ IsTrailing trailing') ∧
    (license'.map (putName name old) ++ spaced trailing').flatMap Header.printLine =
      (license ++ spaced trailing).flatMap Header.printLine

/-- What keeps the header as it is that is made of these readings: no text that is taken
over closes the comment, the copyright line is found again, and the lines with names
in them are read as they were printed. -/
structure Rereadable (options : Options) (currentYear : Nat) (readings : List Reading) : Prop where
  brief : ∀ text ∈ (textsOf .brief readings.flatten).getLast?, isCCommentEnd text = false
  lines : ∀ kind ∈ [State.signature, .trailing], ∀ text ∈ textsOf kind readings.flatten,
    isCCommentEnd text = false
  year : (textsOf .copyright readings.flatten).flatMap yearsIn = [] → IsYear currentYear
  author : "Carlo Wood".toList <:+: authorOf readings.flatten
  authorStart : (authorOf readings.flatten).head? ≠ some ',' ∧ (authorOf readings.flatten).head? ≠ some '-'
  inside : (moduleOf options readings.flatten).1 ≠ [] →
    ∀ text ∈ [moduleText (moduleOf options readings.flatten).1 (descOf options readings.flatten),
      partOfText (moduleOf options readings.flatten).1],
      ∀ line ∈ printed text, isLastLine true line = false
  names : NamesKept options currentYear readings.flatten
    (moduleReading (moduleOf options readings.flatten).1 (descOf options readings.flatten))
    (partOfReading (moduleOf options readings.flatten).1)
  license : LicenseKept (moduleOf options readings.flatten).1
    (oldNameIn (moduleOf options readings.flatten).1
      (moduleReading (moduleOf options readings.flatten).1 (descOf options readings.flatten) ++
        partOfReading (moduleOf options readings.flatten).1))
    ((licenseIn readings.flatten).map (putName (moduleOf options readings.flatten).1
      (oldNameIn (moduleOf options readings.flatten).1 readings.flatten)))
    (readings.flatMap fun reading => trailingLines (textsOf .trailing reading))

/-! ### The printed header -/

structure Printed (h : Header) : Prop where
  brief : Stripped h.brief
  briefText : h.brief ≠ []
  briefLine : OneLine h.brief
  briefEnd : isCCommentEnd h.brief = false
  years : AreYears h.copyrightYears
  author : IsAuthor h.author
  authorEnd : h.author.rdropWhile (fun x => x = ' ' ∨ x = '.') = h.author
  authorLine : OneLine h.author
  authorName : "Carlo Wood".toList <:+: h.author
  authorStart : h.author.head? ≠ some ',' ∧ h.author.head? ≠ some '-'
  signature : ∀ text ∈ h.signature, IsSignature text ∧ OneLine text ∧ isCCommentEnd text = false

section Printed
variable {options : Options} {found : Header} {currentYear : Nat} {readings : List Reading}

theorem areYears_canonicalize (hw : WellRead options found)
    (hyear : found.copyrightYears = [] → IsYear currentYear) :
    AreYears (found.canonicalize currentYear).copyrightYears := by
  simp only [Header.canonicalize]
  split_ifs with hempty
  · exact ⟨List.cons_ne_nil _ _, List.pairwise_singleton _ _,
      List.forall_mem_singleton.mpr (hyear (List.isEmpty_iff.mp hempty))⟩
  · exact areYears_sorted (fun hnil => hempty (List.isEmpty_iff.mpr hnil)) hw.years

theorem signature_canonicalize (hw : WellRead options found) :
    ∀ t ∈ (found.canonicalize currentYear).signature, IsSignature t := by
  simp only [Header.canonicalize]
  split_ifs
  · have hline : ∀ t ∈ Header.defaultSignature, t ≠ [] ∧ trimRight t = t ∧
        (regexMatch moduleRegexp t).isNone ∧ (regexMatch fileRegexp t).isNone ∧
        (regexSearch copyrightRegexp t).isNone ∧ (regexSearch partOfRegexp t).isNone ∧
        (regexSearch licenseStartRegexp t).isNone := by
      decide +kernel
    intro t ht
    obtain ⟨hne, htrim, hmodule, hfile, hcopyright, hpart, hlicense⟩ := hline t ht
    exact ⟨⟨hne, htrim, Option.isNone_iff_eq_none.mp hmodule, Option.isNone_iff_eq_none.mp hfile,
      Option.isNone_iff_eq_none.mp hcopyright⟩, Option.isNone_iff_eq_none.mp hpart,
      Option.isNone_iff_eq_none.mp hlicense⟩
  · exact hw.signature

theorem signature_canonicalize_ne_nil : (found.canonicalize currentYear).signature ≠ [] := by
  simp only [Header.canonicalize]
  split_ifs with hempty
  · exact List.cons_ne_nil _ _
  · exact fun hnil => hempty (List.isEmpty_iff.mpr hnil)

theorem stripped_canonicalize (hw : WellRead options found) :
    Stripped (found.canonicalize currentYear).brief ∧ (found.canonicalize currentYear).brief ≠ [] := by
  simp only [Header.canonicalize]
  split_ifs with hempty
  · exact ⟨⟨fun x hx => by cases hx; decide, by decide⟩, by decide⟩
  · exact ⟨hw.brief, fun hnil => hempty (List.isEmpty_iff.mpr hnil)⟩

theorem author_canonicalize (hw : WellRead options found) :
    IsAuthor (found.canonicalize currentYear).author ∧
      (found.canonicalize currentYear).author.rdropWhile (fun x => x = ' ' ∨ x = '.') =
        (found.canonicalize currentYear).author := by
  simp only [Header.canonicalize]
  split_ifs
  · refine ⟨⟨?_, ?_, fun x hx => by cases hx; decide⟩, by decide⟩
    · refine ((WellRead.isAuthor_nil.noMark.append (t := "arlo Wood".toList) (by decide)).cons
        (x := 'C') ?_)
      rintro ⟨x, y, -, -, hpre⟩
      have ho : 'o' = 'a' := (List.cons_prefix_cons.mp (List.cons_prefix_cons.mp hpre).2).1
      revert ho
      decide
    · rintro ⟨a, b, w, -, -, -, hpre | hpre⟩
      · exact absurd (List.cons_prefix_cons.mp hpre).1 (by decide)
      · exact absurd (List.cons_prefix_cons.mp hpre).1 (by decide)
  · exact ⟨hw.author, hw.authorEnd⟩

theorem oneLine_briefOf (hsuits : ∀ p ∈ readings.flatten, p.1.Suits p.2 ∧ IsText p.2) :
    OneLine (briefOf readings.flatten) := by
  refine (forall_getLastD (P := OneLine) (Q := fun _ => True) (f := briefIn) (by decide) (by decide)
    fun text htext => iff_of_true ?_ trivial).mpr fun _ _ => trivial
  have hmem := hsuits (.brief, text) (mem_textsOf.mp htext)
  obtain ⟨x, a, -, -, hsplit⟩ := briefIn_spec hmem.1
  refine hmem.2.oneLine.of_suffix ?_
  rw [hsplit, ← List.cons_append, ← List.append_assoc]
  exact List.suffix_append _ _

theorem oneLine_authorOf (hsuits : ∀ p ∈ readings.flatten, p.1.Suits p.2 ∧ IsText p.2) :
    OneLine (authorOf readings.flatten) := by
  refine (forall_getLastD (P := OneLine) (Q := fun _ => True) (f := authorIn) (by decide) (by decide)
    fun text htext => iff_of_true ?_ trivial).mpr fun _ _ => trivial
  have hmem := hsuits (.copyright, text) (mem_textsOf.mp htext)
  exact oneLine_decodeCopyrightLine hmem.2.oneLine hmem.1

theorem isCCommentEnd_briefOf (hsuits : ∀ p ∈ readings.flatten, p.1.Suits p.2 ∧ IsText p.2)
    (hend : ∀ text ∈ (textsOf .brief readings.flatten).getLast?, isCCommentEnd text = false) :
    isCCommentEnd (briefOf readings.flatten) = false := by
  refine (forall_getLastD (P := fun text => isCCommentEnd text = false) (f := briefIn) (by decide) (by decide)
    fun text htext => ?_).mpr hend
  have hmem := hsuits (.brief, text) (mem_textsOf.mp htext)
  obtain ⟨x, a, hx, ha, hsplit⟩ := briefIn_spec hmem.1
  have hstar : '*' ∉ x :: ("brief".toList ++ a) := by
    have hword : '*' ∉ "brief".toList := by decide
    rw [List.mem_cons, List.mem_append, not_or, not_or]
    refine ⟨?_, hword, star_not_mem_of_space ha⟩
    rcases hx with rfl | rfl <;> decide
  have hsame := isCCommentEnd_append (v := briefIn text) hstar
  rw [List.cons_append, List.append_assoc, ← hsplit] at hsame
  rw [hsame]

theorem signature_lines (hsuits : ∀ p ∈ readings.flatten, p.1.Suits p.2 ∧ IsText p.2)
    (hend : ∀ text ∈ textsOf .signature readings.flatten, isCCommentEnd text = false) :
    ∀ text ∈ ((headerOf options readings).canonicalize currentYear).signature,
      OneLine text ∧ isCCommentEnd text = false := by
  change ∀ text ∈ (if (textsOf .signature readings.flatten).isEmpty then Header.defaultSignature
    else textsOf .signature readings.flatten), OneLine text ∧ isCCommentEnd text = false
  split_ifs
  · decide +kernel
  · intro text htext
    exact ⟨(hsuits _ (mem_textsOf.mp htext)).2.oneLine, hend text htext⟩

theorem printed_headerOf (hw : WellRead options (headerOf options readings))
    (hsuits : ∀ p ∈ readings.flatten, p.1.Suits p.2 ∧ IsText p.2)
    (hr : Rereadable options currentYear readings) :
    Printed ((headerOf options readings).canonicalize currentYear) where
  brief := (stripped_canonicalize hw).1
  briefText := (stripped_canonicalize hw).2
  briefLine := oneLine_briefOf hsuits
  briefEnd := isCCommentEnd_briefOf hsuits hr.brief
  years := areYears_canonicalize hw hr.year
  author := (author_canonicalize hw).1
  authorEnd := (author_canonicalize hw).2
  authorLine := oneLine_authorOf hsuits
  authorName := hr.author
  authorStart := hr.authorStart
  signature text htext := ⟨signature_canonicalize hw text htext,
    signature_lines hsuits (hr.lines .signature (by decide)) text htext⟩

end Printed

/-! ### Reading the sections -/

/-- Reading these texts leads to a stage, whatever is read behind them. -/
def Stage.Reads (stage : Stage) (signed : Bool) (texts : List Line) (reading : Reading)
    (stage' : Stage) (signed' : Bool) : Prop :=
  ∀ more, stage.read signed (texts ++ more) = reading ++ stage'.read signed' more

section Sections
variable {stage stage' stage'' : Stage} {place : Place} {signed signed' signed'' afterFile : Bool}
variable {text name desc : Line} {texts texts' : List Line} {reading reading' : Reading} {kind : State}
variable {h : Header}

theorem Stage.Reads.append (hfirst : stage.Reads signed texts reading stage' signed')
    (hsecond : stage'.Reads signed' texts' reading' stage'' signed'') :
    stage.Reads signed (texts ++ texts') (reading ++ reading') stage'' signed'' := by
  intro more
  rw [List.append_assoc, hfirst, hsecond, List.append_assoc]

theorem Stage.reads_text (hkind : stage.kind signed text = kind) (hnext : stage.next text = stage')
    (hsigned : (signed || decide (kind = .copyright)) = signed') :
    stage.Reads signed [text] [(kind, text)] stage' signed' := by
  subst hkind hnext hsigned
  intro more
  rfl

theorem reads_nil (afterFile signed : Bool) :
    Stage.Reads ⟨.before, afterFile⟩ signed [[]] [(.searching, [])] ⟨.before, false⟩ signed := by
  refine Stage.reads_text ?_ ?_ (Bool.or_false signed)
  · cases afterFile <;> cases signed <;> decide +kernel
  · cases afterFile <;> rfl

theorem next_before (h : Stage.kind ⟨.before, afterFile⟩ signed text ≠ .license) :
    ∃ afterFile', Stage.next ⟨.before, afterFile⟩ text = ⟨.before, afterFile'⟩ := by
  have hsearch : Place.before.searches = true := rfl
  simp only [Stage.kind, Stage.next, hsearch, Bool.not_true, Bool.false_eq_true, if_false, reduceCtorEq]
    at h ⊢
  split_ifs at h ⊢ with hbrief hmodule hfile hcopyright hpart hlicense
  · exact ⟨_, rfl⟩
  · exact ⟨_, rfl⟩
  · exact ⟨_, rfl⟩
  · exact ⟨_, rfl⟩
  · exact ⟨false, by rw [Place.next, hpart]; simp⟩
  · exact absurd rfl h
  all_goals exact ⟨false, by rw [Place.next, Bool.eq_false_iff.mpr hlicense]; simp⟩

/-- Texts of these kinds do not lead to the license. -/
theorem reads_quiet (hquiet : ∀ p ∈ Stage.read ⟨.before, afterFile⟩ signed texts,
      p.1 ∉ [State.signature, .license, .trailing]) :
    ∃ afterFile' signed', (signed = true → signed' = true) ∧
      Stage.Reads ⟨.before, afterFile⟩ signed texts (Stage.read ⟨.before, afterFile⟩ signed texts)
        ⟨.before, afterFile'⟩ signed' := by
  induction texts generalizing afterFile signed with
  | nil => exact ⟨afterFile, signed, id, fun more => rfl⟩
  | cons text texts ih =>
      rw [Stage.read] at hquiet ⊢
      obtain ⟨hfirst, hrest⟩ := List.forall_mem_cons.mp hquiet
      have hlicense : Stage.kind ⟨.before, afterFile⟩ signed text ≠ .license := by
        intro hkind
        simp [hkind] at hfirst
      obtain ⟨behind, hnext⟩ := next_before hlicense
      rw [hnext] at hrest ⊢
      obtain ⟨afterFile', signed', hsigned, hreads⟩ := ih hrest
      refine ⟨afterFile', signed', fun htrue => hsigned (by rw [htrue, Bool.true_or]), ?_⟩
      exact (Stage.reads_text rfl hnext rfl).append hreads

theorem reads_brief (hline : OneLine h.brief) (hleft : ∀ x, h.brief.head? = some x → isSpace x = false) :
    Stage.Reads ⟨.before, afterFile⟩ signed ["@file".toList, "@brief ".toList ++ h.brief]
      [(.file, "@file".toList), (.brief, "@brief ".toList ++ h.brief)] ⟨.before, false⟩ signed := by
  have hbrief : isBriefText ("@brief ".toList ++ h.brief) = true := by
    rw [isBriefText, regexMatch_brief hline hleft]
    rfl
  have hfirst : Stage.Reads ⟨.before, afterFile⟩ signed ["@file".toList] [(.file, "@file".toList)]
      ⟨.before, true⟩ signed := by
    refine Stage.reads_text ?_ ?_ (Bool.or_false signed)
    · cases afterFile <;> cases signed <;> decide +kernel
    · cases afterFile <;> rfl
  have hsecond : ∀ text, isBriefText text = true → Stage.Reads ⟨.before, true⟩ signed [text]
      [(.brief, text)] ⟨.before, false⟩ signed := by
    intro text htext
    refine Stage.reads_text ?_ ?_ (Bool.or_false signed)
    · simp [Stage.kind, Place.searches, htext]
    · simp [Stage.next, Place.searches, htext]
  exact hfirst.append (hsecond _ hbrief)

theorem oneLine_copyrightText (hline : OneLine h.author) : OneLine h.copyrightText := by
  have hyears : OneLine (Header.printYears (h.copyrightYears.getLastD 0) "@Copyright (C) ".toList 0 0
      h.copyrightYears) := by
    intro x hx
    constructor <;>
    · rintro rfl
      exact not_mem_printYears (by decide) (by decide) (by decide) (by decide) hx
  simp only [Header.copyrightText, oneLine_append]
  exact ⟨⟨⟨hyears, by decide⟩, hline⟩, by decide⟩

theorem reads_copyright (hp : Printed h) : Stage.Reads ⟨.before, false⟩ signed [h.copyrightText]
    [(.copyright, h.copyrightText)] ⟨.before, false⟩ true := by
  have htext := copyrightText_eq hp.years
  have hmodule : regexMatch moduleRegexp h.copyrightText = none := by
    rw [htext]
    exact regexMatch_module_none (a := "@Copyright".toList) (x := '(') (by decide) (by decide)
      (by decide)
  have hfile : regexMatch fileRegexp h.copyrightText = none := by
    rw [htext]
    exact regexMatch_file_none (x := '@') (y := 'C') (by decide)
  have hsplit : h.copyrightText = "@Copyright ".toList ++ (("(C) ".toList ++
      (spansText (spansOf h.copyrightYears) ++ [' ', ' '])) ++ (h.author ++ ['.'])) := by
    rw [htext]
    simp
  have hline := oneLine_copyrightText hp.authorLine
  rw [hsplit] at hline
  obtain ⟨hyears, hauthor⟩ := oneLine_append.mp (oneLine_append.mp hline).2
  have hcopyright : regexSearch copyrightRegexp h.copyrightText ≠ none := by
    rw [hsplit]
    exact regexSearch_copyright hyears (hp.authorName.trans (List.prefix_append _ _).isInfix) hauthor
  have hmodule : isModuleText h.copyrightText = false := by rw [isModuleText, hmodule]; rfl
  have hfile : isFileText h.copyrightText = false := by rw [isFileText, hfile]; rfl
  have hcopyright : isCopyrightText h.copyrightText = true := Option.isSome_iff_ne_none.mpr hcopyright
  exact Stage.reads_text (by simp [Stage.kind, Place.searches, hmodule, hfile, hcopyright])
    (by simp [Stage.next, Place.searches, hmodule, hfile, hcopyright]) (Bool.or_true signed)

theorem reads_signature (htexts : ∀ text ∈ texts, IsSignature text) :
    Stage.Reads ⟨.before, false⟩ true texts (texts.map (Prod.mk .signature)) ⟨.before, false⟩ true := by
  induction texts with
  | nil => exact fun more => rfl
  | cons text texts ih =>
      obtain ⟨htext, htexts⟩ := List.forall_mem_cons.mp htexts
      refine (Stage.reads_text ?_ ?_ rfl).append (ih htexts)
      · simp [Stage.kind, Place.searches, isModuleText, htext.noModule, isFileText, htext.noFile,
          isCopyrightText, htext.noCopyright, isPartOfText, htext.noPartOf, isLicenseStart,
          htext.noLicense, htext.nonempty]
      · simp [Stage.next, Place.next, Place.searches, isModuleText, htext.noModule, isFileText,
          htext.noFile, isCopyrightText, htext.noCopyright, isPartOfText, htext.noPartOf,
          isLicenseStart, htext.noLicense]

theorem next_license (h : stage.kind signed text = .license) :
    stage.next text = ⟨if isLicenseEnd text then .after else .license, false⟩ := by
  rw [Stage.kind] at h
  split_ifs at h with hsearch hbrief hmodule hfile hcopyright hafter hempty hpart hstart
  · cases hplace : stage.place with
    | license =>
        rw [Stage.next, if_pos hsearch, hplace, Place.next]
    | before | after | trailing =>
        rw [hplace] at h
        cases h
  · have hplace : stage.place = .before := by
      cases hplace : stage.place with
      | before => rfl
      | after => exact absurd hplace hafter
      | license | trailing => simp [hplace, Place.searches] at hsearch
    rw [Stage.next, if_neg hsearch, if_neg hbrief, if_neg hmodule, if_neg hfile, if_neg hcopyright,
      hplace, Place.next, Bool.eq_false_iff.mpr hmodule, Bool.eq_false_iff.mpr hpart, hstart]
    simp only [Bool.not_true, Bool.or_self, Bool.false_eq_true, if_false]

/-- The license, up to the text that ends it. -/
theorem reads_license (hstarts : ∀ text ∈ texts.head?, stage.kind signed text = .license)
    (hcontinues : ∀ text ∈ texts.dropLast, isLicenseEnd text = false)
    (hends : ∃ text ∈ texts.getLast?, isLicenseEnd text = true) :
    stage.Reads signed texts (texts.map (Prod.mk .license)) ⟨.after, false⟩ signed := by
  induction texts generalizing stage with
  | nil => simp at hends
  | cons text texts ih =>
      have hkind := hstarts text rfl
      have hnext := next_license hkind
      cases texts with
      | nil =>
          obtain ⟨last, hlast, hend⟩ := hends
          obtain rfl : text = last := by simpa using hlast
          rw [hend, if_pos rfl] at hnext
          exact Stage.reads_text hkind hnext (Bool.or_false signed)
      | cons text' texts =>
          obtain ⟨hinside, hcontinues⟩ := List.forall_mem_cons.mp hcontinues
          rw [hinside, if_neg Bool.false_ne_true] at hnext
          refine (Stage.reads_text hkind hnext (Bool.or_false signed)).append ?_
          exact ih (fun _ _ => rfl) hcontinues (by simpa using hends)

theorem reads_trailing (h : IsTrailing texts) : Stage.Reads ⟨.after, false⟩ signed texts
    (texts.map (Prod.mk .trailing)) ⟨.trailing, false⟩ signed := by
  have hmore : ∀ text, Stage.Reads ⟨.trailing, false⟩ signed [text] [(.trailing, text)]
      ⟨.trailing, false⟩ signed := fun text => Stage.reads_text rfl rfl (Bool.or_false signed)
  induction h with
  | first htext =>
      refine Stage.reads_text ?_ ?_ (Bool.or_false signed)
      · simp [Stage.kind, Place.searches, isModuleText, htext.noModule, isFileText, htext.noFile,
          isCopyrightText, htext.noCopyright, htext.nonempty]
      · simp [Stage.next, Place.next, Place.searches, isModuleText, htext.noModule, isFileText,
          htext.noFile, isCopyrightText, htext.noCopyright, htext.nonempty]
  | next _ _ _ ih =>
      rw [List.map_append]
      exact ih.append (hmore _)
  | skip _ _ _ ih =>
      rw [List.map_append, List.map_append]
      exact (ih.append (hmore [])).append (hmore _)

theorem trailingLines_of_isTrailing (h : IsTrailing texts) (more : List Line) :
    trailingLines (texts ++ more) = texts ++ trailingLines more := by
  induction h generalizing more with
  | first htext => exact trailingLines_cons_of_ne htext.nonempty
  | next _ hne _ ih => rw [List.append_assoc, ih, List.singleton_append, trailingLines_cons_of_ne hne,
      List.append_assoc, List.singleton_append]
  | skip _ hne _ ih =>
      rw [List.append_assoc, List.append_assoc, ih, List.singleton_append, List.singleton_append,
        trailingLines_nil_cons hne]
      simp

theorem textsOf_map {kind' : State} :
    textsOf kind (texts.map (Prod.mk kind')) = if kind' = kind then texts else [] := by
  induction texts with
  | nil => simp [textsOf]
  | cons text texts ih =>
      rw [List.map_cons, textsOf_cons, ih]
      split_ifs <;> rfl

theorem read_end (h : texts = [] ∨ IsTrailing texts) :
    ∃ reading, Stage.read ⟨.after, false⟩ signed (spaced texts ++ [[]]) = reading ∧
      (∀ p ∈ reading, p.1 ∈ [State.searching, .trailing]) ∧
      trailingLines (textsOf .trailing reading) = texts := by
  have hempty : Stage.Reads ⟨.after, false⟩ signed [[]] [(.searching, [])] ⟨.after, false⟩ signed := by
    refine Stage.reads_text ?_ rfl (Bool.or_false signed)
    cases signed <;> decide +kernel
  rcases h with rfl | h
  · exact ⟨_, hempty [], List.forall_mem_singleton.mpr (by decide), rfl⟩
  · have hspaced : spaced texts = [[]] ++ texts := if_neg fun hnil => h.ne_nil (List.isEmpty_iff.mp hnil)
    have hread := (hempty.append (reads_trailing h)) [[]]
    rw [← hspaced] at hread
    refine ⟨_, hread, ?_, ?_⟩
    · have hlast : Stage.read ⟨.trailing, false⟩ signed [[]] = [(.trailing, [])] := rfl
      rw [hlast]
      refine List.forall_mem_append.mpr ⟨List.forall_mem_cons.mpr ⟨List.mem_cons_self .., fun p hp => ?_⟩,
        List.forall_mem_singleton.mpr (List.mem_cons_of_mem _ (List.mem_cons_self ..))⟩
      obtain ⟨text, -, rfl⟩ := List.mem_map.mp hp
      exact List.mem_cons_of_mem _ (List.mem_cons_self ..)
    · have hlast : textsOf .trailing (Stage.read ⟨.trailing, false⟩ signed [[]]) = [[]] := rfl
      have hfirst : textsOf .trailing [(State.searching, [])] = [] := rfl
      rw [textsOf_append, textsOf_append, textsOf_map, if_pos rfl, hlast, hfirst, List.nil_append,
        trailingLines_of_isTrailing h]
      exact List.append_nil texts

def middle (h : Header) : Reading :=
  (.file, "@file".toList) :: (.brief, "@brief ".toList ++ h.brief) :: (.searching, []) ::
    (.copyright, h.copyrightText) :: (.searching, []) :: h.signature.map (Prod.mk .signature)

theorem reads_middle (hp : Printed h) :
    Stage.Reads ⟨.before, afterFile⟩ signed h.middleLines (middle h) ⟨.before, false⟩ true := by
  have hbrief : Stage.Reads ⟨.before, afterFile⟩ signed ["@file".toList, "@brief ".toList ++ h.brief] _
      ⟨.before, false⟩ signed := reads_brief hp.briefLine hp.brief.left
  have hcopyright := ((hbrief.append (reads_nil false signed)).append (reads_copyright hp)).append
    (reads_nil false true)
  exact hcopyright.append (reads_signature fun text htext => (hp.signature text htext).1)

theorem middleLines_plain (hp : Printed h) : ∀ text ∈ h.middleLines,
    OneLine text ∧ trimRight text = text ∧ isCCommentEnd text = false := by
  have hbrief : trimRight ("@brief ".toList ++ h.brief) = "@brief ".toList ++ h.brief := by
    rw [trimRight_append, hp.brief.right, if_neg fun hnil => hp.briefText (List.isEmpty_iff.mp hnil)]
  have hcopyright : trimRight h.copyrightText = h.copyrightText ∧ isCCommentEnd h.copyrightText = false := by
    rw [Header.copyrightText]
    exact period_end _
  have hfile : trimRight "@file".toList = "@file".toList := by decide
  simp only [Header.middleLines, List.forall_mem_cons]
  refine ⟨⟨by decide, hfile, by decide⟩, ⟨oneLine_append.mpr ⟨by decide, hp.briefLine⟩, hbrief, ?_⟩,
    ⟨by decide, rfl, by decide⟩, ⟨oneLine_copyrightText hp.authorLine, hcopyright⟩,
    ⟨by decide, rfl, by decide⟩, fun text htext => ?_⟩
  · rw [isCCommentEnd_append (by decide)]
    exact hp.briefEnd
  · obtain ⟨hsignature, hline, hend⟩ := hp.signature text htext
    exact ⟨hline, hsignature.trimmed, hend⟩

/-- What is read of the empty line between a line with the name and the rest. -/
def blank (name : Line) : Reading := if name = [] then [] else [(.searching, [])]

theorem flatMap_readBack_nil : [[]].flatMap readBack = [[]] := by decide +kernel

theorem reads_module (hquiet : ∀ p ∈ moduleReading name desc, p.1 ∉ [State.signature, .license, .trailing]) :
    ∃ afterFile signed, Stage.Reads ⟨.before, false⟩ false
      ((if name.isEmpty then [] else [moduleText name desc, []]).flatMap readBack)
      (moduleReading name desc ++ blank name) ⟨.before, afterFile⟩ signed := by
  by_cases hname : name = []
  · subst hname
    exact ⟨false, false, fun more => rfl⟩
  · have hempty : name.isEmpty = false := by simpa using hname
    rw [moduleReading, if_neg hname] at hquiet ⊢
    obtain ⟨afterFile, signed, -, hreads⟩ := reads_quiet hquiet
    refine ⟨false, signed, ?_⟩
    rw [hempty, if_neg Bool.false_ne_true, blank, if_neg hname, List.flatMap_cons, flatMap_readBack_nil]
    exact hreads.append (reads_nil afterFile signed)

theorem reads_partOf (hquiet : ∀ p ∈ partOfReading name, p.1 ∉ [State.signature, .license, .trailing]) :
    Stage.Reads ⟨.before, false⟩ true
      (((if name.isEmpty then [] else [[], partOfText name]) ++ [[]]).flatMap readBack)
      (blank name ++ (partOfReading name ++ [(.searching, [])])) ⟨.before, false⟩ true := by
  by_cases hname : name = []
  · subst hname
    exact reads_nil false true
  · have hempty : name.isEmpty = false := by simpa using hname
    rw [partOfReading, if_neg hname] at hquiet ⊢
    obtain ⟨afterFile, signed, hsigned, hreads⟩ := reads_quiet hquiet
    rw [hsigned rfl] at hreads
    have hlines : ([[], partOfText name] ++ [[]]).flatMap readBack =
        [[]] ++ (readBack (partOfText name) ++ [[]]) := by
      have hempty : readBack [] = [[]] := by decide +kernel
      simp only [List.cons_append, List.nil_append, List.flatMap_cons, List.flatMap_nil, hempty]
    rw [hempty, if_neg Bool.false_ne_true, blank, if_neg hname, hlines]
    exact (reads_nil false true).append (hreads.append (reads_nil afterFile true))

def again (h : Header) (license : List Line) (behind : Reading) : Reading :=
  (.searching, []) :: (moduleReading h.moduleName h.moduleDesc ++ blank h.moduleName ++ (middle h ++
    (blank h.moduleName ++ (partOfReading h.moduleName ++ [(.searching, [])]) ++
    (license.map (Prod.mk .license) ++ behind))))

theorem read_header (hp : Printed h)
    (hquiet : ∀ p ∈ moduleReading h.moduleName h.moduleDesc ++ partOfReading h.moduleName,
      p.1 ∉ [State.signature, .license, .trailing])
    (hlicense : h.licenseLines.flatMap readBack = texts ++ spaced texts') (hstarts : IsLicense texts)
    (hbehind : Stage.read ⟨.after, false⟩ true (spaced texts' ++ [[]]) = reading) :
    Stage.read ⟨.before, false⟩ false ([] :: ((h.frontLines ++ h.licenseLines).flatMap readBack ++ [[]])) =
      again h texts reading := by
  obtain ⟨hmodule, hpart⟩ := List.forall_mem_append.mp hquiet
  obtain ⟨afterFile, signed, hmodule⟩ := reads_module hmodule
  have hmiddle : h.middleLines.flatMap readBack = h.middleLines := flatMap_readBack fun text htext => by
    obtain ⟨hline, htrim, hend⟩ := middleLines_plain hp text htext
    exact readBack_of_isText hline htrim hend
  have hfront := (hmodule.append (reads_middle hp)).append (reads_partOf hpart)
  have hwhole := ((reads_nil false false).append hfront).append
    (reads_license hstarts.starts hstarts.continues hstarts.ends)
  have hall := hwhole (spaced texts' ++ [[]])
  rw [hbehind] at hall
  rw [List.flatMap_append, hlicense, Header.frontLines, List.flatMap_append, List.flatMap_append, hmiddle]
  simp only [again, List.append_assoc, List.cons_append, List.nil_append] at hall ⊢
  exact hall

end Sections

/-! ### What the readings say -/

section Again
variable {options : Options} {currentYear : Nat} {readings : List Reading} {h : Header} {name desc : Line}
variable {license : List Line} {reading behind : Reading} {kind : State}

theorem textsOf_eq_nil (hne : ∀ p ∈ reading, p.1 ≠ kind) : textsOf kind reading = [] := by
  rw [textsOf, List.filter_eq_nil_iff.mpr fun p hp => by simpa using hne p hp]
  rfl

theorem namesIn_eq_nil (hne : ∀ p ∈ reading, p.1 ∉ [State.moduleLine, .partOf]) :
    namesIn desc reading = [] := by
  rw [namesIn, List.filter_eq_nil_iff]
  intro names hnames
  obtain ⟨⟨kind, text⟩, hmem, rfl⟩ := List.mem_map.mp hnames
  have hkind := hne _ hmem
  cases kind with
  | moduleLine | partOf => simp at hkind
  | searching | file | brief | copyright | signature | license | trailing => simp [nameIn]

theorem textsOf_blank (hkind : kind ≠ .searching) (name : Line) : textsOf kind (blank name) = [] := by
  rw [blank]
  split_ifs
  · rfl
  · rw [textsOf_cons, if_neg (Ne.symm hkind)]
    rfl

theorem namesIn_blank (desc name : Line) : namesIn desc (blank name) = [] := by
  rw [blank]
  split_ifs <;> rfl

/-- Apart from the empty lines, what is read of a printed header. -/
theorem textsOf_again (hkind : kind ≠ .searching) : textsOf kind (again h license behind) =
    textsOf kind (moduleReading h.moduleName h.moduleDesc) ++ (textsOf kind (middle h) ++
      (textsOf kind (partOfReading h.moduleName) ++ ((if State.license = kind then license else []) ++
        textsOf kind behind))) := by
  have hnil : textsOf kind [(State.searching, [])] = [] := by
    rw [textsOf_cons, if_neg (Ne.symm hkind)]
    rfl
  rw [again, textsOf_cons, if_neg (Ne.symm hkind)]
  simp only [textsOf_append, textsOf_blank hkind, textsOf_map, hnil, List.nil_append,
    List.append_assoc]

theorem namesIn_again (hbehind : ∀ p ∈ behind, p.1 ∈ [State.searching, .trailing]) :
    namesIn desc (again h license behind) =
      namesIn desc (moduleReading h.moduleName h.moduleDesc ++ partOfReading h.moduleName) := by
  have hempty : namesIn desc [(State.searching, [])] = [] := rfl
  have hmiddle : namesIn desc (middle h) = [] := by
    refine namesIn_eq_nil ?_
    simp only [middle, List.forall_mem_cons, List.forall_mem_map]
    simp
  have hlicense : namesIn desc (license.map (Prod.mk .license)) = [] := by
    refine namesIn_eq_nil (List.forall_mem_map.mpr fun text _ => ?_)
    simp
  have hrest : namesIn desc behind = [] := by
    refine namesIn_eq_nil fun p hp hkind => ?_
    have hmem := hbehind p hp
    rcases List.mem_pair.mp hmem with hstate | hstate <;> simp [hstate] at hkind
  have hfirst : again h license behind = [(.searching, [])] ++ (moduleReading h.moduleName h.moduleDesc ++
      blank h.moduleName ++ (middle h ++ (blank h.moduleName ++ (partOfReading h.moduleName ++
        [(.searching, [])]) ++ (license.map (Prod.mk .license) ++ behind)))) := rfl
  rw [hfirst]
  simp only [namesIn_append, namesIn_blank, hempty, hmiddle, hlicense, hrest, List.append_nil, List.nil_append]

theorem textsOf_middle (h : Header) : textsOf .brief (middle h) = ["@brief ".toList ++ h.brief] ∧
    textsOf .copyright (middle h) = [h.copyrightText] ∧ textsOf .signature (middle h) = h.signature ∧
    textsOf .partOf (middle h) = [] ∧ textsOf .license (middle h) = [] ∧
      textsOf .trailing (middle h) = [] := by
  refine ⟨?_, ?_, ?_, ?_, ?_, ?_⟩ <;>
    simp only [middle, textsOf_cons, textsOf_map, reduceCtorEq, if_false, if_true]

theorem textsOf_quiet (hquiet : ∀ p ∈ reading ++ behind, p.1 ∉ [State.signature, .license, .trailing])
    (hkind : kind ∈ [State.signature, .license, .trailing]) :
    textsOf kind reading = [] ∧ textsOf kind behind = [] := by
  obtain ⟨hfirst, hsecond⟩ := List.forall_mem_append.mp hquiet
  exact ⟨textsOf_eq_nil fun p hp heq => hfirst p hp (heq ▸ hkind),
    textsOf_eq_nil fun p hp heq => hsecond p hp (heq ▸ hkind)⟩

structure Regained (h : Header) (license trailing : List Line) (reading : Reading) : Prop where
  names : ∀ desc, namesIn desc reading =
    namesIn desc (moduleReading h.moduleName h.moduleDesc ++ partOfReading h.moduleName)
  partOf : textsOf .partOf reading =
    textsOf .partOf (moduleReading h.moduleName h.moduleDesc ++ partOfReading h.moduleName)
  brief : textsOf .brief reading = textsOf .brief (moduleReading h.moduleName h.moduleDesc) ++
    ("@brief ".toList ++ h.brief) :: textsOf .brief (partOfReading h.moduleName)
  copyright : textsOf .copyright reading = textsOf .copyright (moduleReading h.moduleName h.moduleDesc) ++
    h.copyrightText :: textsOf .copyright (partOfReading h.moduleName)
  signature : textsOf .signature reading = h.signature
  license : textsOf .license reading = license
  trailing : trailingLines (textsOf .trailing reading) = trailing

theorem regained_again (hquiet : ∀ p ∈ moduleReading h.moduleName h.moduleDesc ++ partOfReading h.moduleName,
      p.1 ∉ [State.signature, .license, .trailing])
    (hbehind : ∀ p ∈ behind, p.1 ∈ [State.searching, .trailing]) :
    Regained h license (trailingLines (textsOf .trailing behind)) (again h license behind) := by
  have hnone : ∀ {kind : State}, kind ∉ [State.searching, .trailing] → textsOf kind behind = [] :=
    fun hkind => textsOf_eq_nil fun p hp heq => hkind (heq ▸ hbehind p hp)
  obtain ⟨hbrief, hcopyright, hsignature, hpart, hlicense, htrailing⟩ := textsOf_middle h
  constructor
  · exact fun desc => namesIn_again hbehind
  · rw [textsOf_again (by decide), hpart, hnone (by decide), textsOf_append]
    simp
  · rw [textsOf_again (by decide), hbrief, hnone (by decide)]
    simp
  · rw [textsOf_again (by decide), hcopyright, hnone (by decide)]
    simp
  · obtain ⟨hfirst, hsecond⟩ := @textsOf_quiet _ _ .signature hquiet (by decide)
    rw [textsOf_again (by decide), hsignature, hnone (by decide), hfirst, hsecond]
    simp
  · obtain ⟨hfirst, hsecond⟩ := @textsOf_quiet _ _ .license hquiet (by decide)
    rw [textsOf_again (by decide), hlicense, hnone (by decide), hfirst, hsecond]
    simp
  · obtain ⟨hfirst, hsecond⟩ := @textsOf_quiet _ _ .trailing hquiet (by decide)
    rw [textsOf_again (by decide), htrailing, hfirst, hsecond]
    simp

end Again

/-! ### Printing the header again -/

section Whole
variable {options : Options} {currentYear : Nat} {lines left : List Line} {readings : List Reading}
variable {h : Header} {license trailing : List Line} {reading : Reading}

theorem briefIn_line (hp : Printed h) : briefIn ("@brief ".toList ++ h.brief) = h.brief := by
  rw [briefIn, regexMatch_brief hp.briefLine hp.brief.left]
  exact Function.update_self ..

theorem decode_line (hp : Printed h) :
    yearsIn h.copyrightText = h.copyrightYears ∧ authorIn h.copyrightText = h.author := by
  have hhead : ∃ x xs, h.author = x :: xs ∧ x ≠ ',' ∧ x ≠ '-' := by
    have hstart := hp.authorStart
    cases hcases : h.author with
    | nil =>
        have hname := hp.authorName
        rw [hcases] at hname
        exact absurd (List.infix_nil.mp hname) (by decide)
    | cons x xs =>
        rw [hcases] at hstart
        exact ⟨x, xs, rfl, by simpa using hstart⟩
  rw [yearsIn, authorIn, decode_copyrightText hp.years hp.author hp.authorLine hp.authorEnd hhead]
  exact ⟨rfl, rfl⟩

theorem mem_copyrightYears {y : Nat} :
    y ∈ ((headerOf options readings).canonicalize currentYear).copyrightYears ↔
      y ∈ listedYears currentYear readings.flatten := by
  change y ∈ (if (headerOf options readings).copyrightYears.isEmpty then [currentYear] else
    ((headerOf options readings).copyrightYears.insertionSort (· ≤ ·)).destutter (· ≠ ·)) ↔
    y ∈ if (headerOf options readings).copyrightYears.isEmpty then [currentYear] else
      (headerOf options readings).copyrightYears
  split_ifs
  · exact Iff.rfl
  · exact mem_sorted

theorem sorted_copyrightYears :
    ((headerOf options readings).canonicalize currentYear).copyrightYears.Pairwise (· < ·) := by
  simp only [Header.canonicalize]
  split_ifs
  · exact List.pairwise_singleton _ _
  · exact pairwise_lt_of_isChain_ne
      ((List.pairwise_insertionSort _ _).sublist (List.destutter_sublist _ _)) (List.isChain_destutter _ _)

theorem print_congr {h' : Header} (hfront : h.frontLines = h'.frontLines)
    (hlicense : h.licenseLines.flatMap Header.printLine = h'.licenseLines.flatMap Header.printLine) :
    h.print = h'.print := by
  rw [print_eq, print_eq, hfront, hlicense]

theorem getLastD_briefs (hp : Printed h) (hg : Regained h license trailing reading)
    (hkept : ((textsOf .brief (partOfReading h.moduleName)).map briefIn).getLastD h.brief = h.brief) :
    briefOf reading = h.brief := by
  have hlast : ((textsOf .brief reading).map briefIn).getLastD [] = h.brief := by
    rw [hg.brief, List.map_append, List.map_cons, getLastD_append, List.getLastD_cons, briefIn_line hp, hkept]
  rw [briefOf, hlast]
  exact if_neg fun hnil => hp.briefText (List.isEmpty_iff.mp hnil)

theorem getLastD_authors (hp : Printed h) (hg : Regained h license trailing reading)
    (hkept : ((textsOf .copyright (partOfReading h.moduleName)).map authorIn).getLastD h.author = h.author) :
    authorOf reading = h.author := by
  have hlast : ((textsOf .copyright reading).map authorIn).getLastD [] = h.author := by
    rw [hg.copyright, List.map_append, List.map_cons, getLastD_append, List.getLastD_cons, (decode_line hp).2,
      hkept]
  have hne : h.author ≠ [] := by
    intro hnil
    have hname := hp.authorName
    rw [hnil] at hname
    exact absurd (List.infix_nil.mp hname) (by decide)
  rw [authorOf, hlast]
  exact if_neg fun hnil => hne (List.isEmpty_iff.mp hnil)

theorem mem_listedYears (hp : Printed h) (hg : Regained h license trailing reading)
    (hkept : ∀ text ∈ textsOf .copyright (moduleReading h.moduleName h.moduleDesc ++
      partOfReading h.moduleName), ∀ y ∈ yearsIn text, y ∈ h.copyrightYears) {y : Nat} :
    y ∈ listedYears currentYear reading ↔ y ∈ h.copyrightYears := by
  rw [textsOf_append, List.forall_mem_append] at hkept
  have hall : ∀ y, y ∈ (textsOf .copyright reading).flatMap yearsIn ↔ y ∈ h.copyrightYears := by
    intro y
    rw [hg.copyright, List.flatMap_append, List.flatMap_cons, (decode_line hp).1, List.mem_append,
      List.mem_append]
    constructor
    · rintro (hy | hy | hy)
      · obtain ⟨text, htext, hy⟩ := List.mem_flatMap.mp hy
        exact hkept.1 text htext y hy
      · exact hy
      · obtain ⟨text, htext, hy⟩ := List.mem_flatMap.mp hy
        exact hkept.2 text htext y hy
    · exact fun hy => .inr (.inl hy)
  have hne : (textsOf .copyright reading).flatMap yearsIn ≠ [] := by
    obtain ⟨y, hy⟩ := List.exists_mem_of_ne_nil _ hp.years.nonempty
    exact List.ne_nil_of_mem ((hall y).mpr hy)
  rw [listedYears]
  simp only [List.isEmpty_iff, hne, if_false]
  exact hall y

theorem moduleOf_congr {reading' : Reading}
    (hnames : ∀ desc, namesIn desc reading = namesIn desc reading') :
    moduleOf options reading = moduleOf options reading' := by
  rw [moduleOf, moduleOf, hnames]

/-- The lines up to the license are printed as before. -/
theorem frontLines_again (hh : h = (headerOf options readings).canonicalize currentYear) (hp : Printed h)
    (hg : Regained h license trailing reading)
    (hk : NamesKept options currentYear readings.flatten
      (moduleReading h.moduleName h.moduleDesc) (partOfReading h.moduleName)) :
    ((headerOf options [reading]).canonicalize currentYear).frontLines = h.frontLines := by
  let h' := (headerOf options [reading]).canonicalize currentYear
  have hflat : [reading].flatten = reading := List.flatten_singleton
  have hmodule := @moduleOf_congr options _ _ hg.names
  have hname : h'.moduleName = h.moduleName := by
    change (moduleOf options [reading].flatten).1 = h.moduleName
    rw [hflat, hmodule, hk.name, hh]
    rfl
  have hdesc : h.moduleName ≠ [] → h'.moduleDesc = h.moduleDesc := by
    intro hne
    have hkept := hk.desc (by rw [hh] at hne; exact hne)
    change descOf options [reading].flatten = h.moduleDesc
    rw [hflat, descOf, hmodule]
    refine hkept.trans ?_
    rw [hh]
    rfl
  have hbrief : h'.brief = h.brief := by
    change briefOf [reading].flatten = h.brief
    have hkept := hk.brief
    rw [show briefOf readings.flatten = h.brief by rw [hh]; rfl] at hkept
    rw [hflat, getLastD_briefs hp hg hkept]
  have hauthor : h'.author = h.author := by
    change authorOf [reading].flatten = h.author
    have hkept := hk.author
    rw [show authorOf readings.flatten = h.author by rw [hh]; rfl] at hkept
    rw [hflat, getLastD_authors hp hg hkept]
  have hyears : h'.copyrightYears = h.copyrightYears := by
    refine sorted_copyrightYears.eq_of_mem_iff hp.years.sorted fun y => ?_
    rw [mem_copyrightYears, hflat, mem_listedYears hp hg]
    intro text htext y hy
    rw [hh]
    exact mem_copyrightYears.mpr (hk.years text htext y hy)
  have hsignature : h'.signature = h.signature := by
    have hne : h.signature ≠ [] := by
      rw [hh]
      exact signature_canonicalize_ne_nil
    change (if (textsOf .signature [reading].flatten).isEmpty then Header.defaultSignature
      else textsOf .signature [reading].flatten) = h.signature
    rw [hflat, hg.signature, if_neg fun hnil => hne (List.isEmpty_iff.mp hnil)]
  have hcopyright : h'.copyrightText = h.copyrightText := by
    rw [Header.copyrightText, Header.copyrightText, hyears, hauthor]
  rw [Header.frontLines, Header.frontLines, Header.middleLines, Header.middleLines, hname, hbrief, hcopyright,
    hsignature]
  by_cases hne : h.moduleName = []
  · rw [hne]
    rfl
  · rw [hdesc hne]

theorem licenseLines_again (hh : h = (headerOf options readings).canonicalize currentYear)
    (hg : Regained h license trailing reading)
    (hk : NamesKept options currentYear readings.flatten
      (moduleReading h.moduleName h.moduleDesc) (partOfReading h.moduleName)) (hne : license ≠ []) :
    ((headerOf options [reading]).canonicalize currentYear).licenseLines =
      license.map (putName h.moduleName (oldNameIn h.moduleName
        (moduleReading h.moduleName h.moduleDesc ++ partOfReading h.moduleName))) ++ spaced trailing := by
  have hflat : [reading].flatten = reading := List.flatten_singleton
  have hname : (moduleOf options reading).1 = h.moduleName := by
    rw [moduleOf_congr hg.names, hk.name, hh]
    rfl
  have hlicense : licenseIn reading = license := by
    rw [licenseIn, hg.license, if_neg hne]
  have htrailing : ((headerOf options [reading]).canonicalize currentYear).trailing = trailing := by
    rw [← hg.trailing]
    exact List.append_nil _
  rw [Header.licenseLines, license_headerOf, hflat, hlicense, hname, htrailing, oldNameIn, oldNameIn, hg.partOf]

theorem inside_front (hp : Printed h) (hnames : h.moduleName ≠ [] →
      ∀ text ∈ [moduleText h.moduleName h.moduleDesc, partOfText h.moduleName],
        ∀ line ∈ printed text, isLastLine true line = false) :
    ∀ text ∈ h.frontLines, ∀ line ∈ printed text, isLastLine true line = false := by
  have hempty : ∀ line ∈ printed [], isLastLine true line = false := by decide
  have hmiddle : ∀ text ∈ h.middleLines, ∀ line ∈ printed text, isLastLine true line = false := by
    intro text htext
    obtain ⟨hline, htrim, hend⟩ := middleLines_plain hp text htext
    exact printed_inside hline (by rwa [htrim])
  rw [Header.frontLines]
  by_cases hname : h.moduleName = []
  · rw [hname, List.isEmpty_nil, if_pos rfl, if_pos rfl, List.nil_append, List.nil_append]
    exact List.forall_mem_append.mpr ⟨hmiddle, List.forall_mem_singleton.mpr hempty⟩
  · have hfalse : h.moduleName.isEmpty = false := by simpa using hname
    have hmodule := hnames hname (moduleText h.moduleName h.moduleDesc) (List.mem_cons_self ..)
    have hpart := hnames hname (partOfText h.moduleName) (List.mem_cons_of_mem _ (List.mem_cons_self ..))
    rw [hfalse, if_neg Bool.false_ne_true, if_neg Bool.false_ne_true]
    simp only [List.forall_mem_append, List.forall_mem_cons]
    exact ⟨⟨hmodule, hempty, List.forall_mem_nil _⟩, hmiddle, ⟨hempty, hpart, List.forall_mem_nil _⟩, hempty,
      List.forall_mem_nil _⟩

theorem inside_trailing (hsuits : ∀ p ∈ readings.flatten, p.1.Suits p.2 ∧ IsText p.2)
    (hend : ∀ text ∈ textsOf .trailing readings.flatten, isCCommentEnd text = false) :
    ∀ text ∈ spaced (readings.flatMap fun reading => trailingLines (textsOf .trailing reading)),
      ∀ line ∈ printed text, isLastLine true line = false := by
  have hempty : ∀ line ∈ printed [], isLastLine true line = false := by decide
  have hlines : ∀ text ∈ readings.flatMap fun reading => trailingLines (textsOf .trailing reading),
      ∀ line ∈ printed text, isLastLine true line = false := by
    rw [textsOf_flatten, List.forall_mem_flatMap] at hend
    rw [List.forall_mem_flatMap]
    intro reading hreading
    rw [mem_trailingLines (P := fun text => ∀ line ∈ printed text, isLastLine true line = false) hempty]
    intro text htext
    have hmem : (State.trailing, text) ∈ readings.flatten :=
      List.mem_flatten.mpr ⟨reading, hreading, mem_textsOf.mp htext⟩
    obtain ⟨hline, htrim⟩ := (hsuits _ hmem).2
    exact printed_inside hline (by rw [htrim]; exact hend reading hreading text htext)
  rw [spaced]
  split_ifs
  · exact List.forall_mem_nil _
  · exact List.forall_mem_cons.mpr ⟨hempty, hlines⟩

theorem file_mem_again (h : Header) (license : List Line) (behind : Reading) :
    (State.file, "@file".toList) ∈ again h license behind :=
  List.mem_cons_of_mem _ (List.mem_append_right _ (List.mem_append_left _ (List.mem_cons_self ..)))

/-- What `process` writes can be read again, and is then written as before. -/
theorem print_again (hfront : Front .before lines readings left)
    (hr : Rereadable options currentYear readings) (body : List Line)
    (hh : h = (headerOf options readings).canonicalize currentYear) :
    ∃ reading, Front .before (headerLines h ++ body) [reading] ([] :: body) ∧
      ((headerOf options [reading]).canonicalize currentYear).print = h.print := by
  have hsuits := hfront.suits
  have hw : WellRead options (headerOf options readings) :=
    collect_wellRead (collect_eq_some_iff.mpr ⟨readings, hfront, rfl⟩)
  have hp : Printed h := hh ▸ printed_headerOf hw hsuits hr
  have hname : (moduleOf options readings.flatten).1 = h.moduleName := by rw [hh]; rfl
  have hdesc : descOf options readings.flatten = h.moduleDesc := by rw [hh]; rfl
  have hk := hr.names
  have hl := hr.license
  have hlicense : (licenseIn readings.flatten).map (putName h.moduleName (oldNameIn h.moduleName
      readings.flatten)) = h.license := by
    rw [hh, license_headerOf]
    rfl
  have htrailing : (readings.flatMap fun reading => trailingLines (textsOf .trailing reading)) =
      h.trailing := by rw [hh]; rfl
  rw [hname, hdesc] at hk hl
  rw [hlicense, htrailing] at hl
  obtain ⟨license, trailing, hlines, hstarts, hkind, hprint⟩ := hl.again
  obtain ⟨behind, hbehind, hkinds, rfl⟩ := @read_end true _ hkind
  have hread := read_header hp hk.quiet hlines hstarts hbehind
  have hg : Regained h license _ (again h license behind) := regained_again hk.quiet hkinds
  have hne : license ≠ [] := by
    rintro rfl
    obtain ⟨text, htext, -⟩ := hstarts.ends
    cases htext
  have hinside := hr.inside
  rw [hname, hdesc] at hinside
  have htrailing := inside_trailing hsuits (hr.lines .trailing (by decide))
  refine ⟨again h license behind, front_print body ?_ hread (file_mem_again h license behind),
    print_congr ?_ ?_⟩
  · rw [List.flatMap_append, Header.licenseLines, List.flatMap_append]
    refine List.forall_mem_append.mpr ⟨List.forall_mem_flatMap.mpr (inside_front hp hinside),
      List.forall_mem_append.mpr ⟨hl.inside, List.forall_mem_flatMap.mpr ?_⟩⟩
    rw [hh]
    exact htrailing
  · exact frontLines_again hh hp hg hk
  · rw [licenseLines_again hh hg hk hne, hprint]
    rfl

/-- What is written is written again as it is. -/
theorem process_twice (hfront : Front .before lines readings left)
    (hr : Rereadable options currentYear readings) :
    ∃ out changed, process options currentYear lines = some (out, changed) ∧
      process options currentYear out = some (out, false) := by
  let h := (headerOf options readings).canonicalize currentYear
  obtain ⟨reading, hagain, hprint⟩ := print_again hfront hr (skipEmptyLines left) (rfl : h = h)
  have hcollect : collect options lines = some (left, headerOf options readings) :=
    collect_eq_some_iff.mpr ⟨readings, hfront, rfl⟩
  have hcollect' : collect options (headerLines h ++ skipEmptyLines left) =
      some ([] :: skipEmptyLines left, headerOf options [reading]) :=
    collect_eq_some_iff.mpr ⟨[reading], hagain, rfl⟩
  have hlines : headerLines ((headerOf options [reading]).canonicalize currentYear) = headerLines h := by
    rw [headerLines, headerLines, hprint]
  have hbody : skipEmptyLines ([] :: skipEmptyLines left) = skipEmptyLines left := by
    rw [skipEmptyLines, List.dropWhile_cons_of_pos rfl]
    exact List.dropWhile_idempotent _ _
  refine ⟨headerLines h ++ skipEmptyLines left, _, by rw [process, hcollect]; rfl, ?_⟩
  rw [process, hcollect']
  simp only [Option.map_some, hlines, hbody, ne_eq, not_true_eq_false, decide_false]

end Whole

/-! ### Ordinary names and licenses -/

section Ordinary
variable {options : Options} {currentYear : Nat} {reading : Reading} {name old desc : Line}
variable {license trailing : List Line}

theorem moduleReading_of_word (hne : name ≠ []) (hword : ∀ x ∈ name, isSpace x = false)
    (hdesc : Stripped desc) (htext : desc ≠ []) (hline : OneLine desc) (hend : isCCommentEnd desc = false) :
    moduleReading name desc = [(.moduleLine, moduleText name desc)] ∧
      moduleIn (moduleText name desc) = (name, desc) := by
  have hmatch : regexMatch moduleRegexp (moduleText name desc) = _ := regexMatch_module hne hword hline
  have hdrop : desc.dropWhile isSpace = desc := by
    obtain ⟨x, xs, rfl⟩ := List.exists_cons_of_ne_nil htext
    exact List.dropWhile_cons_of_neg (by simp [hdesc.left x rfl])
  have hname : OneLine name := fun x hx => by
    constructor <;>
    · rintro rfl
      exact absurd (hword _ hx) (by decide)
  have htrim : trimRight (moduleText name desc) = moduleText name desc := by
    have hfront : ∀ front : Line, trimRight (front ++ desc) = front ++ desc := fun front => by
      rw [trimRight_append, hdesc.right, if_neg fun hnil => htext (List.isEmpty_iff.mp hnil)]
    rw [moduleText, ← List.append_assoc]
    exact hfront _
  have hback : readBack (moduleText name desc) = [moduleText name desc] := by
    refine readBack_of_isText (oneLine_append.mpr ⟨hname, oneLine_append.mpr ⟨by decide, hline⟩⟩) htrim ?_
    have hsplit : moduleText name desc = (name ++ " --".toList) ++ ' ' :: desc := by
      rw [moduleText, List.append_assoc]
      rfl
    rw [hsplit, isCCommentEnd_space]
    exact hend
  have hmodule : isModuleText (moduleText name desc) = true := by rw [isModuleText, hmatch]; rfl
  constructor
  · rw [moduleReading, if_neg hne, hback, Stage.read, Stage.read, Stage.kind]
    simp only [Place.searches, hmodule, Bool.not_true, Bool.false_and, Bool.false_eq_true, if_false, if_true]
  · rw [moduleIn, hmatch]
    simp [hdrop]

theorem partOfReading_of_word (hne : name ≠ []) (hword : ∀ x ∈ name, isSpace x = false) :
    partOfReading name = [(.partOf, partOfText name)] := by
  have hline : OneLine (partOfText name) := by
    refine oneLine_append.mpr ⟨by decide, oneLine_append.mpr ⟨fun x hx => ?_, by decide⟩⟩
    constructor <;>
    · rintro rfl
      exact absurd (hword _ hx) (by decide)
  have hends : trimRight (partOfText name) = partOfText name ∧ isCCommentEnd (partOfText name) = false := by
    have hperiod := period_end ("This file is part of ".toList ++ name)
    rwa [List.append_assoc] at hperiod
  have hmodule : isModuleText (partOfText name) = false := by
    have hnone : regexMatch moduleRegexp (partOfText name) = none :=
      regexMatch_module_none (a := "This".toList) (x := 'f') (by decide) (by decide) (by decide)
    rw [isModuleText, hnone]
    rfl
  have hfile : isFileText (partOfText name) = false := by
    have hnone : regexMatch fileRegexp (partOfText name) = none :=
      regexMatch_file_none (x := 'T') (y := 'h') (by decide)
    rw [isFileText, hnone]
    rfl
  have hcopyright : isCopyrightText (partOfText name) = false := by
    have hnone : regexSearch copyrightRegexp (partOfText name) = none := regexSearch_copyright_none hword
    rw [isCopyrightText, hnone]
    rfl
  have hpart : isPartOfText (partOfText name) = true := by
    obtain ⟨sm, hsm, -⟩ := regexSearch_partOf hne hword
    exact Option.isSome_iff_exists.mpr ⟨sm, hsm⟩
  rw [partOfReading, if_neg hne, readBack_of_isText hline hends.1 hends.2, Stage.read, Stage.read, Stage.kind]
  simp only [Place.searches, hmodule, hfile, hcopyright, hpart, Bool.not_true, Bool.false_and,
    Bool.false_eq_true, if_false, if_true, reduceCtorEq]

/-- A name without spaces in it is read from the two lines as it was printed. -/
theorem namesKept_of_word (hword : ∀ x ∈ (moduleOf options reading).1, isSpace x = false)
    (hdesc : Stripped (descOf options reading)) (hline : OneLine (descOf options reading))
    (hend : isCCommentEnd (descOf options reading) = false) :
    NamesKept options currentYear reading
      (moduleReading (moduleOf options reading).1 (descOf options reading))
      (partOfReading (moduleOf options reading).1) := by
  by_cases hne : (moduleOf options reading).1 = []
  · have hmodule : moduleOf options [] = ([], options.moduleDesc) := by
      have hgiven : options.moduleName = [] := by
        by_contra hgiven
        rw [moduleOf, if_neg hgiven] at hne
        exact hgiven hne
      exact if_pos hgiven
    rw [moduleReading, partOfReading, if_pos hne, if_pos hne]
    refine ⟨List.forall_mem_nil _, ?_, fun h => absurd hne h, rfl, rfl, List.forall_mem_nil _⟩
    rw [hne, List.append_nil, hmodule]
  · have htext : descOf options reading ≠ [] := by
      rw [descOf]
      split_ifs with hempty
      · decide
      · exact fun hnil => hempty (List.isEmpty_iff.mpr hnil)
    obtain ⟨hfront, hmodule⟩ := moduleReading_of_word hne hword hdesc htext hline hend
    rw [hfront, partOfReading_of_word hne hword]
    generalize hpair : (moduleText (moduleOf options reading).1 (descOf options reading)) = text at hmodule
    have hsame : (moduleOf options [(.moduleLine, text), (.partOf, partOfText (moduleOf options reading).1)]).1 =
        (moduleOf options reading).1 ∧
        descOf options [(.moduleLine, text), (.partOf, partOfText (moduleOf options reading).1)] =
          descOf options reading := by
      by_cases hgiven : options.moduleName = []
      · have hfirst : (nameIn options.moduleDesc (.moduleLine, text)).1 ≠ [] := by
          rw [nameIn, hmodule]
          exact hne
        have hread : moduleOf options [(.moduleLine, text), (.partOf, partOfText (moduleOf options reading).1)] =
            ((moduleOf options reading).1, descOf options reading) := by
          rw [moduleOf, if_pos hgiven, namesIn_cons_of_ne hfirst, List.headD_cons]
          exact hmodule
        refine ⟨by rw [hread], ?_⟩
        rw [descOf, hread]
        exact if_neg fun hnil => htext (List.isEmpty_iff.mp hnil)
      · have hoptions : ∀ reading, moduleOf options reading = (options.moduleName, options.moduleDesc) :=
          fun _ => if_neg hgiven
        rw [descOf, descOf, hoptions, hoptions reading]
        exact ⟨rfl, rfl⟩
    refine ⟨?_, hsame.1, fun _ => hsame.2, rfl, rfl, ?_⟩
    · simp
    · simp [textsOf]

/-- A license of ordinary lines, in which no name is put in any more. -/
theorem licenseKept_of_plain
    (hplain : ∀ text ∈ license ++ spaced trailing,
      OneLine text ∧ trimRight text = text ∧ isCCommentEnd text = false)
    (hlicense : IsLicense license) (htrailing : trailing = [] ∨ IsTrailing trailing)
    (hnamed : ∀ line ∈ license, putName name old line = line) : LicenseKept name old license trailing where
  inside := by
    refine List.forall_mem_flatMap.mpr fun text htext => ?_
    obtain ⟨hline, htrim, hend⟩ := hplain text (List.mem_append_left _ htext)
    exact printed_inside hline (by rwa [htrim])
  again := by
    refine ⟨license, trailing, flatMap_readBack fun text htext => ?_, hlicense, htrailing, ?_⟩
    · obtain ⟨hline, htrim, hend⟩ := hplain text htext
      exact readBack_of_isText hline htrim hend
    · rw [List.map_congr_left hnamed, List.map_id']

end Ordinary

section Example

def shortFile : List Line :=
  ["// Copyright 2020 Carlo Wood".toList, "// free software www.gnu.org".toList, "int x;".toList]

def shortReading : Reading :=
  [(.copyright, "Copyright 2020 Carlo Wood".toList), (.license, "free software www.gnu.org".toList)]

theorem front_shortFile : Front .before shortFile [shortReading] ["int x;".toList] := by
  have htexts : plainTexts "// Copyright 2020 Carlo Wood".toList
      ["// free software www.gnu.org".toList, "int x;".toList] =
        ["Copyright 2020 Carlo Wood".toList, "free software www.gnu.org".toList] := by decide +kernel
  have hread : Stage.read ⟨.before, false⟩ false
      ["Copyright 2020 Carlo Wood".toList, "free software www.gnu.org".toList] = shortReading := by
    decide +kernel
  have hends : Ends false shortFile := ⟨"int x;".toList, by simp [shortFile], by decide⟩
  have hmodule : ¬ ModuleOnly .before (plainTexts "// Copyright 2020 Carlo Wood".toList
      ["// free software www.gnu.org".toList, "int x;".toList]) := by
    rw [htexts]
    rintro ⟨hmodule, -⟩
    revert hmodule
    decide +kernel
  rw [← hread, ← htexts]
  exact .last _ _ rfl hends hmodule

theorem rereadable_shortFile : Rereadable ⟨"foo".toList, "bar".toList⟩ 2024 [shortReading] where
  brief := by decide
  lines := by decide
  year := by decide +kernel
  author := by decide +kernel
  authorStart := by decide +kernel
  inside := by decide +kernel
  names := namesKept_of_word (by decide +kernel) (by decide +kernel) (by decide +kernel) (by decide +kernel)
  license := licenseKept_of_plain (by decide +kernel) ⟨by decide +kernel, by decide +kernel, by decide +kernel⟩
    (.inl rfl) (by decide +kernel)

/-- A description of spaces is not read back, and need not be. -/
example : Rereadable ⟨"foo".toList, "  ".toList⟩ 2024
    [[(.copyright, "Copyright 2020 Carlo Wood".toList)]] where
  brief := by decide
  lines := by decide
  year := by decide +kernel
  author := by decide +kernel
  authorStart := by decide +kernel
  inside := by decide +kernel
  names := ⟨by decide +kernel, by decide +kernel, fun _ => by decide +kernel, by decide +kernel,
    by decide +kernel, by decide +kernel⟩
  license := licenseKept_of_plain (by decide +kernel) ⟨by decide +kernel, by decide +kernel, by decide +kernel⟩
    (.inl rfl) (by decide +kernel)

end Example

-- The condition is not needed where two misreadings make up for each other: the copyright
-- line with the author `X` is not found again, but the line with the name is taken for one.
example :
    let options : Options := ⟨"@file copyright by Carlo Wood 2020 X".toList, []⟩
    let text := "Copyright Carlo Wood 2020 X".toList
    let lines := ["// ".toList ++ text, "// free software www.gnu.org".toList, "int x;".toList]
    authorOf [(.copyright, text)] = ['X'] ∧
      (process options 2020 lines).map (fun p => decide (process options 2020 p.1 = some (p.1, false))) =
        some true := by
  decide +kernel

end RewriteHeader
