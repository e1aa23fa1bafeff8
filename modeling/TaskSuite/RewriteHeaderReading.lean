import TaskSuite.RewriteHeaderStated
import TaskSuite.RewriteHeaderText

/-! What the comments at the front of a file say: each text in them is taken for
something, and the header that `process` finds is put together of these texts. -/
namespace RewriteHeader
open Regex

/-! ### What a text is taken for -/

/-- What a text is taken for at a stage of its comment. Lines behind a copyright
line are signed. -/
def Stage.kind (stage : Stage) (signed : Bool) (text : Line) : State :=
  if !stage.place.searches then stage.place.state
  else if stage.afterFile && isBriefText text then .brief
  else if isModuleText text then .moduleLine
  else if isFileText text then .file
  else if isCopyrightText text then .copyright
  else if stage.place = .after then if text.isEmpty then .searching else .trailing
  else if isPartOfText text then .partOf
  else if isLicenseStart text then .license
  else if signed && !text.isEmpty then .signature
  else .searching

/-- The texts of a comment, each with what it is taken for. -/
abbrev Reading := List (State × Line)

def Stage.read : Stage → Bool → List Line → Reading
  | _, _, [] => []
  | stage, signed, text :: texts =>
      (stage.kind signed text, text) ::
        (stage.next text).read (signed || decide (stage.kind signed text = .copyright)) texts

/-- The readings of the comments at the front of the lines, up to the first that does
not only name the module, and the lines behind them. -/
inductive Front : Place → List Line → List Reading → List Line → Prop
  | last {place : Place} {lines : List Line} (line : Line) (rest : List Line)
      (hskip : skipEmptyLines lines = line :: rest)
      (hends : Ends (isCCommentAt line) (line :: rest))
      (hlast : ¬ ModuleOnly place (plainTexts line rest)) :
      Front place lines [Stage.read ⟨place, false⟩ false (plainTexts line rest)]
        (linesBehind (isCCommentAt line) (line :: rest))
  | more {place : Place} {lines left : List Line} {readings : List Reading} (line : Line)
      (rest : List Line) (hskip : skipEmptyLines lines = line :: rest)
      (hends : Ends (isCCommentAt line) (line :: rest))
      (hmodule : ModuleOnly place (plainTexts line rest))
      (hmore : Front ((plainTexts line rest).foldl Place.next place).nextComment
        (linesBehind (isCCommentAt line) (line :: rest)) readings left) :
      Front place lines (Stage.read ⟨place, false⟩ false (plainTexts line rest) :: readings) left

/-! ### What the texts hold -/

def textsOf (kind : State) (reading : Reading) : List Line :=
  (reading.filter fun p => p.1 = kind).map Prod.snd

def moduleIn (text : Line) : Line × Line :=
  match regexMatch moduleRegexp text with
  | some sm => (sm 1, sm 2)
  | none => ([], [])

def briefIn (text : Line) : Line :=
  match regexMatch briefRegexp text with
  | some sm => sm 1
  | none => []

def partOfIn (text : Line) : Line :=
  match regexSearch partOfRegexp text with
  | some sm => sm 1
  | none => []

def yearsIn (text : Line) : List Nat :=
  ((Header.new ⟨[], []⟩).decodeCopyrightLine text).copyrightYears

def authorIn (text : Line) : Line := ((Header.new ⟨[], []⟩).decodeCopyrightLine text).author

/-- The name that a text gives for the module, and the description, which otherwise is `desc`. -/
def nameIn (desc : Line) : State × Line → Line × Line
  | (.moduleLine, text) => moduleIn text
  | (.partOf, text) => (partOfIn text, desc)
  | _ => ([], desc)

def namesIn (desc : Line) (reading : Reading) : List (Line × Line) :=
  (reading.map (nameIn desc)).filter fun name => name.1 ≠ []

/-- The name of the module and its description: the given ones, or the first in the texts. -/
def moduleOf (options : Options) (reading : Reading) : Line × Line :=
  if options.moduleName = [] then
    (namesIn options.moduleDesc reading).headD ([], options.moduleDesc)
  else (options.moduleName, options.moduleDesc)

/-- The last name that is not the name of the module. -/
def oldNameIn (name : Line) (reading : Reading) : Line :=
  (((textsOf .partOf reading).map partOfIn).filter (· ≠ name)).getLastD []

/-- The lines behind the license: of the empty ones only one is kept between two others. -/
def trailingLines : List Line → List Line
  | [] => []
  | text :: texts =>
      let lines := trailingLines texts
      if text.isEmpty && (lines.headD []).isEmpty then lines else text :: lines

def headerOf (options : Options) (readings : List Reading) : Header where
  moduleName := (moduleOf options readings.flatten).1
  moduleDesc := (moduleOf options readings.flatten).2
  oldModuleName := oldNameIn (moduleOf options readings.flatten).1 readings.flatten
  brief := ((textsOf .brief readings.flatten).map briefIn).getLastD []
  copyrightYears := (textsOf .copyright readings.flatten).flatMap yearsIn
  author := ((textsOf .copyright readings.flatten).map authorIn).getLastD []
  signature := textsOf .signature readings.flatten
  license := textsOf .license readings.flatten
  trailing := readings.flatMap fun reading => trailingLines (textsOf .trailing reading)

/-! ### The lines one by one -/

section Kind
variable {s : Scan} {stage : Stage} {signed : Bool} {text : Line}

theorem Scan.Stands.search_eq (h : s.Stands stage) (hsearch : stage.place.searches = true)
    (hmodule : isModuleText text = false) (hfile : isFileText text = false)
    (hcopyright : isCopyrightText text = false) : (s.search text).1 =
      if stage.place = .after then if text.isEmpty then .searching else .trailing
      else if isPartOfText text then .partOf
      else if isLicenseStart text then .license
      else if s.sawCopyright && !text.isEmpty then .signature
      else .searching := by
  have hfile : regexMatch fileRegexp text = none :=
    Option.not_isSome_iff_eq_none.mp (Bool.eq_false_iff.mp hfile)
  have hcopyright : regexSearch copyrightRegexp text = none :=
    Option.not_isSome_iff_eq_none.mp (Bool.eq_false_iff.mp hcopyright)
  have hlicense := h.license hsearch
  rw [Scan.search, h.firstLine, if_pos rfl, regexMatch_eq_none hmodule, hfile, hcopyright, hlicense]
  cases hplace : stage.place with
  | license | trailing => simp [hplace, Place.searches] at hsearch
  | after => cases text <;> simp
  | before =>
      cases hpart : regexSearch partOfRegexp text with
      | some sm => simp [isPartOfText, hpart]
      | none =>
          cases hstart : regexSearch licenseStartRegexp text with
          | some sm => simp [isPartOfText, hpart, isLicenseStart, hstart]
          | none =>
              simp only [isPartOfText, hpart, isLicenseStart, hstart]
              split_ifs <;> simp_all

/-- The loop takes a text for what it is at this stage. -/
theorem Scan.Stands.classify_eq (h : s.Stands stage) (text : Line) :
    (s.classify text).1 = stage.kind s.sawCopyright text := by
  rw [Stage.kind]
  cases hsearch : stage.place.searches with
  | false => exact h.classify_skipped text hsearch
  | true =>
  cases hbrief : stage.afterFile && isBriefText text with
  | true => exact h.classify_brief hbrief
  | false =>
  rw [h.classify_search hsearch hbrief]
  cases hmodule : isModuleText text with
  | true => exact h.search_module hmodule
  | false =>
  cases hfile : isFileText text with
  | true => exact h.search_file hmodule hfile
  | false =>
  cases hcopyright : isCopyrightText text with
  | true => exact h.search_copyright hmodule hfile hcopyright
  | false => exact h.search_eq hsearch hmodule hfile hcopyright

/-- What a text of a kind looks like, if it is one that something is taken out of. -/
def State.Suits (text : Line) : State → Prop
  | .moduleLine => isModuleText text = true
  | .brief => isBriefText text = true
  | .copyright => isCopyrightText text = true
  | .partOf => isPartOfText text = true
  | _ => True

theorem Stage.suits_kind (stage : Stage) (signed : Bool) (text : Line) :
    (stage.kind signed text).Suits text := by
  rw [Stage.kind]
  split_ifs with _ hbrief hmodule _ hcopyright _ _ hpart
  · cases stage.place <;> trivial
  · exact (Bool.and_eq_true_iff.mp hbrief).2
  · exact hmodule
  · trivial
  · exact hcopyright
  · trivial
  · trivial
  · exact hpart
  · trivial
  · trivial
  · trivial

/-- The groups that are used of the regex that a text of this kind has been found with. -/
def State.captures (text : Line) : State → Captures
  | .moduleLine => (regexMatch moduleRegexp text).getD fun _ => []
  | .brief => (regexMatch briefRegexp text).getD fun _ => []
  | .partOf => (regexSearch partOfRegexp text).getD fun _ => []
  | _ => fun _ => []

theorem Scan.handle_search (s t : Scan) (text : Line) :
    t.handle text (s.search text) =
      t.handle text ((s.search text).1, (s.search text).1.captures text) := by
  rw [Scan.search]
  cases hmodule : (if s.firstLine then regexMatch moduleRegexp text else none) with
  | some sm =>
      have hmodule : regexMatch moduleRegexp text = some sm := by
        split_ifs at hmodule
        exact hmodule
      simp only [State.captures, hmodule, Option.getD_some]
  | none =>
  cases regexMatch fileRegexp text with
  | some sm => rfl
  | none =>
  cases regexSearch copyrightRegexp text with
  | some sm => rfl
  | none =>
  cases hpart : (if s.sawLicense then none else regexSearch partOfRegexp text) with
  | some sm =>
      have hpart : regexSearch partOfRegexp text = some sm := by
        split_ifs at hpart
        exact hpart
      simp only [State.captures, hpart, Option.getD_some]
  | none =>
  cases (if s.sawLicense then none else regexSearch licenseStartRegexp text) with
  | some sm => rfl
  | none =>
      simp only
      split_ifs <;> rfl

theorem Scan.Stands.readText_eq (h : s.Stands stage) (text : Line) :
    s.readText text = s.handle text
      (stage.kind s.sawCopyright text, (stage.kind s.sawCopyright text).captures text) := by
  have hresting : s.state ∈ [State.searching, .file, .license, .trailing] := by
    rw [h.state]
    cases stage.place <;> cases stage.afterFile <;> decide
  rw [← h.classify_eq, Scan.readText, Scan.classify]
  cases hstate : s.state with
  | searching => exact s.handle_search s text
  | file =>
      cases hbrief : regexMatch briefRegexp text with
      | some sm => simp only [State.captures, hbrief, Option.getD_some]
      | none => exact s.handle_search s text
  | license => rfl
  | trailing => rfl
  | moduleLine | brief | copyright | signature | partOf =>
      rw [hstate] at hresting
      exact absurd hresting (by decide)

end Kind

/-! ### What a line changes -/

/-- What a text of a kind does to the header, apart from the trailing lines. -/
structure Header.Takes (h h' : Header) (kind : State) (text : Line) : Prop where
  module : (h'.moduleName, h'.moduleDesc) =
    if h.moduleName = [] then (namesIn h.moduleDesc [(kind, text)]).headD ([], h.moduleDesc)
    else (h.moduleName, h.moduleDesc)
  oldName : h'.oldModuleName =
    if kind = .partOf ∧ h.moduleName ≠ [] ∧ partOfIn text ≠ h.moduleName then partOfIn text
    else h.oldModuleName
  brief : h'.brief = if kind = .brief then briefIn text else h.brief
  years : h'.copyrightYears = h.copyrightYears ++ if kind = .copyright then yearsIn text else []
  author : h'.author = if kind = .copyright then authorIn text else h.author
  signature : h'.signature = h.signature ++ if kind = .signature then [text] else []
  license : h'.license = h.license ++ if kind = .license then [text] else []

/-- What the texts of a reading do to the header, apart from the trailing lines. -/
structure Header.Gathers (h h' : Header) (reading : Reading) : Prop where
  module : (h'.moduleName, h'.moduleDesc) =
    if h.moduleName = [] then (namesIn h.moduleDesc reading).headD ([], h.moduleDesc)
    else (h.moduleName, h.moduleDesc)
  oldName : (h.moduleName = [] → h.oldModuleName = []) →
    (h'.moduleName = [] → h'.oldModuleName = []) ∧
    h'.oldModuleName = (((textsOf .partOf reading).map partOfIn).filter
      (· ≠ h'.moduleName)).getLastD h.oldModuleName
  brief : h'.brief = ((textsOf .brief reading).map briefIn).getLastD h.brief
  years : h'.copyrightYears = h.copyrightYears ++ (textsOf .copyright reading).flatMap yearsIn
  author : h'.author = ((textsOf .copyright reading).map authorIn).getLastD h.author
  signature : h'.signature = h.signature ++ textsOf .signature reading
  license : h'.license = h.license ++ textsOf .license reading

section Texts
variable {kind kind' : State} {text : Line} {reading more : Reading} {desc : Line}

theorem textsOf_cons : textsOf kind ((kind', text) :: reading) =
    if kind' = kind then text :: textsOf kind reading else textsOf kind reading := by
  rw [textsOf, List.filter_cons]
  by_cases hkind : kind' = kind
  · simp [hkind, textsOf]
  · simp [hkind, textsOf]

theorem mem_textsOf : text ∈ textsOf kind reading ↔ (kind, text) ∈ reading := by
  constructor
  · intro hmem
    obtain ⟨p, hp, rfl⟩ := List.mem_map.mp hmem
    obtain ⟨hp, hkind⟩ := List.mem_filter.mp hp
    rwa [← of_decide_eq_true hkind]
  · intro hmem
    exact List.mem_map.mpr ⟨(kind, text), List.mem_filter.mpr ⟨hmem, decide_eq_true rfl⟩, rfl⟩

theorem textsOf_append : textsOf kind (reading ++ more) = textsOf kind reading ++ textsOf kind more := by
  rw [textsOf, List.filter_append, List.map_append, textsOf, textsOf]

theorem textsOf_flatten (kind : State) (readings : List Reading) :
    textsOf kind readings.flatten = readings.flatMap (textsOf kind) := by
  induction readings with
  | nil => rfl
  | cons reading readings ih => rw [List.flatten_cons, textsOf_append, ih, List.flatMap_cons]

theorem namesIn_append : namesIn desc (reading ++ more) = namesIn desc reading ++ namesIn desc more := by
  rw [namesIn, List.map_append, List.filter_append, namesIn, namesIn]

theorem namesIn_cons_of_ne {p : State × Line} (h : (nameIn desc p).1 ≠ []) :
    namesIn desc (p :: reading) = nameIn desc p :: namesIn desc reading :=
  List.filter_cons_of_pos (by simpa using h)

theorem namesIn_cons_of_eq {p : State × Line} (h : (nameIn desc p).1 = []) :
    namesIn desc (p :: reading) = namesIn desc reading :=
  List.filter_cons_of_neg (by simpa using h)

end Texts

theorem getLastD_append {α : Type} {l m : List α} {a : α} :
    (l ++ m).getLastD a = m.getLastD (l.getLastD a) := by
  induction l generalizing a with
  | nil => rfl
  | cons b l ih => rw [List.cons_append, List.getLastD_cons, List.getLastD_cons, ih]

theorem partOfIn_eq_nil {desc : Line} {reading : Reading} (h : namesIn desc reading = []) :
    ∀ t ∈ textsOf .partOf reading, partOfIn t = [] := by
  intro t ht
  obtain ⟨⟨kind, text⟩, hmem, rfl⟩ := List.mem_map.mp ht
  obtain ⟨hmem, hkind⟩ := List.mem_filter.mp hmem
  obtain rfl : kind = .partOf := of_decide_eq_true hkind
  have hnot := List.filter_eq_nil_iff.mp h _ (List.mem_map_of_mem hmem)
  by_contra hne
  exact hnot (decide_eq_true hne)

section Takes
variable {h h' h₁ : Header} {kind : State} {text : Line} {reading more : Reading}

theorem Header.Gathers.nil (h : Header) : h.Gathers h [] where
  module := by
    split_ifs with hname
    · exact Prod.ext hname rfl
    · rfl
  oldName hold := ⟨hold, rfl⟩
  brief := rfl
  years := (List.append_nil _).symm
  author := rfl
  signature := (List.append_nil _).symm
  license := (List.append_nil _).symm

theorem Header.Gathers.moduleName_eq_nil (hg : h.Gathers h' reading) (hnil : h'.moduleName = []) :
    h.moduleName = [] ∧ namesIn h.moduleDesc reading = [] := by
  have hmodule := hg.module
  by_cases hname : h.moduleName = []
  · refine ⟨hname, ?_⟩
    rw [if_pos hname] at hmodule
    cases hnames : namesIn h.moduleDesc reading with
    | nil => rfl
    | cons p names =>
        have hmem : p ∈ namesIn h.moduleDesc reading := hnames ▸ List.mem_cons_self ..
        have hne : p.1 ≠ [] := by simpa using (List.mem_filter.mp hmem).2
        rw [hnames, List.headD_cons] at hmodule
        rw [← hmodule] at hne
        exact absurd hnil hne
  · rw [if_neg hname] at hmodule
    exact absurd ((Prod.mk.inj hmodule).1.symm.trans hnil) hname

theorem Header.Gathers.append (ha : h.Gathers h₁ reading) (hb : h₁.Gathers h' more) :
    h.Gathers h' (reading ++ more) where
  module := by
    rw [hb.module]
    have hfirst := ha.module
    by_cases hname : h.moduleName = []
    · rw [if_pos hname] at hfirst ⊢
      rw [namesIn_append]
      cases hnames : namesIn h.moduleDesc reading with
      | nil =>
          rw [hnames, List.headD_nil] at hfirst
          obtain ⟨hnil, hdesc⟩ := Prod.mk.inj hfirst
          rw [if_pos hnil, hdesc, List.nil_append]
      | cons p names =>
          have hmem : p ∈ namesIn h.moduleDesc reading := hnames ▸ List.mem_cons_self ..
          have hne : p.1 ≠ [] := by simpa using (List.mem_filter.mp hmem).2
          rw [hnames, List.headD_cons] at hfirst
          rw [if_neg (by rw [← hfirst] at hne; exact hne), hfirst, List.cons_append, List.headD_cons]
    · rw [if_neg hname] at hfirst ⊢
      rw [if_neg (by rw [(Prod.mk.inj hfirst).1]; exact hname), hfirst]
  oldName hold := by
    obtain ⟨hold₁, heq₁⟩ := ha.oldName hold
    obtain ⟨hold', heq⟩ := hb.oldName hold₁
    refine ⟨hold', ?_⟩
    rw [heq, textsOf_append, List.map_append, List.filter_append, getLastD_append]
    by_cases hname : h₁.moduleName = []
    · have hnames := ha.moduleName_eq_nil hname
      have hall : ∀ name ∈ ((textsOf .partOf reading).map partOfIn).filter (· ≠ h'.moduleName),
          name = [] := by
        intro name hmem
        obtain ⟨t, ht, rfl⟩ := List.mem_map.mp (List.mem_filter.mp hmem).1
        exact partOfIn_eq_nil hnames.2 t ht
      have hnil : (((textsOf .partOf reading).map partOfIn).filter
          (· ≠ h'.moduleName)).getLastD h.oldModuleName = [] := by
        rw [hold hnames.1]
        exact (List.mem_cons.mp List.getLastD_mem_cons).elim id (hall _)
      rw [hold₁ hname, hnil]
    · have hsame : h'.moduleName = h₁.moduleName :=
        (Prod.mk.inj (hb.module.trans (if_neg hname))).1
      rw [heq₁, hsame]
  brief := by
    rw [hb.brief, ha.brief, textsOf_append, List.map_append, getLastD_append]
  years := by
    rw [hb.years, ha.years, textsOf_append, List.flatMap_append, List.append_assoc]
  author := by
    rw [hb.author, ha.author, textsOf_append, List.map_append, getLastD_append]
  signature := by
    rw [hb.signature, ha.signature, textsOf_append, List.append_assoc]
  license := by
    rw [hb.license, ha.license, textsOf_append, List.append_assoc]

theorem Header.Takes.gathers (ht : h.Takes h' kind text) : h.Gathers h' [(kind, text)] where
  module := ht.module
  oldName hold := by
    have hmodule := ht.module
    rw [ht.oldName, textsOf_cons]
    by_cases hname : h.moduleName = []
    · rw [if_neg fun hkind => hkind.2.1 hname, hold hname]
      refine ⟨fun _ => rfl, ?_⟩
      split_ifs with hkind
      · obtain rfl := hkind
        rw [if_pos hname] at hmodule
        by_cases hpart : partOfIn text = []
        · rw [show textsOf .partOf [] = [] from rfl, List.map_singleton, hpart]
          simp only [List.filter_cons, List.filter_nil]
          split_ifs <;> rfl
        · have hfirst : (nameIn h.moduleDesc (.partOf, text)).1 ≠ [] := hpart
          rw [namesIn_cons_of_ne hfirst, List.headD_cons] at hmodule
          rw [(Prod.mk.inj hmodule).1]
          simp [textsOf]
      · rfl
    · rw [if_neg hname] at hmodule
      obtain ⟨hsame, -⟩ := Prod.mk.inj hmodule
      refine ⟨fun hnil => absurd (hsame.symm.trans hnil) hname, ?_⟩
      rw [hsame]
      by_cases hkind : kind = .partOf
      · by_cases hpart : partOfIn text = h.moduleName
        · simp [hkind, hpart, textsOf]
        · simp [hkind, hpart, hname, textsOf]
      · simp [hkind, textsOf]
  brief := by
    rw [ht.brief, textsOf_cons]
    split_ifs <;> rfl
  years := by
    rw [ht.years, textsOf_cons]
    split_ifs
    · exact congrArg (h.copyrightYears ++ ·) (List.append_nil _).symm
    · rfl
  author := by
    rw [ht.author, textsOf_cons]
    split_ifs <;> rfl
  signature := ht.signature.trans (by rw [textsOf_cons]; rfl)
  license := ht.license.trans (by rw [textsOf_cons]; rfl)

end Takes

/-! ### The header of a comment -/

section Scan
variable {s : Scan} {stage : Stage} {signed : Bool} {text : Line}

theorem not_noMark_of_isCopyrightText (h : isCopyrightText text = true) : ¬ NoMark text := by
  obtain ⟨sm, hsm⟩ := Option.isSome_iff_exists.mp h
  obtain ⟨f, hfind, -⟩ := Option.map_eq_some_iff.mp hsm
  obtain ⟨first, t, pos, ht, c, ⟨pos₁, c₁, ⟨x, hx, hC, -⟩, pos₂, c₂, hword, -⟩, -⟩ :=
    find_matches hfind
  obtain ⟨hrest, -⟩ := matches_literal.mp hword
  refine fun hno => hno t ht ⟨x, ' ', by simpa using hC, by decide, pos₂.rest, ?_⟩
  have hx : t = x :: pos₁.rest := hx
  rw [hx, hrest]
  rfl

theorem oneLine_decodeCopyrightLine {found : Header} (htext : OneLine text)
    (h : isCopyrightText text = true) : OneLine (found.decodeCopyrightLine text).author := by
  obtain ⟨items, rest, hlist⟩ := exists_yearList (not_noMark_of_isCopyrightText h)
  have hrest := htext.of_suffix hlist.rest_suffix
  rw [hlist.decode htext]
  exact fun x hx => hrest x ((List.rdropWhile_prefix _ rest).subset hx)

theorem decodeCopyrightLine_eq (htext : OneLine text) (h : isCopyrightText text = true) (header : Header) :
    header.decodeCopyrightLine text =
      { header with
        copyrightYears := header.copyrightYears ++ yearsIn text, author := authorIn text } := by
  obtain ⟨items, rest, hlist⟩ := exists_yearList (not_noMark_of_isCopyrightText h)
  rw [yearsIn, authorIn, hlist.decode htext, hlist.decode htext]
  rfl

theorem moduleIn_spec (h : isModuleText text = true) : (moduleIn text).1 ≠ [] ∧
    ∃ a b, text = (moduleIn text).1 ++ (a ++ ("--".toList ++ (b ++ (moduleIn text).2))) ∧
      (∀ x ∈ a, isSpace x = true) ∧ a ≠ [] ∧ ∀ x ∈ b, isSpace x = true := by
  obtain ⟨sm, hsm⟩ := Option.isSome_iff_exists.mp h
  obtain ⟨pos, c, ⟨pos₁, c₁, ⟨c₀, ⟨pos₀, c₀', ⟨x, hx, -, -, rfl⟩, hmore⟩, rfl⟩, pos₂, c₂,
    ⟨pos₂', c₂', ⟨y, hy, hspace, -, rfl⟩, hspaces⟩, pos₃, c₃, hdashes, pos₄, c₄,
    ⟨pos₄', c₄', ⟨z, hz, hspace', -, rfl⟩, hspaces'⟩, pos₅, c₅, ⟨c₆, hdots, rfl⟩, rfl, rfl⟩, hk⟩ :=
    run_sound hsm
  split_ifs at hk with hend
  obtain ⟨d, hd, -⟩ := hmore.exists_append
  obtain ⟨a, ha, hblank⟩ := hspaces.exists_append
  obtain ⟨b, hb, hblank'⟩ := hspaces'.exists_append
  obtain ⟨hmark, -, rfl⟩ := matches_literal.mp hdashes
  have htext : text = (x :: d) ++ pos₁.rest := by
    rw [List.cons_append, ← hd]
    exact hx
  have hc₆ := hdots.captures_eq
  have hc₄ := hspaces'.captures_eq
  have hc₂ := hspaces.captures_eq
  subst hc₆ hc₄ hc₂
  cases hk
  have hname : (moduleIn text).1 = x :: d := by
    rw [moduleIn, hsm]
    simp only [Function.update_of_ne (show 1 ≠ 2 by decide), Function.update_self]
    rw [htext, take_front]
  have hdesc : (moduleIn text).2 = pos₄.rest := by
    rw [moduleIn, hsm]
    simp only [Function.update_self, List.isEmpty_iff.mp hend, List.length_nil, Nat.sub_zero,
      List.take_length]
  rw [hname, hdesc]
  refine ⟨List.cons_ne_nil x d, y :: a, z :: b, ?_, List.forall_mem_cons.mpr ⟨hspace, hblank⟩,
    List.cons_ne_nil y a, List.forall_mem_cons.mpr ⟨hspace', hblank'⟩⟩
  rw [htext, hy, ha, hmark, hz, hb]
  rfl

theorem briefIn_spec (h : isBriefText text = true) : ∃ x a, (x = '@' ∨ x = '\\') ∧
    (∀ y ∈ a, isSpace y = true) ∧ text = x :: ("brief".toList ++ (a ++ briefIn text)) := by
  obtain ⟨sm, hsm⟩ := Option.isSome_iff_exists.mp h
  obtain ⟨pos, c, ⟨pos₁, c₁, ⟨x, hx, hcase, -, rfl⟩, pos₂, c₂, hbrief, pos₃, c₃,
    ⟨pos₃', c₃', ⟨y, hy, hspace, -, rfl⟩, hspaces⟩, pos₄, c₄, ⟨c₅, hdots, rfl⟩, rfl, rfl⟩, hk⟩ :=
    run_sound hsm
  split_ifs at hk with hend
  obtain ⟨a, ha, hblank⟩ := hspaces.exists_append
  obtain ⟨hword, -, rfl⟩ := matches_literal.mp hbrief
  have hx : text = x :: pos₁.rest := hx
  have hgroup : briefIn text = pos₃.rest := by
    rw [briefIn, hsm]
    cases hk
    simp only [Function.update_self, List.isEmpty_iff.mp hend, List.length_nil, Nat.sub_zero,
      List.take_length]
  refine ⟨x, y :: a, by simpa [oneOf] using hcase, List.forall_mem_cons.mpr ⟨hspace, hblank⟩, ?_⟩
  rw [hgroup, hx, hword, hy, ha]
  rfl

theorem partOfIn_chars (text : Line) : ∀ x ∈ partOfIn text, isPartOfChar x = true := by
  rw [partOfIn]
  cases h : regexSearch partOfRegexp text with
  | none => exact nofun
  | some sm => exact partOfRegexp_eq_some h

theorem Header.module_same {h : Header} {kind : State}
    (hkind : nameIn h.moduleDesc (kind, text) = ([], h.moduleDesc)) :
    (h.moduleName, h.moduleDesc) =
      if h.moduleName = [] then (namesIn h.moduleDesc [(kind, text)]).headD ([], h.moduleDesc)
      else (h.moduleName, h.moduleDesc) := by
  have hnames : namesIn h.moduleDesc [(kind, text)] = [] :=
    namesIn_cons_of_eq (by rw [hkind])
  split_ifs with hname
  · rw [hnames, List.headD_nil, hname]
  · rfl

/-- The step: what a line changes in the header. -/
theorem Scan.Stands.takes (h : s.Stands stage) (htext : OneLine text) :
    s.header.Takes (s.readText text).header (stage.kind s.sawCopyright text) text := by
  rw [h.readText_eq]
  have hsuits := stage.suits_kind s.sawCopyright text
  generalize stage.kind s.sawCopyright text = kind at hsuits ⊢
  have hnil : ∀ {α : Type} (l : List α), l = l ++ [] := fun l => (List.append_nil l).symm
  cases kind with
  | searching | file => exact ⟨Header.module_same rfl, rfl, rfl, hnil _, rfl, hnil _, hnil _⟩
  | signature => exact ⟨Header.module_same rfl, rfl, rfl, hnil _, rfl, rfl, hnil _⟩
  | license => exact ⟨Header.module_same rfl, rfl, rfl, hnil _, rfl, hnil _, rfl⟩
  | brief =>
      refine ⟨Header.module_same rfl, rfl, ?_, hnil _, rfl, hnil _, hnil _⟩
      rw [if_pos rfl, briefIn]
      simp only [handle, State.captures, Header.setBrief]
      cases regexMatch briefRegexp text <;> rfl
  | copyright =>
      have hdecode := decodeCopyrightLine_eq htext hsuits s.header
      simp only [handle, hdecode]
      exact ⟨Header.module_same rfl, rfl, rfl, rfl, rfl, hnil _, hnil _⟩
  | trailing =>
      have hsame : ∀ t, s.header.Takes { s.header with trailing := t } .trailing text := fun t =>
        ⟨Header.module_same rfl, rfl, rfl, hnil _, rfl, hnil _, hnil _⟩
      simp only [handle, Header.addTrailingLine]
      split_ifs
      · exact hsame _
      · exact hsame _
      · exact hsame _
  | moduleLine =>
      have hname := (moduleIn_spec hsuits).1
      have hmoduleIn : moduleIn text =
          (State.captures text .moduleLine 1, State.captures text .moduleLine 2) := by
        rw [moduleIn, State.captures]
        cases regexMatch moduleRegexp text <;> rfl
      have hnames : namesIn s.header.moduleDesc [(.moduleLine, text)] = [moduleIn text] :=
        namesIn_cons_of_ne (show (nameIn _ (.moduleLine, text)).1 ≠ [] from hname)
      simp only [handle, Header.setModule]
      by_cases hempty : s.header.moduleName = []
      · rw [if_pos (List.isEmpty_iff.mpr hempty)]
        refine ⟨?_, rfl, rfl, hnil _, rfl, hnil _, hnil _⟩
        rw [if_pos hempty, hnames, List.headD_cons, hmoduleIn]
      · rw [if_neg fun he => hempty (List.isEmpty_iff.mp he)]
        exact ⟨(if_neg hempty).symm, rfl, rfl, hnil _, rfl, hnil _, hnil _⟩
  | partOf =>
      have hpartOf : State.captures text .partOf 1 = partOfIn text := by
        rw [partOfIn, State.captures]
        cases regexSearch partOfRegexp text <;> rfl
      simp only [handle, Header.setPartOf, hpartOf]
      by_cases hempty : s.header.moduleName = []
      · rw [if_pos (List.isEmpty_iff.mpr hempty)]
        refine ⟨?_, ?_, rfl, hnil _, rfl, hnil _, hnil _⟩
        · rw [if_pos hempty]
          by_cases hpart : partOfIn text = []
          · rw [namesIn_cons_of_eq (show (nameIn _ (.partOf, text)).1 = [] from hpart), hpart]
            rfl
          · rw [namesIn_cons_of_ne (show (nameIn _ (.partOf, text)).1 ≠ [] from hpart)]
            rfl
        · rw [if_neg fun hkind => hkind.2.1 hempty]
      · rw [if_neg fun he => hempty (List.isEmpty_iff.mp he)]
        by_cases hsame : s.header.moduleName = partOfIn text
        · rw [if_neg (not_not.mpr hsame)]
          exact ⟨(if_neg hempty).symm, (if_neg fun hkind => hkind.2.2 hsame.symm).symm, rfl, hnil _, rfl,
            hnil _, hnil _⟩
        · rw [if_pos hsame]
          exact ⟨(if_neg hempty).symm, (if_pos ⟨rfl, hempty, Ne.symm hsame⟩).symm, rfl, hnil _, rfl,
            hnil _, hnil _⟩

/-- The run: what the lines of a comment change. -/
theorem Scan.Stands.gathers {texts : List Line} (h : s.Stands stage) (htexts : ∀ text ∈ texts, OneLine text) :
    s.header.Gathers (texts.foldl Scan.readText s).header (stage.read s.sawCopyright texts) := by
  induction texts generalizing s stage with
  | nil => exact .nil _
  | cons text texts ih =>
      obtain ⟨htext, htexts⟩ := List.forall_mem_cons.mp htexts
      have hcopyright := (s.readText_behind text).sawCopyright
      rw [h.classify_eq] at hcopyright
      have hrest := ih (h.next text).1 htexts
      rw [hcopyright] at hrest
      exact (h.takes htext).gathers.append hrest

theorem trailingLines_cons_of_ne {texts : List Line} (h : text ≠ []) :
    trailingLines (text :: texts) = text :: trailingLines texts := by
  have hempty : text.isEmpty = false := by simpa using h
  rw [trailingLines, hempty, Bool.false_and]
  rfl

theorem trailingLines_nil_cons (h : text ≠ []) (texts : List Line) :
    trailingLines ([] :: text :: texts) = [] :: text :: trailingLines texts := by
  have hempty : text.isEmpty = false := by simpa using h
  have hlines : trailingLines (text :: texts) = _ := trailingLines_cons_of_ne h
  rw [trailingLines, hlines]
  simp only [List.isEmpty_nil, List.headD_cons, hempty, Bool.and_false, Bool.false_eq_true, if_false]

theorem trailingLines_nil_nil (texts : List Line) :
    trailingLines ([] :: [] :: texts) = trailingLines ([] :: texts) := by
  have hhead : ((trailingLines ([] :: texts)).headD []).isEmpty = true := by
    rw [trailingLines]
    simp only [List.isEmpty_nil, Bool.true_and]
    split_ifs with hempty
    · exact hempty
    · rfl
  generalize hlines : [] :: texts = lines at hhead ⊢
  rw [trailingLines]
  simp only [hhead, List.isEmpty_nil, Bool.and_self, if_true]

theorem Scan.handle_trailing_of_ne {kind : State} {sm : Captures} (hkind : kind ≠ .trailing) :
    (s.handle text (kind, sm)).header.trailing = s.header.trailing ∧
      (s.handle text (kind, sm)).trailingEmptyLine = s.trailingEmptyLine := by
  cases kind with
  | trailing => exact absurd rfl hkind
  | searching | file | brief | signature | license => exact ⟨rfl, rfl⟩
  | copyright =>
      refine ⟨?_, rfl⟩
      simp only [handle, Header.decodeCopyrightLine]
      split <;> rfl
  | moduleLine =>
      refine ⟨?_, rfl⟩
      simp only [handle, Header.setModule]
      split_ifs <;> rfl
  | partOf =>
      refine ⟨?_, rfl⟩
      simp only [handle, Header.setPartOf]
      split_ifs <;> rfl

/-- The trailing lines behind some texts; an empty one may still have to be put in. -/
theorem Scan.Stands.trailing {texts : List Line} (h : s.Stands stage) :
    (texts.foldl Scan.readText s).header.trailing = s.header.trailing ++
      trailingLines ((if s.trailingEmptyLine then [[]] else []) ++
        textsOf .trailing (stage.read s.sawCopyright texts)) := by
  induction texts generalizing s stage with
  | nil =>
      rw [Stage.read, textsOf]
      cases s.trailingEmptyLine <;> exact (List.append_nil _).symm
  | cons text texts ih =>
      have hcopyright := (s.readText_behind text).sawCopyright
      rw [h.classify_eq] at hcopyright
      have hrest := ih (h.next text).1
      rw [hcopyright] at hrest
      rw [List.foldl_cons, hrest, Stage.read, textsOf_cons, h.readText_eq]
      generalize textsOf .trailing (Stage.read _ _ texts) = more
      generalize stage.kind s.sawCopyright text = kind
      by_cases hkind : kind = .trailing
      · subst hkind
        rw [if_pos rfl, handle]
        by_cases hempty : text = []
        · rw [if_pos (List.isEmpty_iff.mpr hempty), hempty]
          cases s.trailingEmptyLine with
          | true => exact congrArg (s.header.trailing ++ ·) (trailingLines_nil_nil more).symm
          | false => rfl
        · rw [if_neg fun he => hempty (List.isEmpty_iff.mp he)]
          cases s.trailingEmptyLine with
          | true =>
              simp only [Header.addTrailingLine, if_true, Bool.false_eq_true, if_false,
                List.nil_append, List.cons_append, trailingLines_nil_cons hempty, List.append_assoc]
          | false =>
              simp only [Header.addTrailingLine, Bool.false_eq_true, if_false, List.nil_append,
                trailingLines_cons_of_ne hempty, List.append_assoc, List.cons_append]
      · obtain ⟨htrailing, hflag⟩ := @handle_trailing_of_ne s text kind (kind.captures text) hkind
        rw [if_neg hkind, htrailing, hflag]

end Scan

/-! ### The comments at the front -/

section Front
variable {place : Place} {lines left : List Line} {readings : List Reading} {options : Options}
variable {found : Header}

theorem Stage.suits_read {stage : Stage} {signed : Bool} {texts : List Line}
    (htexts : ∀ text ∈ texts, IsText text) :
    ∀ p ∈ stage.read signed texts, p.1.Suits p.2 ∧ IsText p.2 := by
  induction texts generalizing stage signed with
  | nil => exact nofun
  | cons text texts ih =>
      obtain ⟨htext, htexts⟩ := List.forall_mem_cons.mp htexts
      exact List.forall_mem_cons.mpr ⟨⟨stage.suits_kind signed text, htext⟩, ih htexts⟩

theorem Front.suits (h : Front place lines readings left) :
    ∀ p ∈ readings.flatten, p.1.Suits p.2 ∧ IsText p.2 := by
  induction h with
  | last line rest =>
      rw [List.flatten_singleton]
      exact Stage.suits_read (isText_plainTexts line rest)
  | more line rest _ _ _ _ ih =>
      rw [List.flatten_cons]
      exact List.forall_mem_append.mpr ⟨Stage.suits_read (isText_plainTexts line rest), ih⟩

theorem exists_front (h : Closes place lines) : ∃ readings left, Front place lines readings left := by
  induction h with
  | last line rest hskip hends hlast =>
      rw [commentTexts_eq] at hlast
      exact ⟨_, _, .last line rest hskip hends hlast⟩
  | more line rest hskip hends hmodule _ ih =>
      obtain ⟨readings, left, hfront⟩ := ih
      rw [commentTexts_eq] at hmodule hfront
      exact ⟨_, _, .more line rest hskip hends hmodule hfront⟩

/-- The outer loop reads these comments. -/
theorem Front.scanComments {n : Nat} (h : Front place lines readings left) (header : Header)
    (hplace : place ≠ .after) (hn : lines.length < n) :
    ∃ found, RewriteHeader.scanComments n lines place.state header = some (left, found) ∧
      header.Gathers found readings.flatten ∧ found.trailing = header.trailing ++
        readings.flatMap fun reading => trailingLines (textsOf .trailing reading) := by
  induction h generalizing n header with
  | last line rest hskip hends hlast =>
      obtain ⟨n, rfl⟩ : ∃ m, n = m + 1 := ⟨n - 1, by omega⟩
      have hat := Scan.start_at hplace header
      have htexts := fun text ht => (isText_plainTexts line rest text ht).oneLine
      rw [← commentTexts_eq] at hlast htexts ⊢
      rw [scanComments_of_ends hskip hends rfl, if_neg ((hat.again_iff rfl).not.mpr hlast)]
      refine ⟨_, rfl, ?_, ?_⟩
      · rw [List.flatten_singleton]
        exact hat.stands.gathers htexts
      · rw [List.flatMap_singleton]
        exact hat.stands.trailing
  | more line rest hskip hends hmodule hmore ih =>
      obtain ⟨n, rfl⟩ : ∃ m, n = m + 1 := ⟨n - 1, by omega⟩
      have hat := Scan.start_at hplace header
      have htexts := fun text ht => (isText_plainTexts line rest text ht).oneLine
      rw [← commentTexts_eq] at hmodule htexts ih ⊢
      have hstate := (hat.foldl hmodule.2).1.state.trans (Place.nextComment_state _).symm
      have hlen := length_le_of_skip hskip
      have hlt := hmodule.length_linesBehind_lt
      rw [scanComments_of_ends hskip hends rfl, if_pos ((hat.again_iff rfl).mpr hmodule), hstate]
      obtain ⟨found, hscan, hgathers, htrailing⟩ := ih (n := n)
        ((commentTexts line rest).foldl Scan.readText (Scan.start _ header)).header
        (Place.nextComment_ne _) (by omega)
      refine ⟨found, hscan, ?_, ?_⟩
      · rw [List.flatten_cons]
        exact (hat.stands.gathers htexts).append hgathers
      · rw [htrailing, hat.stands.trailing, List.flatMap_cons, List.append_assoc]
        rfl

/-- What is gathered from nothing is what the texts hold. -/
theorem headerOf_eq (hg : (Header.new options).Gathers found readings.flatten)
    (htrailing : found.trailing = readings.flatMap fun reading =>
      trailingLines (textsOf .trailing reading)) : found = headerOf options readings := by
  have hmodule : (found.moduleName, found.moduleDesc) = moduleOf options readings.flatten := hg.module
  have hname : found.moduleName = (moduleOf options readings.flatten).1 := congrArg Prod.fst hmodule
  have hdesc : found.moduleDesc = (moduleOf options readings.flatten).2 := congrArg Prod.snd hmodule
  have hold : found.oldModuleName =
      oldNameIn (moduleOf options readings.flatten).1 readings.flatten := by
    rw [(hg.oldName fun _ => rfl).2, hname]
    rfl
  have hbrief := hg.brief
  have hyears := hg.years
  have hauthor := hg.author
  have hsignature := hg.signature
  have hlicense := hg.license
  clear hg hmodule
  obtain ⟨name, desc, oldName, brief, years, author, signature, license, trailing⟩ := found
  dsimp only at hname hdesc hold hbrief hyears hauthor hsignature hlicense htrailing
  subst hname hdesc hold hbrief hyears hauthor hsignature hlicense htrailing
  rfl

/-- The comments at the front give the header that is found, and nothing else does. -/
theorem collect_eq_some_iff : collect options lines = some (left, found) ↔
    ∃ readings, Front .before lines readings left ∧ found = headerOf options readings := by
  have hread : ∀ {readings left}, Front .before lines readings left →
      collect options lines = some (left, headerOf options readings) := by
    intro readings left hfront
    obtain ⟨found, hscan, hgathers, htrailing⟩ :=
      hfront.scanComments (Header.new options) (by decide) (Nat.lt_succ_self _)
    rw [← headerOf_eq hgathers htrailing]
    exact hscan
  constructor
  · intro hcollect
    have hcloses : Closes .before lines :=
      (scanComments_eq_some_iff (Nat.lt_succ_self _) (by decide)).mp ⟨_, hcollect⟩
    obtain ⟨readings, left', hfront⟩ := exists_front hcloses
    cases hcollect.symm.trans (hread hfront)
    exact ⟨readings, hfront, rfl⟩
  · rintro ⟨readings, hfront, rfl⟩
    exact hread hfront

end Front

end RewriteHeader
