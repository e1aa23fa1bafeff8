import TaskSuite.RewriteHeaderCopyright

/-! What the texts of a header are like that `process` has found in the comments
of a file. -/
namespace RewriteHeader
open Regex

/-! ### Texts -/

/-- The text of a line, as it is taken out of a comment. -/
structure IsText (s : Line) : Prop where
  oneLine : OneLine s
  trimmed : trimRight s = s

structure Stripped (s : Line) : Prop where
  left : ∀ x, s.head? = some x → isSpace x = false
  right : trimRight s = s

instance (s : Line) : Decidable (Stripped s) :=
  decidable_of_iff (s.head?.all (fun x => !isSpace x) = true ∧ trimRight s = s)
    ⟨fun h => ⟨by simpa [Option.all_eq_true] using h.1, h.2⟩,
      fun h => ⟨by simpa [Option.all_eq_true] using h.left, h.right⟩⟩

section Text
variable {s t : Line}

theorem trimRight_isPrefix (s : Line) : trimRight s <+: s := List.rdropWhile_prefix _ _

theorem trimRight_trimRight (s : Line) : trimRight (trimRight s) = trimRight s :=
  List.rdropWhile_idempotent _ _

theorem trimRight_append (s t : Line) :
    trimRight (s ++ t) = if (trimRight t).isEmpty then trimRight s else s ++ trimRight t := by
  simp only [trimRight, List.rdropWhile, List.reverse_append, List.dropWhile_append,
    List.isEmpty_reverse]
  split_ifs <;> simp

theorem trimRight_suffix (h : t <:+ s) : trimRight t <:+ trimRight s := by
  obtain ⟨a, rfl⟩ := h
  rw [trimRight_append]
  split_ifs with hnil
  · rw [List.isEmpty_iff.mp hnil]
    exact List.nil_suffix
  · exact List.suffix_append a _

theorem trimRight_of_suffix (h : trimRight s = s) (ht : t <:+ s) : trimRight t = t := by
  rw [trimRight, List.rdropWhile_eq_self_iff] at h ⊢
  intro hne
  have hs : s ≠ [] := fun hnil => hne (List.suffix_nil.mp (hnil ▸ ht))
  rw [ht.getLast hne]
  exact h hs

theorem isText_trimRight (h : OneLine s) : IsText (trimRight s) :=
  ⟨fun x hx => h x ((trimRight_isPrefix s).subset hx), trimRight_trimRight s⟩

theorem stripped_dropWhile (h : trimRight s = s) (ht : t <:+ s) :
    Stripped (t.dropWhile isSpace) := by
  refine ⟨fun x hx => ?_, trimRight_of_suffix h ((List.dropWhile_suffix _).trans ht)⟩
  simpa [hx] using List.head?_dropWhile_not isSpace t

theorem oneLine_extract {lead : Regex} (h : lead.GroupsInLine) (line : Line) :
    OneLine (extract lead line) := by
  rw [extract]
  split
  · rename_i sm hsm
    have hgroups : (Regex.seq lead (.group 2 (.star dot))).GroupsInLine :=
      ⟨h, dot_inLine, trivial⟩
    exact (isText_trimRight (oneLine_of_regexMatch hgroups hsm 1)).oneLine
  · exact nofun

theorem groupsInLine_firstLead (isCComment : Bool) : (firstLead isCComment).GroupsInLine := by
  cases isCComment <;>
    simp [firstLead, leadRest, concat, GroupsInLine, InLine, opt, space, oneOf, dot]

theorem groupsInLine_nextLead : nextLead.GroupsInLine := by
  simp [nextLead, concat, GroupsInLine, InLine, opt, plus, space, dot]

theorem groupsInLine_closingLead : closingLead.GroupsInLine :=
  ⟨trivial, trivial, ⟨⟨dot_inLine, nonSpace_inLine⟩, trivial, trivial⟩, trivial,
    ⟨trivial, trivial, trivial⟩, trivial⟩

theorem isText_lineText (isCComment : Bool) {lead : Regex} (h : lead.GroupsInLine) (line : Line) :
    IsText (lineText isCComment lead line) := by
  refine isText_trimRight ?_
  split_ifs
  · exact oneLine_extract groupsInLine_closingLead _
  · exact oneLine_extract h line

end Text

/-! ### The regexes that take a text apart -/

section Read
variable {s t name desc : Line} {sm : Captures}

theorem briefRegexp_eq_some (hs : IsText s) (h : regexMatch briefRegexp s = some sm) :
    Stripped (sm 1) := by
  simp only [regexMatch, briefRegexp, concat, plus, run_seq] at h
  obtain ⟨pos₁, c₁, ⟨x, hx, -, -, rfl⟩, h₁⟩ := run_sound h
  obtain ⟨pos₂, c₂, hm, h₂⟩ := run_sound h₁
  obtain ⟨hword, -, rfl⟩ := matches_literal.mp hm
  obtain ⟨pos₃, c₃, ⟨y, hy, -, -, rfl⟩, h₃⟩ := run_sound h₂
  have hsuffix : pos₃.rest <:+ s :=
    ⟨x :: ("brief".toList ++ [y]), by
      rw [List.cons_append, List.append_assoc, List.singleton_append, ← hy, ← hword, ← hx]⟩
  rw [run_spaces_line (hs.oneLine.of_suffix hsuffix) h₃, Function.update_self]
  exact stripped_dropWhile hs.trimmed hsuffix

theorem moduleRegexp_eq_some (hs : IsText s) (h : regexMatch moduleRegexp s = some sm) :
    (∀ x ∈ sm 1, isSpace x = false) ∧ Stripped (sm 2) := by
  rw [regexMatch, moduleRegexp, concat, run_seq] at h
  obtain ⟨pos₁, c₁, ⟨c₀, ⟨pos₀, c₀', ⟨x, hx, hnon, -, rfl⟩, hmore⟩, rfl⟩, h₁⟩ := run_sound h
  simp only [concat, run_seq] at h₁
  obtain ⟨pos₂, c₂, ⟨pos₂', c₂', ⟨y, hy, -, -, rfl⟩, hspaces⟩, h₂⟩ := run_sound h₁
  obtain ⟨pos₃, c₃, hm, h₃⟩ := run_sound h₂
  obtain ⟨hdashes, -, rfl⟩ := matches_literal.mp hm
  simp only [plus, run_seq] at h₃
  obtain ⟨pos₄, c₄, ⟨z, hz, -, -, rfl⟩, h₄⟩ := run_sound h₃
  obtain ⟨a, ha, hall⟩ := hmore.exists_append
  obtain ⟨b, hb, -⟩ := hspaces.exists_append
  have hname : s = (x :: a) ++ pos₁.rest := by
    rw [List.cons_append, ← ha]
    exact hx
  have hsuffix : pos₄.rest <:+ s :=
    ⟨x :: a ++ (y :: b ++ ("--".toList ++ [z])), by simp [hname, hy, hb, hdashes, hz]⟩
  have hsm := run_spaces_line (hs.oneLine.of_suffix hsuffix) h₄
  have hc := hspaces.captures_eq
  have hc' := hmore.captures_eq
  subst hc hc' hsm
  constructor
  · have hgroup : s.take (s.length - pos₁.rest.length) = x :: a := by
      rw [hname, take_front]
    simp only [Function.update_of_ne (show 1 ≠ 2 by decide), Function.update_self, hgroup]
    exact List.forall_mem_cons.mpr ⟨by simpa using hnon, fun w hw => by simpa using hall w hw⟩
  · rw [Function.update_self]
    exact stripped_dropWhile hs.trimmed hsuffix

theorem partOfRegexp_eq_some (h : regexSearch partOfRegexp s = some sm) :
    ∀ x ∈ sm 1, isPartOfChar x = true := by
  obtain ⟨f, hfind, rfl⟩ := Option.map_eq_some_iff.mp h
  obtain ⟨first, t, pos, -, c₀, ⟨pos₁, c₁, -, pos₂, c₂, -, pos₃, c₃, ⟨c₄, hgroup, rfl⟩, -, rfl⟩, hc⟩ :=
    find_matches hfind
  obtain ⟨a, ha, hall⟩ := hgroup.exists_append
  intro x hx
  rw [hc, Function.update_of_ne (show 1 ≠ 0 by decide), Function.update_self, ha, take_front] at hx
  exact hall x hx

end Read

/-! ### The header -/

/-- A text in which `process` sees nothing special once the license is behind it. -/
structure Unmarked (text : Line) : Prop where
  nonempty : text ≠ []
  trimmed : trimRight text = text
  noModule : regexMatch moduleRegexp text = none
  noFile : regexMatch fileRegexp text = none
  noCopyright : regexSearch copyrightRegexp text = none

structure IsSignature (text : Line) : Prop extends Unmarked text where
  noPartOf : regexSearch partOfRegexp text = none
  noLicense : regexSearch licenseStartRegexp text = none

/-- The lines behind the license: an empty one only between two others. -/
inductive IsTrailing : List Line → Prop
  | first {text : Line} : Unmarked text → IsTrailing [text]
  | next {texts : List Line} {text : Line} : IsTrailing texts → text ≠ [] →
      trimRight text = text → IsTrailing (texts ++ [text])
  | skip {texts : List Line} {text : Line} : IsTrailing texts → text ≠ [] →
      trimRight text = text → IsTrailing (texts ++ [[]] ++ [text])

theorem IsTrailing.ne_nil {texts : List Line} (h : IsTrailing texts) : texts ≠ [] := by
  cases h with
  | first _ => exact List.cons_ne_nil _ _
  | next _ _ _ => exact List.append_ne_nil_of_right_ne_nil _ (List.cons_ne_nil _ _)
  | skip _ _ _ => exact List.append_ne_nil_of_right_ne_nil _ (List.cons_ne_nil _ _)

structure WellRead (options : Options) (h : Header) : Prop where
  given : options.moduleName ≠ [] →
    h.moduleName = options.moduleName ∧ h.moduleDesc = options.moduleDesc
  name : options.moduleName = [] → ∀ x ∈ h.moduleName, isSpace x = false
  desc : options.moduleName = [] → h.moduleDesc = options.moduleDesc ∨ Stripped h.moduleDesc
  brief : Stripped h.brief
  years : ∀ y ∈ h.copyrightYears, IsYear y
  author : IsAuthor h.author
  authorEnd : h.author.rdropWhile (fun x => x = ' ' ∨ x = '.') = h.author
  signature : ∀ text ∈ h.signature, IsSignature text
  trailing : h.trailing = [] ∨ IsTrailing h.trailing

namespace WellRead
variable {options : Options} {h : Header} {text : Line}

theorem isAuthor_nil : IsAuthor [] :=
  ⟨fun t ht hmark => by
    obtain ⟨x, y, -, -, hpre⟩ := hmark
    rw [List.suffix_nil.mp ht] at hpre
    simp at hpre, fun hyear => by
    obtain ⟨a, b, w, -, -, -, hpre⟩ := hyear
    simp at hpre, nofun⟩

theorem new (options : Options) : WellRead options (Header.new options) where
  given _ := ⟨rfl, rfl⟩
  name hempty x hx := by
    rw [Header.new, hempty] at hx
    cases hx
  desc _ := .inl rfl
  brief := ⟨nofun, rfl⟩
  years := nofun
  author := isAuthor_nil
  authorEnd := rfl
  signature := nofun
  trailing := .inl rfl

theorem setModule (hw : WellRead options h) {name desc : Line}
    (hname : ∀ x ∈ name, isSpace x = false) (hdesc : Stripped desc) :
    WellRead options (h.setModule name desc) := by
  rw [Header.setModule]
  split_ifs with hempty
  · have hnil : options.moduleName = [] := by
      by_contra hne
      rw [(hw.given hne).1] at hempty
      exact hne (List.isEmpty_iff.mp hempty)
    exact { hw with
      given := fun hne => absurd hnil hne
      name := fun _ => hname
      desc := fun _ => .inr hdesc }
  · exact hw

theorem setPartOf (hw : WellRead options h) {name : Line}
    (hname : ∀ x ∈ name, isSpace x = false) : WellRead options (h.setPartOf name) := by
  rw [Header.setPartOf]
  split_ifs with hempty
  · have hnil : options.moduleName = [] := by
      by_contra hne
      rw [(hw.given hne).1] at hempty
      exact hne (List.isEmpty_iff.mp hempty)
    exact { hw with
      given := fun hne => absurd hnil hne
      name := fun _ => hname }
  · exact { hw with }
  · exact hw

theorem decodeCopyrightLine (hw : WellRead options h) (htext : OneLine text) :
    WellRead options (h.decodeCopyrightLine text) := by
  rw [Header.decodeCopyrightLine]
  split
  · exact hw
  · rename_i sm hsm
    refine { hw with years := ?_, author := ?_, authorEnd := List.rdropWhile_idempotent _ _ }
    · refine List.forall_mem_append.mpr ⟨hw.years, fun y hy => ?_⟩
      obtain ⟨f, hf, hy⟩ := List.mem_flatMap.mp hy
      obtain ⟨_, _, _, hm⟩ := findAll_matches hf
      exact isYear_of_mem_yearRange hm hy
    · exact (isAuthor_of_match htext hsm).front (List.rdropWhile_prefix _ _)

theorem addSignatureLine (hw : WellRead options h) (htext : IsSignature text) :
    WellRead options (h.addSignatureLine text) :=
  { hw with
    signature := List.forall_mem_append.mpr ⟨hw.signature, List.forall_mem_singleton.mpr htext⟩ }

/-- A line that is not empty is added, behind an empty one if there was one. -/
theorem addTrailingLine (hw : WellRead options h) (hne : text ≠ []) (htrim : trimRight text = text)
    {empty : Bool} (hempty : empty = true → h.trailing ≠ [])
    (hfirst : Unmarked text ∨ h.trailing ≠ []) :
    WellRead options ((if empty then h.addTrailingLine [] else h).addTrailingLine text) := by
  rcases hw.trailing with hnil | htrailing
  · have hunmarked := hfirst.resolve_right (not_not.mpr hnil)
    cases empty with
    | true => exact absurd hnil (hempty rfl)
    | false =>
        refine { hw with trailing := .inr ?_ }
        simp only [Header.addTrailingLine, Bool.false_eq_true, if_false, hnil]
        exact .first hunmarked
  · cases empty with
    | true => exact { hw with trailing := .inr (.skip htrailing hne htrim) }
    | false => exact { hw with trailing := .inr (.next htrailing hne htrim) }

end WellRead

/-! ### The loop -/

namespace Scan
variable {options : Options} {s : Scan} {text : Line}

structure Inv (options : Options) (s : Scan) : Prop where
  header : WellRead options s.header
  firstLine : s.firstLine = true
  resting : s.state ∈ [State.searching, .file, .license, .trailing]
  trailing : s.state = .trailing → s.header.trailing ≠ []
  empty : s.trailingEmptyLine = true → s.header.trailing ≠ []

/-- What the state in which a line is handled says about its text. -/
def Fits (s : Scan) (text : Line) : State × Captures → Prop
  | (.moduleLine, sm) => regexMatch moduleRegexp text = some sm
  | (.brief, sm) => regexMatch briefRegexp text = some sm
  | (.partOf, sm) => regexSearch partOfRegexp text = some sm
  | (.signature, _) => IsSignature text
  | (.trailing, _) => Unmarked text ∨ s.header.trailing ≠ []
  | _ => True

theorem search_fits (hi : s.Inv options) (htrim : trimRight text = text) :
    s.Fits text (s.search text) := by
  rw [search, hi.firstLine, if_pos rfl]
  cases hmodule : regexMatch moduleRegexp text with
  | some sm => exact hmodule
  | none =>
  cases hfile : regexMatch fileRegexp text with
  | some sm => trivial
  | none =>
  cases hcopyright : regexSearch copyrightRegexp text with
  | some sm => trivial
  | none =>
  have hunmarked : text ≠ [] → Unmarked text := fun hne =>
    ⟨hne, htrim, hmodule, hfile, hcopyright⟩
  cases hlicense : s.sawLicense with
  | true =>
      simp only [if_true, Bool.not_true, Bool.and_false, Bool.false_and, Bool.false_eq_true, if_false,
        Bool.true_and]
      cases text with
      | nil => trivial
      | cons x xs => exact Or.inl (hunmarked (List.cons_ne_nil x xs))
  | false =>
  simp only [Bool.false_eq_true, if_false]
  cases hpart : regexSearch partOfRegexp text with
  | some sm => exact hpart
  | none =>
  cases hstart : regexSearch licenseStartRegexp text with
  | some sm => trivial
  | none =>
  cases text with
  | nil => simp [Fits]
  | cons x xs =>
      cases s.sawCopyright with
      | true => exact ⟨hunmarked (List.cons_ne_nil x xs), hpart, hstart⟩
      | false => trivial

theorem classify_fits (hi : s.Inv options) (htrim : trimRight text = text) :
    s.Fits text (s.classify text) := by
  have hsearch := search_fits hi htrim
  have hrest := hi.resting
  rw [classify]
  cases hstate : s.state with
  | searching => exact hsearch
  | file =>
      cases hbrief : regexMatch briefRegexp text with
      | some sm => exact hbrief
      | none => exact hsearch
  | license => trivial
  | trailing => exact .inr (hi.trailing hstate)
  | _ => simp [hstate] at hrest

theorem handle_inv (hi : s.Inv options) (htext : IsText text) {p : State × Captures}
    (hp : s.Fits text p) : (s.handle text p).Inv options := by
  obtain ⟨state, sm⟩ := p
  have hempty := hi.empty
  cases state with
  | searching => exact ⟨hi.header, hi.firstLine, by simp [handle], by simp [handle], hempty⟩
  | moduleLine =>
      obtain ⟨hname, hdesc⟩ := moduleRegexp_eq_some htext hp
      have htrailing : (s.header.setModule (sm 1) (sm 2)).trailing = s.header.trailing := by
        rw [Header.setModule]
        split_ifs <;> rfl
      exact ⟨hi.header.setModule hname hdesc, hi.firstLine, by simp [handle], by simp [handle],
        fun h => htrailing ▸ hempty h⟩
  | file => exact ⟨hi.header, hi.firstLine, by simp [handle], by simp [handle], hempty⟩
  | brief =>
      exact ⟨{ hi.header with brief := briefRegexp_eq_some htext hp }, hi.firstLine,
        by simp [handle], by simp [handle], hempty⟩
  | copyright =>
      have htrailing : (s.header.decodeCopyrightLine text).trailing = s.header.trailing := by
        rw [Header.decodeCopyrightLine]
        split <;> rfl
      exact ⟨hi.header.decodeCopyrightLine htext.oneLine, hi.firstLine, by simp [handle],
        by simp [handle], fun h => htrailing ▸ hempty h⟩
  | signature =>
      exact ⟨hi.header.addSignatureLine hp, hi.firstLine, by simp [handle], by simp [handle], hempty⟩
  | partOf =>
      have htrailing : (s.header.setPartOf (sm 1)).trailing = s.header.trailing := by
        rw [Header.setPartOf]
        split_ifs <;> rfl
      have hname : ∀ x ∈ sm 1, isSpace x = false := fun x hx =>
        isSpace_eq_false (by decide) (partOfRegexp_eq_some hp x hx)
      exact ⟨hi.header.setPartOf hname, hi.firstLine, by simp [handle], by simp [handle],
        fun h => htrailing ▸ hempty h⟩
  | license =>
      refine ⟨{ hi.header with }, hi.firstLine, ?_, ?_, hempty⟩
      · simp only [handle]
        split_ifs <;> simp
      · simp only [handle]
        split_ifs <;> simp
  | trailing =>
      rw [handle]
      by_cases hnil : text.isEmpty = true
      · rw [if_pos hnil]
        have htrailing : s.header.trailing ≠ [] :=
          hp.resolve_left fun hunmarked => hunmarked.nonempty (List.isEmpty_iff.mp hnil)
        exact ⟨hi.header, hi.firstLine, by simp, fun _ => htrailing, fun _ => htrailing⟩
      · rw [if_neg hnil]
        have hne : text ≠ [] := fun h => hnil (List.isEmpty_iff.mpr h)
        refine ⟨hi.header.addTrailingLine hne htext.trimmed hempty hp, hi.firstLine, by simp,
          fun _ => ?_, by simp⟩
        exact List.append_ne_nil_of_right_ne_nil _ (List.cons_ne_nil text [])

theorem readText_inv (hi : s.Inv options) (htext : IsText text) : (s.readText text).Inv options :=
  handle_inv hi htext (classify_fits hi htext.trimmed)

theorem start_inv {state : State} {header : Header} (hw : WellRead options header)
    (hrest : state ∈ [State.searching, .file, .license, .trailing])
    (htrailing : state = .trailing → header.trailing ≠ []) : (Scan.start state header).Inv options :=
  ⟨hw, rfl, hrest, htrailing, nofun⟩

end Scan

theorem scanComment_inv {options : Options} {isCComment : Bool} {lead : Regex}
    {lines left : List Line} {s s' : Scan} (hlead : lead.GroupsInLine) (hi : s.Inv options)
    (h : scanComment isCComment lead lines s = some (left, s')) : s'.Inv options := by
  induction lines generalizing lead s with
  | nil => simp [scanComment] at h
  | cons line lines ih =>
      have hread := Scan.readText_inv hi (isText_lineText isCComment hlead line)
      simp only [scanComment] at h
      split_ifs at h with hcomment hlast hC
      · cases h
        exact hread
      · exact ih groupsInLine_nextLead hread h
      · exact ih hlead hread h
      · cases h
        exact hi

theorem scanComments_wellRead {options : Options} {n : Nat} {lines left : List Line} {state : State}
    {header found : Header} (hi : (Scan.start state header).Inv options)
    (h : scanComments n lines state header = some (left, found)) : WellRead options found := by
  induction n generalizing lines state header with
  | zero => simp [scanComments] at h
  | succ n ih =>
      simp only [scanComments] at h
      split at h
      · cases h
      · split at h
        · cases h
        · rename_i left' s' hscan
          have hi' := scanComment_inv (groupsInLine_firstLead _) hi hscan
          split_ifs at h
          · exact ih (Scan.start_inv hi'.header hi'.resting hi'.trailing) h
          · cases h
            exact hi'.header

/-- The header that is found in the comments. -/
theorem collect_wellRead {options : Options} {lines left : List Line} {found : Header}
    (h : collect options lines = some (left, found)) : WellRead options found := by
  have hstart : (Scan.start .searching (Header.new options)).Inv options :=
    Scan.start_inv (.new options) (by decide) nofun
  exact scanComments_wellRead hstart h

end RewriteHeader
