import TaskSuite.RewriteHeaderKept

/-! Which lines of a comment can name the module. The flag `first_line` is meant
for the first line alone, but no line is ever read with it reset. -/
namespace RewriteHeader
open Regex

/-! ### The lines that are read -/

/-- The texts of a comment, each with the variables of the loop in front of it. -/
def Scan.visits : Scan → List Line → List (Scan × Line)
  | _, [] => []
  | s, text :: texts => (s, text) :: (s.readText text).visits texts

/-- The comments that the outer loop reads, with the variables with which the
loop over the lines of each starts. -/
def comments : Nat → List Line → State → Header → List (Scan × List Line)
  | 0, _, _, _ => []
  | n + 1, lines, state, header =>
      match skipEmptyLines lines with
      | [] => []
      | line :: rest =>
          (Scan.start state header, commentTexts line rest) ::
            match scanComment (isCCommentAt line) (firstLead (isCCommentAt line)) (line :: rest)
                (Scan.start state header) with
            | none => []
            | some (left, s) =>
                if !s.sawFileOrBriefOrCopyright && s.sawModule then
                  comments n left s.state s.header
                else []

/-- The lines of each of the leading comments, as `process` reads them. -/
def blocks (options : Options) (lines : List Line) : List (List (Scan × Line)) :=
  (comments (lines.length + 1) lines .searching (Header.new options)).map
    fun (s, texts) => s.visits texts

/-- How a line is classified that is not the first of its comment. -/
def Scan.classifyLater (s : Scan) (text : Line) : State × Captures :=
  { s with firstLine := false }.classify text

/-- Behind the first line of a comment no line sets the module, a line that has
the shape of a module line is classified like any other, and if that makes it a
line of the signature or a trailing line, then it is in the output. -/
structure OnlyFirstNames (options : Options) (lines out : List Line) : Prop where
  only : ∀ block ∈ blocks options lines, ∀ v ∈ block.tail, (v.1.classify v.2).1 ≠ .moduleLine
  like : ∀ block ∈ blocks options lines, ∀ v ∈ block.tail, isModuleText v.2 = true →
    v.1.classify v.2 = v.1.classifyLater v.2
  kept : ∀ block ∈ blocks options lines, ∀ v ∈ block.tail, isModuleText v.2 = true →
    (v.1.classifyLater v.2).1 ∈ [State.signature, .trailing] → Header.doxygenLead ++ v.2 ∈ out

/-! ### The lines that are looked at for a module -/

/-- Is a text at this stage compared with the regex of a module line? -/
def Stage.looksAt (stage : Stage) (text : Line) : Bool :=
  stage.place.searches && !(stage.afterFile && isBriefText text)

def Stage.NamesNone : Stage → List Line → Prop
  | _, [] => True
  | stage, text :: texts =>
      ¬ (stage.looksAt text = true ∧ isModuleText text = true) ∧ (stage.next text).NamesNone texts

section Line
variable {s : Scan} {stage : Stage} {text : Line} {texts : List Line}

theorem Scan.search_ne_moduleLine (h : isModuleText text = false) :
    (s.search text).1 ≠ .moduleLine := by
  simp only [Scan.search, regexMatch_eq_none h, ite_self]
  split
  · simp
  split
  · simp
  split
  · simp
  split
  · simp
  split_ifs <;> simp

theorem Scan.search_later (h : isModuleText text = false) :
    { s with firstLine := false }.search text = s.search text := by
  simp only [Scan.search, regexMatch_eq_none h, ite_self]

theorem Scan.classifyLater_eq (h : isModuleText text = false) :
    s.classifyLater text = s.classify text := by
  simp only [Scan.classifyLater, Scan.classify, Scan.search_later h]

theorem Scan.Stands.moduleLine_iff (h : s.Stands stage) :
    (s.classify text).1 = .moduleLine ↔ stage.looksAt text = true ∧ isModuleText text = true := by
  rw [Stage.looksAt]
  cases hsearch : stage.place.searches with
  | false =>
      have hclass := (h.next_skipped text hsearch).2
      have hne : (s.classify text).1 ≠ .moduleLine := ne_of_mem_of_not_mem hclass (by decide)
      simp [hne]
  | true =>
  cases hbrief : stage.afterFile && isBriefText text with
  | true => simp [h.classify_brief hbrief]
  | false =>
      rw [h.classify_search hsearch hbrief]
      cases hmodule : isModuleText text with
      | true => simp [h.search_module hmodule]
      | false => simp [Scan.search_ne_moduleLine hmodule]

/-- A text that is not looked at is not read differently behind the first line. -/
theorem Scan.Stands.classifyLater_eq (h : s.Stands stage) (hlooks : stage.looksAt text = false) :
    s.classifyLater text = s.classify text := by
  have hstate := h.state
  rw [Stage.looksAt] at hlooks
  cases hplace : stage.place with
  | license | trailing =>
      have hfile : stage.afterFile = false := by
        by_contra hfile
        have hsearch := h.searches (Bool.eq_true_of_not_eq_false hfile)
        rw [hplace] at hsearch
        cases hsearch
      rw [hfile, hplace] at hstate
      simp only [Scan.classifyLater, Scan.classify, hstate, Place.state, Bool.false_eq_true, if_false]
  | before | after =>
      rw [hplace, Place.searches, Bool.true_and, Bool.not_eq_false'] at hlooks
      obtain ⟨hfile, hbrief⟩ := Bool.and_eq_true_iff.mp hlooks
      obtain ⟨sm, hsm⟩ := Option.isSome_iff_exists.mp hbrief
      rw [hfile, if_pos rfl] at hstate
      simp only [Scan.classifyLater, Scan.classify, hstate, hsm]

/-- The step and the run: the lines that set the module are the ones looked at. -/
theorem Scan.Stands.forall_visits (h : s.Stands stage) :
    (∀ v ∈ s.visits texts, (v.1.classify v.2).1 ≠ .moduleLine) ↔ stage.NamesNone texts := by
  induction texts generalizing s stage with
  | nil => simp [Scan.visits, Stage.NamesNone]
  | cons text texts ih =>
      rw [Scan.visits, List.forall_mem_cons, Stage.NamesNone, ih (h.next text).1, ne_eq,
        h.moduleLine_iff]

theorem Scan.Stands.exists_stage (h : s.Stands stage) {v : Scan × Line} (hv : v ∈ s.visits texts) :
    ∃ stage', v.1.Stands stage' := by
  induction texts generalizing s stage with
  | nil => cases hv
  | cons text texts ih =>
      rcases List.mem_cons.mp hv with rfl | hv
      · exact ⟨stage, h⟩
      · exact ih (h.next text).1 hv

end Line

/-! ### The leading comments -/

/-- `texts` are the texts of one of the comments that are read, and `place` is
where they start. -/
inductive LeadingComment : Place → List Line → Place → List Line → Prop
  | first {place : Place} {lines : List Line} (line : Line) (rest : List Line)
      (hskip : skipEmptyLines lines = line :: rest) :
      LeadingComment place lines place (commentTexts line rest)
  | behind {place place' : Place} {lines texts : List Line} (line : Line) (rest : List Line)
      (hskip : skipEmptyLines lines = line :: rest)
      (hends : Ends (isCCommentAt line) (line :: rest))
      (hmodule : ModuleOnly place (commentTexts line rest))
      (hmore : LeadingComment ((commentTexts line rest).foldl Place.next place).nextComment
        (linesBehind (isCCommentAt line) (line :: rest)) place' texts) :
      LeadingComment place lines place' texts

/-- Behind the first text of a comment, none that is looked at has the shape of a
module line. -/
def Place.NamesFirst (place : Place) : List Line → Prop
  | [] => True
  | first :: texts => (Stage.next ⟨place, false⟩ first).NamesNone texts

section Comments
variable {place place' : Place} {lines texts rest : List Line} {line : Line} {header : Header}
variable {n : Nat} {s : Scan}

theorem comments_of_ends {state : State} (hskip : skipEmptyLines lines = line :: rest)
    (hends : Ends (isCCommentAt line) (line :: rest))
    (hs : s = (commentTexts line rest).foldl Scan.readText (Scan.start state header)) :
    comments (n + 1) lines state header = (Scan.start state header, commentTexts line rest) ::
      if !s.sawFileOrBriefOrCopyright && s.sawModule then
        comments n (linesBehind (isCCommentAt line) (line :: rest)) s.state s.header
      else [] := by
  have hscan : scanComment (isCCommentAt line) (firstLead (isCCommentAt line)) (line :: rest)
      (Scan.start state header) = some (linesBehind (isCCommentAt line) (line :: rest), s) :=
    scanComment_eq_some.mpr ⟨hends, rfl, hs⟩
  simp only [comments, hskip, hscan]

theorem leadingComment_of_mem (hplace : place ≠ .after) (hcloses : Closes place lines)
    (h : (s, texts) ∈ comments n lines place.state header) :
    ∃ place', LeadingComment place lines place' texts ∧ s.At place' := by
  induction n generalizing lines place header with
  | zero => cases h
  | succ n ih =>
      cases hskip : skipEmptyLines lines with
      | nil => exact absurd hcloses (not_closes_of_nil hskip)
      | cons line rest =>
          obtain ⟨hends, hmore⟩ := (closes_iff hskip).mp hcloses
          have hat := Scan.start_at hplace header
          rw [comments_of_ends hskip hends rfl] at h
          rcases List.mem_cons.mp h with heq | h
          · obtain ⟨rfl, rfl⟩ := Prod.mk.inj heq
            exact ⟨place, .first line rest hskip, hat⟩
          · split_ifs at h with hagain
            · have hmodule := (hat.again_iff rfl).mp hagain
              rw [(hat.foldl hmodule.2).1.state.trans (Place.nextComment_state _).symm] at h
              obtain ⟨place', hleading, hs⟩ := ih (Place.nextComment_ne _) (hmore hmodule) h
              exact ⟨place', .behind line rest hskip hends hmodule hleading, hs⟩
            · cases h

theorem LeadingComment.mem_comments (h : LeadingComment place lines place' texts)
    (hplace : place ≠ .after) (hcloses : Closes place lines) (hn : lines.length < n) :
    ∃ s, (s, texts) ∈ comments n lines place.state header ∧ s.At place' := by
  induction h generalizing n header with
  | first line rest hskip =>
      obtain ⟨n, rfl⟩ : ∃ m, n = m + 1 := ⟨n - 1, by omega⟩
      rw [comments_of_ends hskip ((closes_iff hskip).mp hcloses).1 rfl]
      exact ⟨_, List.mem_cons_self .., Scan.start_at hplace header⟩
  | behind line rest hskip hends hmodule hmore ih =>
      obtain ⟨n, rfl⟩ : ∃ m, n = m + 1 := ⟨n - 1, by omega⟩
      have hat := Scan.start_at hplace header
      have hstate := (hat.foldl hmodule.2).1.state.trans (Place.nextComment_state _).symm
      have hlen := length_le_of_skip hskip
      have hlt := hmodule.length_linesBehind_lt
      rw [comments_of_ends hskip hends rfl, if_pos ((hat.again_iff rfl).mpr hmodule), hstate]
      obtain ⟨s, hmem, hs⟩ := ih (n := n) (Place.nextComment_ne _)
        (((closes_iff hskip).mp hcloses).2 hmodule) (by omega)
      exact ⟨s, List.mem_cons_of_mem _ hmem, hs⟩

end Comments

/-! ### The lines that are kept -/

def Header.keptLines (h : Header) : List Line := h.signature ++ h.trailing

section Kept
variable {s : Scan} {text kept : Line} {texts lines left : List Line} {header found : Header}
variable {state : State} {n : Nat}

theorem Scan.keptLines_handle (s : Scan) (text : Line) (p : State × Captures)
    (h : kept ∈ s.header.keptLines) : kept ∈ (s.handle text p).header.keptLines := by
  obtain ⟨state, sm⟩ := p
  rw [Header.keptLines, List.mem_append] at h ⊢
  cases state with
  | searching | file | brief | license => exact h
  | moduleLine =>
      simp only [Scan.handle, Header.setModule]
      split_ifs <;> exact h
  | partOf =>
      simp only [Scan.handle, Header.setPartOf]
      split_ifs <;> exact h
  | copyright =>
      simp only [Scan.handle, Header.decodeCopyrightLine]
      split <;> exact h
  | signature => exact h.imp_left (List.mem_append_left _)
  | trailing =>
      simp only [Scan.handle]
      split_ifs
      · exact h
      · exact h.imp_right fun h => List.mem_append_left _ (List.mem_append_left _ h)
      · exact h.imp_right (List.mem_append_left _)

/-- A text that is read as a line of the signature or a trailing line. -/
theorem Scan.mem_keptLines (h : (s.classify text).1 ∈ [State.signature, .trailing])
    (hne : text ≠ []) : text ∈ (s.readText text).header.keptLines := by
  rw [Scan.readText]
  generalize s.classify text = p at h
  obtain ⟨state, sm⟩ := p
  have hnot : ¬ text.isEmpty = true := by simpa using hne
  rw [Header.keptLines, List.mem_append]
  rcases List.mem_pair.mp h with hstate | hstate <;> cases hstate
  · exact .inl (List.mem_append_right _ (List.mem_singleton_self text))
  · simp only [Scan.handle, if_neg hnot]
    exact .inr (List.mem_append_right _ (List.mem_singleton_self text))

theorem Scan.keptLines_foldl (texts : List Line) (h : kept ∈ s.header.keptLines) :
    kept ∈ (texts.foldl Scan.readText s).header.keptLines := by
  induction texts generalizing s with
  | nil => exact h
  | cons text texts ih => exact ih (s.keptLines_handle text (s.classify text) h)

theorem Scan.visits_keptLines {v : Scan × Line} (hv : v ∈ s.visits texts)
    (hclass : (v.1.classify v.2).1 ∈ [State.signature, .trailing]) (hne : v.2 ≠ []) :
    v.2 ∈ (texts.foldl Scan.readText s).header.keptLines := by
  induction texts generalizing s with
  | nil => cases hv
  | cons text texts ih =>
      rcases List.mem_cons.mp hv with rfl | hv
      · exact keptLines_foldl (s := s.readText text) texts (mem_keptLines hclass hne)
      · exact ih hv

theorem scanComments_succ_eq_some
    (h : scanComments (n + 1) lines state header = some (left, found)) :
    ∃ line rest, skipEmptyLines lines = line :: rest ∧
      Ends (isCCommentAt line) (line :: rest) := by
  cases hskip : skipEmptyLines lines with
  | nil => simp [scanComments, hskip] at h
  | cons line rest =>
      refine ⟨line, rest, rfl, ?_⟩
      by_contra hends
      rw [scanComments_of_not_ends hskip hends] at h
      cases h

theorem keptLines_scanComments (h : scanComments n lines state header = some (left, found))
    (hkept : kept ∈ header.keptLines) : kept ∈ found.keptLines := by
  induction n generalizing lines state header with
  | zero => cases h
  | succ n ih =>
      obtain ⟨line, rest, hskip, hends⟩ := scanComments_succ_eq_some h
      have hfold := Scan.keptLines_foldl (s := Scan.start state header)
        (commentTexts line rest) hkept
      rw [scanComments_of_ends hskip hends rfl] at h
      split_ifs at h
      · exact ih h hfold
      · obtain ⟨-, rfl⟩ := Prod.mk.inj (Option.some.inj h)
        exact hfold

theorem comments_keptLines {v : Scan × Line}
    (h : scanComments n lines state header = some (left, found))
    (hmem : (s, texts) ∈ comments n lines state header) (hv : v ∈ s.visits texts)
    (hclass : (v.1.classify v.2).1 ∈ [State.signature, .trailing]) (hne : v.2 ≠ []) :
    v.2 ∈ found.keptLines := by
  induction n generalizing lines state header with
  | zero => cases h
  | succ n ih =>
      obtain ⟨line, rest, hskip, hends⟩ := scanComments_succ_eq_some h
      rw [scanComments_of_ends hskip hends rfl] at h
      rw [comments_of_ends hskip hends rfl] at hmem
      rcases List.mem_cons.mp hmem with heq | hmem
      · obtain ⟨rfl, rfl⟩ := Prod.mk.inj heq
        have hfold := Scan.visits_keptLines hv hclass hne
        split_ifs at h
        · exact keptLines_scanComments h hfold
        · obtain ⟨-, rfl⟩ := Prod.mk.inj (Option.some.inj h)
          exact hfold
      · split_ifs at h hmem
        · exact ih h hmem
        · cases hmem

theorem Header.keptLines_mem_pieces (h : Header) :
    h.signature.flatMap Header.printLine ∈ h.pieces ∧
      h.trailing.flatMap Header.printLine ∈ h.pieces :=
  ⟨List.mem_of_getElem? (i := 8) rfl, List.mem_of_getElem? (i := 14) rfl⟩

theorem mem_headerLines (currentYear : Nat) (h : kept ∈ found.keptLines) (hne : kept ≠ [])
    (hline : '\n' ∉ kept) :
    Header.doxygenLead ++ kept ∈ headerLines (found.canonicalize currentYear) := by
  have hprint : Header.doxygenLead ++ kept ∈ getlines (Header.printLine kept) := by
    have hlead : '\n' ∉ Header.doxygenLead ++ kept := by
      rw [List.mem_append, not_or]
      exact ⟨by decide, hline⟩
    rw [Header.printLine, if_neg (by simpa using hne), getlines_line hlead]
    exact List.mem_cons_self ..
  have hpiece : ∀ texts : List Line, kept ∈ texts →
      Header.doxygenLead ++ kept ∈ getlines (texts.flatMap Header.printLine) := by
    intro texts htexts
    rw [List.flatMap_def]
    refine mem_getlines_flatten (fun p hp => ?_) (List.mem_map_of_mem htexts) hprint
    obtain ⟨line, -, rfl⟩ := List.mem_map.mp hp
    exact ended_printLine line
  rw [headerLines_eq]
  refine List.mem_append_left _ ?_
  rcases List.mem_append.mp h with h | h
  · have hsignature : (found.canonicalize currentYear).signature = found.signature :=
      if_neg (by simpa using List.ne_nil_of_mem h)
    rw [← hsignature] at h
    exact mem_getlines_flatten (ended_pieces _) (Header.keptLines_mem_pieces _).1 (hpiece _ h)
  · have htrailing : (found.canonicalize currentYear).trailing = found.trailing := rfl
    rw [← htrailing] at h
    exact mem_getlines_flatten (ended_pieces _) (Header.keptLines_mem_pieces _).2 (hpiece _ h)

end Kept

section Names
variable {options : Options} {currentYear : Nat} {lines out : List Line} {changed : Bool}

theorem collect_of_process (h : process options currentYear lines = some (out, changed)) :
    ∃ left found, collect options lines = some (left, found) ∧
      headerLines (found.canonicalize currentYear) ⊆ out := by
  obtain ⟨⟨left, found⟩, hcollect, heq⟩ := Option.map_eq_some_iff.mp h
  obtain ⟨rfl, -⟩ := Prod.mk.inj heq
  exact ⟨left, found, hcollect, List.subset_append_left _ _⟩

/-- The lines behind the first one set no module exactly if none that is looked at has
the shape of a module line. -/
theorem Scan.At.namesFirst_iff {s : Scan} {place : Place} (h : s.At place) (texts : List Line) :
    (∀ v ∈ (s.visits texts).tail, (v.1.classify v.2).1 ≠ .moduleLine) ↔ place.NamesFirst texts := by
  cases texts with
  | nil => simp [Scan.visits, Place.NamesFirst]
  | cons first texts => exact (h.stands.next first).1.forall_visits

theorem oneLine_comments {n : Nat} {lines texts : List Line} {state : State} {header : Header}
    {s : Scan} (h : (s, texts) ∈ comments n lines state header) : ∀ text ∈ texts, OneLine text := by
  induction n generalizing lines state header with
  | zero => cases h
  | succ n ih =>
      rw [comments] at h
      split at h
      · cases h
      · next line rest hskip =>
        rcases List.mem_cons.mp h with heq | h
        · obtain ⟨-, rfl⟩ := Prod.mk.inj heq
          exact oneLine_commentTexts line rest
        · split at h
          · cases h
          · split_ifs at h
            · exact ih h
            · cases h

theorem Scan.mem_of_visits {s : Scan} {texts : List Line} {v : Scan × Line}
    (h : v ∈ s.visits texts) : v.2 ∈ texts := by
  induction texts generalizing s with
  | nil => cases h
  | cons text texts ih =>
      rcases List.mem_cons.mp h with rfl | h
      · exact List.mem_cons_self ..
      · exact List.mem_cons_of_mem _ (ih h)

theorem not_isModuleText_nil : isModuleText [] = false := by decide

/-- In the comments at the front of a file only the first lines name the module
exactly if behind them no text that is looked at has the shape of a module line. -/
theorem only_first_names_iff (h : process options currentYear lines = some (out, changed)) :
    OnlyFirstNames options lines out ↔
      ∀ place texts, LeadingComment .before lines place texts → place.NamesFirst texts := by
  obtain ⟨left, found, hcollect, hout⟩ := collect_of_process h
  have hcloses : Closes .before lines :=
    (scanComments_eq_some_iff (Nat.lt_succ_self _) (by decide)).mp ⟨_, hcollect⟩
  constructor
  · intro honly place texts hleading
    obtain ⟨s, hmem, hs⟩ := hleading.mem_comments (by decide) hcloses (Nat.lt_succ_self _)
    exact (hs.namesFirst_iff texts).mp (honly.only _ (List.mem_map_of_mem hmem))
  · intro hnames
    have hblock : ∀ block ∈ blocks options lines, ∃ s texts,
        (s, texts) ∈ comments (lines.length + 1) lines .searching (Header.new options) ∧
          block = s.visits texts ∧ (∃ stage, s.Stands stage) ∧
          ∀ v ∈ block.tail, (v.1.classify v.2).1 ≠ .moduleLine := by
      intro block hmem
      obtain ⟨⟨s, texts⟩, hcomment, rfl⟩ := List.mem_map.mp hmem
      obtain ⟨place, hleading, hs⟩ := leadingComment_of_mem (by decide) hcloses hcomment
      exact ⟨s, texts, hcomment, rfl, ⟨_, hs.stands⟩,
        (hs.namesFirst_iff texts).mpr (hnames _ _ hleading)⟩
    have hlike : ∀ block ∈ blocks options lines, ∀ v ∈ block.tail, isModuleText v.2 = true →
        v.1.classify v.2 = v.1.classifyLater v.2 := by
      intro block hmem v hv hmodule
      obtain ⟨s, texts, -, rfl, ⟨stage, hs⟩, honly⟩ := hblock block hmem
      obtain ⟨stage', hstage⟩ := hs.exists_stage (List.mem_of_mem_tail hv)
      refine (hstage.classifyLater_eq ?_).symm
      by_contra hlooks
      exact honly v hv (hstage.moduleLine_iff.mpr ⟨Bool.eq_true_of_not_eq_false hlooks, hmodule⟩)
    refine ⟨fun block hmem => ?_, hlike, fun block hmem v hv hmodule hclass => ?_⟩
    · obtain ⟨s, texts, -, -, -, honly⟩ := hblock block hmem
      exact honly
    · rw [← hlike block hmem v hv hmodule] at hclass
      obtain ⟨s, texts, hcomment, rfl, -, -⟩ := hblock block hmem
      have hv := List.mem_of_mem_tail hv
      have hne : v.2 ≠ [] := by
        intro hnil
        rw [hnil, not_isModuleText_nil] at hmodule
        cases hmodule
      have hline := oneLine_comments hcomment v.2 (Scan.mem_of_visits hv)
      exact hout (mem_headerLines currentYear
        (comments_keptLines hcollect hcomment hv hclass hne) hne fun hmem => (hline _ hmem).1 rfl)

end Names

/-- A trailing line of the shape of a module line is kept. -/
theorem only_first_names_trailing :
    let lines := ["// Copyright (C) 2020  Carlo Wood".toList,
      "// This is free software, see www.gnu.org".toList, "// Authors:".toList,
      "// Carlo -- all of it".toList, "int x;".toList]
    ∃ out changed, process ⟨[], []⟩ 2024 lines = some (out, changed) ∧
      OnlyFirstNames ⟨[], []⟩ lines out := by
  intro lines
  have hsome : (process ⟨[], []⟩ 2024 lines).isSome = true := by decide +kernel
  obtain ⟨⟨out, changed⟩, hprocess⟩ := Option.isSome_iff_exists.mp hsome
  refine ⟨out, changed, hprocess, (only_first_names_iff hprocess).mpr fun place texts h => ?_⟩
  have htexts : commentTexts "// Copyright (C) 2020  Carlo Wood".toList lines.tail =
      ["Copyright (C) 2020  Carlo Wood".toList, "This is free software, see www.gnu.org".toList,
        "Authors:".toList, "Carlo -- all of it".toList] := by decide +kernel
  have hskip : skipEmptyLines lines = "// Copyright (C) 2020  Carlo Wood".toList :: lines.tail := rfl
  cases h with
  | first line rest hskip' =>
      obtain ⟨rfl, rfl⟩ := List.cons.inj (hskip.symm.trans hskip')
      rw [htexts]
      exact ⟨by decide +kernel, by decide +kernel, by decide +kernel, trivial⟩
  | behind line rest hskip' hends hmodule hmore =>
      obtain ⟨rfl, rfl⟩ := List.cons.inj (hskip.symm.trans hskip')
      rw [htexts] at hmodule
      obtain ⟨⟨text, hmem, htext⟩, -⟩ := hmodule
      have hnone : ∀ text ∈ searchedTexts .before ["Copyright (C) 2020  Carlo Wood".toList,
          "This is free software, see www.gnu.org".toList, "Authors:".toList,
          "Carlo -- all of it".toList], isModuleText text = false := by decide +kernel
      rw [hnone text hmem] at htext
      cases htext

/-- The third line of the comment is not kept as a line of the signature, but
sets the module, and is lost because the first line did so before. -/
theorem signature_line_names_module :
    let lines := ["// foo -- Foo library".toList, "// Copyright (C) 2020  Carlo Wood".toList,
      "// Carlo -- all of it".toList, "int x;".toList]
    ∃ out changed, process ⟨[], []⟩ 2024 lines = some (out, changed) ∧
      ¬ OnlyFirstNames ⟨[], []⟩ lines out ∧
      Header.doxygenLead ++ "Carlo -- all of it".toList ∉ out := by
  intro lines
  have hlost : (process ⟨[], []⟩ 2024 lines).map
      (fun r => decide (Header.doxygenLead ++ "Carlo -- all of it".toList ∈ r.1)) = some false := by
    decide +kernel
  obtain ⟨⟨out, changed⟩, hprocess, hout⟩ := Option.map_eq_some_iff.mp hlost
  refine ⟨out, changed, hprocess, fun honly => ?_, of_decide_eq_false hout⟩
  have hset : ∃ block ∈ blocks ⟨[], []⟩ lines, ∃ v ∈ block.tail,
      (v.1.classify v.2).1 = .moduleLine := by
    decide +kernel
  obtain ⟨block, hmem, v, hv, hmodule⟩ := hset
  exact honly.only block hmem v hv hmodule

end RewriteHeader
