import TaskSuite.RegexSemantics
import TaskSuite.RewriteHeader
import TaskSuite.Substitution

/-! The names in the license: `canonicalize` makes its replacements one after
the other, each in what the last one has left. For which names is this one
substitution in the original line? -/
namespace RewriteHeader
open Regex Substitution

/-! ### Replacing with a regex -/

section Replace
variable {p fmt s : List Char} {x : Char} {first : Bool} {r : Regex}

theorem format_eq (groups : Nat) (f : Found) (h : '$' ∉ fmt) : format groups f .plain fmt = fmt := by
  induction fmt with
  | nil => rfl
  | cons x fmt ih =>
      obtain ⟨hx, hfmt⟩ := List.ne_and_not_mem_of_not_mem_cons h
      rw [format, if_neg (Ne.symm hx), ih hfmt]

/-- What `regexReplace` makes of the matches that are found. -/
def replaced (fmt : List Char) (all : List Found × List Char) : List Char :=
  all.1.flatMap (fun f => f.before ++ format 0 f .plain fmt) ++ all.2

abbrev front (r : Regex) (first : Bool) (s : List Char) : Option Found :=
  run (.group 0 r) ⟨first, s⟩ (fun _ => []) fun pos c => some ⟨[], c, pos.rest⟩

theorem replaced_nil (n : Nat) (h : front r first [] = none) :
    replaced fmt (findAll r n first []) = [] := by
  cases n with
  | zero => rfl
  | succ n => simp only [findAll, find, h, replaced, List.flatMap_nil, List.append_nil]

theorem replaced_cons {n : Nat} (hfmt : '$' ∉ fmt) (h : front r first (x :: s) = none) :
    replaced fmt (findAll r (n + 1) first (x :: s)) =
      x :: replaced fmt (findAll r (n + 1) false s) := by
  have hfind : find r first (x :: s) =
      (find r false s).map fun f => { f with before := x :: f.before } := by
    simp only [find, h]
  rw [findAll, findAll, hfind]
  cases find r false s with
  | none => rfl
  | some f =>
      simp only [Option.map_some]
      split_ifs
      · rfl
      · simp only [replaced, List.flatMap_cons, format_eq 0 _ hfmt, List.cons_append,
          List.append_assoc]

theorem replaced_found {n : Nat} {f : Found} (hfmt : '$' ∉ fmt) (h : front r first s = some f)
    (hbefore : f.before = []) (hne : f.captures 0 ≠ []) :
    replaced fmt (findAll r (n + 1) first s) = fmt ++ replaced fmt (findAll r n false f.after) := by
  have hempty : (f.captures 0).isEmpty = false := by simpa using hne
  rw [findAll, find_of_run h]
  simp only [hempty, replaced, Bool.false_eq_true, if_false, List.flatMap_cons, hbefore,
    List.nil_append, format_eq 0 f hfmt, List.append_assoc]

theorem front_literal (p s : List Char) (first : Bool) :
    front (literal p) first (p ++ s) = some ⟨[], Function.update (fun _ => []) 0 p, s⟩ := by
  rw [front, run_group, run_literal, take_front]

theorem front_literal_eq_none (h : ¬ p <+: s) : front (literal p) first s = none := by
  refine run_eq_none fun pos c hm => absurd ?_ h
  obtain ⟨c', hm, -⟩ := hm
  exact ⟨pos.rest, (matches_literal.mp hm).1.symm⟩

theorem regexReplace_literal (hp : p ≠ []) (hfmt : '$' ∉ fmt) :
    regexReplace (literal p) 0 s fmt = substitute p fmt s := by
  have hall : ∀ n first, s.length ≤ n →
      replaced fmt (findAll (literal p) n first s) = substitute p fmt s := by
    induction s using substitute_induction hp with
    | nil =>
        intro n first _
        exact replaced_nil n (front_literal_eq_none fun h => hp (List.prefix_nil.mp h))
    | found s ih =>
        intro n first hn
        have hpos := List.length_pos_iff.mpr hp
        rw [List.length_append] at hn
        obtain ⟨m, rfl⟩ : ∃ m, n = m + 1 := ⟨n - 1, by omega⟩
        rw [replaced_found hfmt (front_literal p s first) rfl (by simpa using hp),
          substitute_append_self hp, ih m false (by omega)]
    | skip x s hfront ih =>
        intro n first hn
        rw [List.length_cons] at hn
        obtain ⟨m, rfl⟩ : ∃ m, n = m + 1 := ⟨n - 1, by omega⟩
        rw [replaced_cons hfmt (front_literal_eq_none hfront), substitute_cons hfront,
          ih (m + 1) false (by omega)]
  exact hall s.length true le_rfl

def startRegexp (x : Char) (xs : List Char) : Regex :=
  concat [.bol, oneOf [x.toUpper, x.toLower], literal xs]

theorem find_start_eq_none (x : Char) (xs s : List Char) : find (startRegexp x xs) false s = none := by
  have hfront : ∀ s, front (startRegexp x xs) false s = none := fun s => by
    simp [front, startRegexp, concat]
  induction s with
  | nil => simp only [find, hfront]
  | cons y s ih => simp only [find, hfront, ih, Option.map_none]

theorem front_start {y : Char} {xs : List Char} (hy : y = x.toUpper ∨ y = x.toLower) :
    front (startRegexp x xs) true (y :: xs ++ s) =
      some ⟨[], Function.update (fun _ => []) 0 (y :: xs), s⟩ := by
  have hone : (decide (y ∈ [x.toUpper, x.toLower])) = true := by simpa using hy
  have htake := take_front (y :: xs) s
  simp only [front, startRegexp, concat, run_group, run_seq, run_bol, if_true, oneOf, List.cons_append,
    run_char_cons, hone, run_literal, run_empty] at htake ⊢
  rw [htake]

theorem front_start_eq_none {xs : List Char} (hupper : ¬ x.toUpper :: xs <+: s)
    (hlower : ¬ x.toLower :: xs <+: s) : front (startRegexp x xs) true s = none := by
  refine run_eq_none fun pos c hm => absurd hm ?_
  rintro ⟨c', ⟨pos₁, c₁, ⟨-, rfl, rfl⟩, pos₂, c₂, ⟨y, hy, hcase, -, rfl⟩, pos₃, c₃, hword, rfl, -⟩, -⟩
  have hs : s = y :: xs ++ pos.rest := by
    rw [List.cons_append, ← (matches_literal.mp hword).1]
    exact hy
  have hy' : y = x.toUpper ∨ y = x.toLower := by simpa using hcase
  rcases hy' with rfl | rfl
  · exact hupper ⟨pos.rest, hs.symm⟩
  · exact hlower ⟨pos.rest, hs.symm⟩

theorem regexReplace_start (x : Char) (xs : List Char) (hfmt : '$' ∉ fmt) :
    regexReplace (startRegexp x xs) 0 s fmt =
      substituteFront [x.toUpper :: xs, x.toLower :: xs] fmt s := by
  have hrest : ∀ n s, replaced fmt (findAll (startRegexp x xs) n false s) = s := by
    intro n s
    cases n with
    | zero => rfl
    | succ n => simp only [findAll, find_start_eq_none, replaced, List.flatMap_nil, List.nil_append]
  have hfound : ∀ y t, (y = x.toUpper ∨ y = x.toLower) →
      regexReplace (startRegexp x xs) 0 (y :: xs ++ t) fmt = fmt ++ t := by
    intro y t hy
    have hfront : front (startRegexp x xs) true (y :: xs ++ t) = _ := front_start hy
    have hstep := replaced_found (n := (xs ++ t).length) hfmt hfront rfl (by simp)
    rw [hrest] at hstep
    exact hstep
  rw [substituteFront]
  by_cases hupper : x.toUpper :: xs <+: s
  · obtain ⟨t, rfl⟩ := hupper
    rw [hfound _ t (.inl rfl), List.find?_cons_of_pos (by simp)]
    simp
  · by_cases hlower : x.toLower :: xs <+: s
    · obtain ⟨t, rfl⟩ := hlower
      rw [hfound _ t (.inr rfl), List.find?_cons_of_neg (by simpa using hupper),
        List.find?_cons_of_pos (by simp)]
      simp
    · have hnone := front_start_eq_none hupper hlower
      have hsearch : regexSearch (startRegexp x xs) s = none := by
        cases s with
        | nil => simp only [regexSearch, find, hnone, Option.map_none]
        | cons y s => simp only [regexSearch, find, hnone, find_start_eq_none, Option.map_none]
      rw [regexReplace_of_none hsearch, List.find?_eq_none.mpr (by simp [hupper, hlower])]

end Replace

/-! ### Names -/

structure IsName (name : Line) : Prop where
  nonempty : name ≠ []
  chars : ∀ x ∈ name, isPartOfChar x = true

def upperPhrase : Line := "This program".toList

def lowerPhrase : Line := "this program".toList

def eitherCase : Line → List Line
  | [] => []
  | x :: xs => [x.toUpper :: xs, x.toLower :: xs]

/-- The two phrases, as `canonicalize` replaces them one after the other. -/
def phrasesInTurn (new line : Line) : Line :=
  substitute lowerPhrase new (substitute upperPhrase (Header.capitalize new) line)

/-- The replacements of `canonicalize`, as replacements of texts. -/
def renameInTurn (old new line : Line) : Line :=
  substitute old new
    (substituteFront (eitherCase old) (Header.capitalize new) (phrasesInTurn new line))

/-- The two phrases, in the original line. -/
def phrasesOnce (new line : Line) : List (Piece Char) :=
  substitute (lowerPhrase.map .kept) [.put new]
    (substitute (upperPhrase.map .kept) [.put (Header.capitalize new)] (line.map .kept))

/-- One substitution in the original line: of the two phrases first, and then,
in what they leave of it, of the old name, at its front or elsewhere. -/
def renameOnce (old new line : Line) : Line :=
  expand (substitute (old.map .kept) [.put new]
    (substituteFront ((eitherCase old).map fun name => name.map .kept)
      [.put (Header.capitalize new)] (phrasesOnce new line)))

/-- The old name overlaps neither with the new one nor with its capitalised
form, in the case that is looked for at the front of a line too, and no end of
the new name goes on as the phrase does. -/
structure NamesApart (old new : Line) : Prop where
  phrase : ∀ k, 0 < k → k ≤ 4 → ¬ lowerPhrase.take k <:+ new.tail
  plain : ¬ Overlap old new
  capital : ¬ Overlap old (Header.capitalize new)
  start : Header.capitalize old <+: Header.capitalize new ∨
    Header.capitalize new <+: Header.capitalize old →
    Header.capitalize old = Header.capitalize new

instance (name : Line) : Decidable (IsName name) :=
  decidable_of_iff (name ≠ [] ∧ ∀ x ∈ name, isPartOfChar x = true)
    ⟨fun ⟨h1, h2⟩ => ⟨h1, h2⟩, fun h => ⟨h.nonempty, h.chars⟩⟩

instance (old new : Line) : Decidable (NamesApart old new) :=
  decidable_of_iff ((∀ k < 5, 0 < k → ¬ lowerPhrase.take k <:+ new.tail) ∧ ¬ Overlap old new ∧
    ¬ Overlap old (Header.capitalize new) ∧
    (Header.capitalize old <+: Header.capitalize new ∨
      Header.capitalize new <+: Header.capitalize old →
      Header.capitalize old = Header.capitalize new))
    ⟨fun ⟨h1, h2, h3, h4⟩ => ⟨fun k hk hk4 => h1 k (Nat.lt_succ_of_le hk4) hk, h2, h3, h4⟩,
      fun h => ⟨fun k hk5 hk => h.phrase k hk (Nat.le_of_lt_succ hk5), h.plain, h.capital, h.start⟩⟩

section Chars
variable {x y : Char}

theorem toNat_lt_of_isPartOfChar (h : isPartOfChar x = true) : x.toNat < 128 := by
  have hlt : ∀ {m : UInt32}, x.val ≤ m → m.toNat < 128 → x.toNat < 128 := fun hle hm =>
    Nat.lt_of_le_of_lt (UInt32.le_iff_toNat_le.mp hle) hm
  simp only [isPartOfChar, Bool.or_eq_true, beq_iff_eq] at h
  rcases h with ((halpha | hdigit) | rfl) | rfl
  · rcases Bool.or_eq_true_iff.mp (show (x.isUpper || x.isLower) = true from halpha) with h | h
    · exact hlt (of_decide_eq_true h).2 (by decide)
    · exact hlt (of_decide_eq_true (Bool.and_eq_true_iff.mp h).2) (by decide)
  · exact hlt (of_decide_eq_true (Bool.and_eq_true_iff.mp hdigit).2) (by decide)
  · decide
  · decide

theorem forall_isPartOfChar {P : Char → Prop}
    (h : ∀ n < 128, isPartOfChar (Char.ofNat n) = true → P (Char.ofNat n))
    (hx : isPartOfChar x = true) : P x := by
  have hofNat : Char.ofNat x.toNat = x := Char.ofNat_toNat x
  rw [← hofNat]
  refine h x.toNat (toNat_lt_of_isPartOfChar hx) ?_
  rw [hofNat]
  exact hx

theorem isPartOfChar_toUpper (h : isPartOfChar x = true) : isPartOfChar x.toUpper = true :=
  forall_isPartOfChar (P := fun x => isPartOfChar x.toUpper = true) (by decide +kernel) h

theorem toUpper_not_mem (h : isPartOfChar x = true) : x.toUpper ∉ lowerPhrase :=
  forall_isPartOfChar (P := fun x => x.toUpper ∉ lowerPhrase) (by decide +kernel) h

theorem toUpper_cases (h : isPartOfChar x = true) : x = x.toUpper ∨ x = x.toUpper.toLower :=
  forall_isPartOfChar (P := fun x => x = x.toUpper ∨ x = x.toUpper.toLower) (by decide +kernel) h

theorem toUpper_of_eitherCase (h : isPartOfChar x = true) (hy : y = x.toUpper ∨ y = x.toLower) :
    y.toUpper = x.toUpper := by
  have hupper := forall_isPartOfChar (P := fun x => x.toUpper.toUpper = x.toUpper)
    (by decide +kernel) h
  have hlower := forall_isPartOfChar (P := fun x => x.toLower.toUpper = x.toUpper)
    (by decide +kernel) h
  rcases hy with rfl | rfl
  · exact hupper
  · exact hlower

end Chars

section Names
variable {old new line : Line} {x : Char}

theorem IsName.not_mem (h : IsName new) (hx : isPartOfChar x = false) : x ∉ new := fun hmem => by
  rw [h.chars x hmem] at hx
  cases hx

theorem IsName.capitalize (h : IsName new) : IsName (Header.capitalize new) := by
  obtain ⟨c, cs, rfl⟩ := List.exists_cons_of_ne_nil h.nonempty
  obtain ⟨hc, hcs⟩ := List.forall_mem_cons.mp h.chars
  exact ⟨List.cons_ne_nil _ _, List.forall_mem_cons.mpr ⟨isPartOfChar_toUpper hc, hcs⟩⟩

/-- The regexes of `canonicalize` look for texts. -/
theorem rename_eq_inTurn {h : Header} (hold : IsName h.oldModuleName) (hnew : IsName h.moduleName) :
    h.rename line = renameInTurn h.oldModuleName h.moduleName line := by
  have hplain : '$' ∉ h.moduleName := hnew.not_mem (by decide)
  have hcapital : '$' ∉ Header.capitalize h.moduleName := hnew.capitalize.not_mem (by decide)
  rw [Header.rename, renameInTurn, phrasesInTurn]
  obtain ⟨x, xs, hcases⟩ := List.exists_cons_of_ne_nil hold.nonempty
  simp only [hcases]
  rw [regexReplace_literal (p := "This program".toList) (by decide) hcapital,
    regexReplace_literal (p := "this program".toList) (by decide) hplain,
    regexReplace_literal (List.cons_ne_nil x xs) hplain]
  exact congrArg _ (regexReplace_start x xs hcapital)

theorem not_overlap_lowerPhrase (hnew : IsName new)
    (hphrase : ∀ k, 0 < k → k ≤ 4 → ¬ lowerPhrase.take k <:+ new.tail) :
    ¬ Overlap lowerPhrase (Header.capitalize new) := by
  have hspace : ' ' ∉ Header.capitalize new := hnew.capitalize.not_mem (by decide)
  obtain ⟨c, cs, rfl⟩ := List.exists_cons_of_ne_nil hnew.nonempty
  have hc : c.toUpper ∉ lowerPhrase := toUpper_not_mem (hnew.chars c (List.mem_cons_self ..))
  rintro (hinside | hinside | ⟨w, hw, hfront, hend⟩ | ⟨w, hw, hend, hfront⟩)
  · exact hspace (hinside.subset (by decide))
  · exact hc (hinside.subset (List.mem_cons_self ..))
  · rcases List.suffix_cons_iff.mp hend with rfl | hend'
    · exact hc (hfront.subset (List.mem_cons_self ..))
    · have htake := List.prefix_iff_eq_take.mp hfront
      have hpos := List.length_pos_iff.mpr hw
      refine hphrase w.length hpos ?_ (htake ▸ hend')
      by_contra hlong
      refine hspace (hend.subset ?_)
      rw [htake]
      have hfive : lowerPhrase.take 5 <+: lowerPhrase.take w.length :=
        List.take_prefix_take_left (by omega)
      exact hfive.subset (by decide)
  · obtain ⟨y, w, rfl⟩ := List.exists_cons_of_ne_nil hw
    obtain ⟨rfl, -⟩ := List.cons_prefix_cons.mp hfront
    exact hc (hend.subset (List.mem_cons_self ..))

theorem mem_eitherCase {name xs : Line} (h : name ∈ eitherCase (x :: xs)) :
    ∃ z, name = z :: xs ∧ (z = x.toUpper ∨ z = x.toLower) := by
  simp only [eitherCase, List.mem_cons, List.not_mem_nil, or_false] at h
  rcases h with rfl | rfl
  · exact ⟨_, rfl, .inl rfl⟩
  · exact ⟨_, rfl, .inr rfl⟩

theorem length_of_mem_eitherCase {name : Line} (h : name ∈ eitherCase old) :
    name.length = old.length := by
  cases old with
  | nil => cases h
  | cons x xs =>
      obtain ⟨z, rfl, -⟩ := mem_eitherCase h
      rfl

/-- Where the old name is found in what was put at the front of a line, it is
found as a whole, and gives way to itself. -/
theorem capitalize_eq_of_front {t rest name : Line} (hold : IsName old) (hnew : IsName new)
    (hne : old ≠ new) (hapart : NamesApart old new) (ht : t = Header.capitalize new ∨ t = new)
    (hname : name ∈ eitherCase old) (hfront : name <+: t ++ rest) :
    t = Header.capitalize new ∧ t.length = old.length := by
  obtain ⟨x, xs, rfl⟩ := List.exists_cons_of_ne_nil hold.nonempty
  obtain ⟨c, cs, rfl⟩ := List.exists_cons_of_ne_nil hnew.nonempty
  have hx := hold.chars x (List.mem_cons_self ..)
  have hc := hnew.chars c (List.mem_cons_self ..)
  obtain ⟨z, rfl, hz⟩ := mem_eitherCase hname
  obtain ⟨d, rfl, hd⟩ : ∃ d, t = d :: cs ∧ (d = c.toUpper ∨ d = c) := by
    rcases ht with rfl | rfl
    · exact ⟨_, rfl, .inl rfl⟩
    · exact ⟨_, rfl, .inr rfl⟩
  obtain ⟨rfl, hrest⟩ := List.cons_prefix_cons.mp hfront
  have hupper : z.toUpper = c.toUpper := by
    rcases hd with rfl | rfl
    · exact toUpper_of_eitherCase hc (.inl rfl)
    · rfl
  have hsame : Header.capitalize (x :: xs) = Header.capitalize (c :: cs) := by
    have hhead : x.toUpper = c.toUpper := (toUpper_of_eitherCase hx hz).symm.trans hupper
    refine hapart.start ?_
    rw [Header.capitalize, Header.capitalize, hhead]
    rcases List.prefix_or_prefix_of_prefix hrest (List.prefix_append cs rest) with h | h
    · exact .inl (List.cons_prefix_cons.mpr ⟨rfl, h⟩)
    · exact .inr (List.cons_prefix_cons.mpr ⟨rfl, h⟩)
  obtain ⟨hhead, rfl⟩ := List.cons.inj hsame
  refine ⟨?_, rfl⟩
  rcases hd with rfl | rfl
  · rfl
  · -- otherwise the old name is the capitalised one, or the new one itself
    have hcapital : x ≠ z.toUpper := by
      rintro rfl
      exact hapart.capital (.inl List.infix_rfl)
    rcases toUpper_cases hc with hc' | hc'
    · rw [Header.capitalize, ← hc']
    · rcases toUpper_cases hx with hx' | hx'
      · exact absurd (hx'.trans hhead) hcapital
      · rw [hhead, ← hc'] at hx'
        exact absurd (by rw [hx']) hne

/-- A name at the front of a line is looked for in the original line. -/
theorem expand_substituteFront {s : List (Piece Char)} (hold : IsName old) (hnew : IsName new)
    (hne : old ≠ new) (hapart : NamesApart old new)
    (hputs : ∀ t, .put t ∈ s → t = Header.capitalize new ∨ t = new) :
    expand (substituteFront ((eitherCase old).map fun name => name.map .kept)
        [.put (Header.capitalize new)] s) =
      substituteFront (eitherCase old) (Header.capitalize new) (expand s) := by
  have hcode : ∀ {s name}, name ∈ eitherCase old → name <+: s →
      substituteFront (eitherCase old) (Header.capitalize new) s =
        Header.capitalize new ++ s.drop old.length := fun hname hfront =>
    substituteFront_of_front (fun _ => length_of_mem_eitherCase) ⟨_, hname, hfront⟩
  by_cases hkept : ∃ name ∈ eitherCase old, name.map Piece.kept <+: s
  · obtain ⟨name, hname, rest, rfl⟩ := hkept
    have hlen := length_of_mem_eitherCase hname
    have hname' : name.map Piece.kept ∈
        (eitherCase old).map fun name => name.map (Piece.kept : Char → Piece Char) :=
      List.mem_map.mpr ⟨name, hname, rfl⟩
    have hlens : ∀ p ∈ (eitherCase old).map fun name => name.map (Piece.kept : Char → Piece Char),
        p.length = old.length := by
      intro p hp
      obtain ⟨name, hname, rfl⟩ := List.mem_map.mp hp
      rw [List.length_map]
      exact length_of_mem_eitherCase hname
    rw [substituteFront_of_front hlens ⟨_, hname', List.prefix_append _ _⟩, expand_append,
      expand_append, expand_kept, hcode hname (List.prefix_append _ _), ← hlen]
    simp [expand, Piece.text]
  · rw [substituteFront_of_absent (s := s) (by simpa using hkept)]
    by_cases hfront : ∃ name ∈ eitherCase old, name <+: expand s
    · obtain ⟨name, hname, hfront⟩ := hfront
      rw [hcode hname hfront]
      obtain ⟨x, xs, rfl⟩ := List.exists_cons_of_ne_nil hold.nonempty
      cases s with
      | nil =>
          obtain ⟨z, rfl, -⟩ := mem_eitherCase hname
          cases List.prefix_nil.mp hfront
      | cons piece s =>
          cases piece with
          | kept y =>
              -- the rest of the name stands in the original line, and so does all of it
              obtain ⟨z, rfl, -⟩ := mem_eitherCase hname
              obtain ⟨rfl, hrest⟩ := List.cons_prefix_cons.mp hfront
              have hputs' : ∀ t, .put t ∈ s → ¬ Overlap (x :: xs) t := by
                intro t ht
                rcases hputs t (List.mem_cons_of_mem _ ht) with rfl | rfl
                · exact hapart.capital
                · exact hapart.plain
              have hxs := kept_front (List.suffix_cons x xs) hputs' hrest
              exact absurd ⟨_, hname, List.cons_prefix_cons.mpr ⟨rfl, hxs⟩⟩ hkept
          | put t =>
              obtain ⟨rfl, hlen⟩ := capitalize_eq_of_front hold hnew hne hapart
                (hputs t (List.mem_cons_self ..)) hname hfront
              rw [expand_put_cons, ← hlen, List.drop_left]
    · rw [substituteFront_of_absent (by simpa using hfront)]

theorem put_of_mem_phrasesOnce {t : Line} (h : .put t ∈ phrasesOnce new line) :
    t = Header.capitalize new ∨ t = new := by
  rcases put_of_mem_substitute (by decide) h with rfl | h
  · exact .inr rfl
  · refine .inl ((put_of_mem_substitute (by decide) h).resolve_right ?_)
    simp

theorem expand_phrasesOnce (hphrase : ¬ Overlap lowerPhrase (Header.capitalize new)) :
    expand (phrasesOnce new line) = phrasesInTurn new line := by
  have hnever : ∀ t, Piece.put t ∉ line.map (Piece.kept : Char → Piece Char) := by simp
  rw [phrasesOnce, phrasesInTurn, expand_substitute (by decide) fun t ht => ?_,
    expand_substitute (by decide) fun t ht => absurd ht (hnever t), expand_kept]
  rw [(put_of_mem_substitute (by decide) ht).resolve_right (hnever t)]
  exact hphrase

/-- Names that are apart are put in once. -/
theorem renameInTurn_eq (hold : IsName old) (hnew : IsName new) (hne : old ≠ new)
    (hapart : NamesApart old new) : renameInTurn old new line = renameOnce old new line := by
  have hputs : ∀ t, .put t ∈ phrasesOnce new line → t = Header.capitalize new ∨ t = new :=
    fun t ht => put_of_mem_phrasesOnce ht
  rw [renameInTurn, renameOnce, expand_substitute hold.nonempty fun t ht => ?_,
    expand_substituteFront hold hnew hne hapart hputs,
    expand_phrasesOnce (not_overlap_lowerPhrase hnew hapart.phrase)]
  rcases put_of_mem_substituteFront ht with rfl | ht
  · exact hapart.capital
  · rcases hputs t ht with rfl | rfl
    · exact hapart.capital
    · exact hapart.plain

end Names

/-! ### Names that are not apart -/

section Once
variable {old new : Line}

theorem upperPhrase_kept : upperPhrase.map Piece.kept =
    "This".toList.map Piece.kept ++ Piece.kept ' ' :: "program".toList.map Piece.kept := rfl

theorem lowerPhrase_kept : lowerPhrase.map Piece.kept =
    "this".toList.map Piece.kept ++ Piece.kept ' ' :: "program".toList.map Piece.kept := rfl

theorem length_lowerPhrase : lowerPhrase.length = 12 := rfl

theorem kept_space_not_mem {l : Line} (h : ' ' ∉ l) : Piece.kept ' ' ∉ l.map Piece.kept := by
  simpa using h

theorem phrasesOnce_upper {a b : Line} (ha : ' ' ∉ a) (hb : ' ' ∉ b) :
    phrasesOnce new (a ++ (upperPhrase ++ b)) =
      a.map .kept ++ ([.put (Header.capitalize new)] ++ b.map .kept) := by
  rw [phrasesOnce, List.map_append, List.map_append,
    substitute_unique upperPhrase_kept (by decide) (by decide) (kept_space_not_mem ha)
      (kept_space_not_mem hb), substitute_of_absent]
  intro hinside
  have hmem : Piece.kept ' ' ∈ lowerPhrase.map Piece.kept := by decide
  have hspace := hinside.subset hmem
  simp [ha, hb] at hspace

theorem phrasesOnce_lower {a b : Line} (ha : ' ' ∉ a) (hb : ' ' ∉ b) :
    phrasesOnce new (a ++ (lowerPhrase ++ b)) = a.map .kept ++ ([.put new] ++ b.map .kept) := by
  have hupper : ¬ upperPhrase.map Piece.kept <:+:
      a.map Piece.kept ++ (lowerPhrase.map Piece.kept ++ b.map Piece.kept) :=
    not_infix_of_ne upperPhrase_kept lowerPhrase_kept (by decide) (by decide) (kept_space_not_mem ha)
      (kept_space_not_mem hb) rfl (by decide)
  rw [phrasesOnce, List.map_append, List.map_append, substitute_of_absent hupper,
    substitute_unique lowerPhrase_kept (by decide) (by decide) (kept_space_not_mem ha)
      (kept_space_not_mem hb)]

theorem substitute_around {u v B : Line} (hold : IsName old) (hu : u.length < old.length)
    (hv : v.length < old.length) (r : List (Piece Char)) :
    substitute (old.map .kept) r (.kept '.' :: (u.map .kept ++ ([.put B] ++ v.map .kept))) =
      .kept '.' :: (u.map .kept ++ ([.put B] ++ v.map .kept)) := by
  have hdot : Piece.kept '.' ∉ old.map Piece.kept := by
    simpa using hold.not_mem (x := '.') (by decide)
  refine substitute_of_absent fun hinside => ?_
  have hshort : ∀ {l : Line}, l.length < old.length →
      ¬ old.map Piece.kept <:+: l.map (Piece.kept : Char → Piece Char) := by
    intro l hl h
    have hle := h.length_le
    simp only [List.length_map] at hle
    omega
  rcases infix_of_infix_append_cons (a := []) hdot hinside with h | h
  · exact hold.nonempty (by simpa using h)
  · rcases infix_of_infix_append_cons (x := Piece.put B) (by simp) h with h | h
    · exact hshort hu h
    · exact hshort hv h

theorem ne_dot_of_mem_eitherCase {name : Line} (hold : IsName old) (h : name ∈ eitherCase old) :
    ∃ z zs, name = z :: zs ∧ z ≠ '.' := by
  obtain ⟨x, xs, rfl⟩ := List.exists_cons_of_ne_nil hold.nonempty
  have hx := hold.chars x (List.mem_cons_self ..)
  obtain ⟨z, rfl, rfl | rfl⟩ := mem_eitherCase h
  · exact ⟨_, xs, rfl, forall_isPartOfChar (P := fun x => x.toUpper ≠ '.') (by decide +kernel) hx⟩
  · exact ⟨_, xs, rfl, forall_isPartOfChar (P := fun x => x.toLower ≠ '.') (by decide +kernel) hx⟩

theorem substituteFront_dot (hold : IsName old) (r s : Line) :
    substituteFront (eitherCase old) r ('.' :: s) = '.' :: s := by
  refine substituteFront_of_absent fun name hname hfront => ?_
  obtain ⟨z, zs, rfl, hz⟩ := ne_dot_of_mem_eitherCase hold hname
  exact hz (List.cons_prefix_cons.mp hfront).1

theorem substituteFront_piece {piece : Piece Char} (hold : IsName old)
    (hpiece : ∀ x, piece = .kept x → x = '.') (r s : List (Piece Char)) :
    substituteFront ((eitherCase old).map fun name => name.map .kept) r (piece :: s) = piece :: s := by
  refine substituteFront_of_absent fun p hp hfront => ?_
  obtain ⟨name, hname, rfl⟩ := List.mem_map.mp hp
  obtain ⟨z, zs, rfl, hz⟩ := ne_dot_of_mem_eitherCase hold hname
  exact hz (hpiece z (List.cons_prefix_cons.mp hfront).1.symm)

/-- A name that overlaps with what is put in for a phrase is replaced in it. -/
theorem not_overlap_of_once {P B : Line} (hold : IsName old) (hne : old ≠ new) (hB : B ≠ [])
    (hP : ∀ a b : Line, ' ' ∉ a → ' ' ∉ b → phrasesOnce new (a ++ (P ++ b)) =
      a.map .kept ++ ([.put B] ++ b.map .kept))
    (hphrase : ¬ Overlap lowerPhrase (Header.capitalize new))
    (hall : ∀ line, renameInTurn old new line = renameOnce old new line) : ¬ Overlap old B := by
  intro hoverlap
  obtain ⟨u, v, hinside, hu, hv, huold, hvold⟩ := hoverlap.exists_context hold.nonempty hB
  have hspace : ∀ {l : Line}, l ⊆ old → ' ' ∉ l := fun hl hmem => hold.not_mem (by decide) (hl hmem)
  have hpieces : phrasesOnce new ('.' :: u ++ (P ++ v)) =
      .kept '.' :: (u.map .kept ++ ([.put B] ++ v.map .kept)) :=
    hP ('.' :: u) v (by simpa using hspace huold) (hspace hvold)
  have hline := hall ('.' :: u ++ (P ++ v))
  rw [renameInTurn, renameOnce, ← expand_phrasesOnce hphrase, hpieces,
    substituteFront_piece hold (by simp), substitute_around hold hu hv, expand_kept_cons,
    substituteFront_dot hold] at hline
  have hexpand : expand (u.map Piece.kept ++ ([.put B] ++ v.map .kept)) = u ++ (B ++ v) := by
    simp [expand_append, expand_put_cons]
  rw [hexpand] at hline
  exact substitute_ne hold.nonempty hne.symm (hinside.trans (List.suffix_cons '.' _).isInfix) hline

/-- The phrase that a capitalised name goes on as is taken for a phrase of the line. -/
theorem phrasesInTurn_of_suffix {k : Nat} (hnew : IsName new) (hk : lowerPhrase.take k <:+ new.tail) :
    ' ' ∉ phrasesInTurn new (upperPhrase ++ lowerPhrase.drop k) := by
  have hspace : ' ' ∉ new := hnew.not_mem (by decide)
  have hcapital : ' ' ∉ Header.capitalize new := hnew.capitalize.not_mem (by decide)
  obtain ⟨c, cs, rfl⟩ := List.exists_cons_of_ne_nil hnew.nonempty
  obtain ⟨m, rfl⟩ : ∃ m, m ++ lowerPhrase.take k = cs := hk
  have hupper : ¬ upperPhrase <:+: lowerPhrase.drop k := by
    intro hinside
    have hT : 'T' ∈ lowerPhrase := List.mem_of_mem_drop (hinside.subset (by decide))
    revert hT
    decide
  have hjoin : Header.capitalize (c :: (m ++ lowerPhrase.take k)) ++ lowerPhrase.drop k =
      (c.toUpper :: m) ++ (lowerPhrase ++ []) := by
    simp [Header.capitalize, List.take_append_drop]
  have hm : ' ' ∉ c.toUpper :: m := fun h => hcapital ((List.prefix_append _ _).subset h)
  have hlower : lowerPhrase = "this".toList ++ ' ' :: "program".toList := rfl
  rw [phrasesInTurn, substitute_append_self (by decide), substitute_of_absent hupper, hjoin,
    substitute_unique hlower (by decide) (by decide) hm List.not_mem_nil, List.append_nil,
    List.mem_append]
  exact fun h => h.elim hm hspace

theorem not_suffix_of_once (hold : IsName old) (hnew : IsName new)
    (hall : ∀ line, renameInTurn old new line = renameOnce old new line) {k : Nat} (hk : 0 < k)
    (hk4 : k ≤ 4) : ¬ lowerPhrase.take k <:+ new.tail := by
  intro hsuffix
  have hline := hall (upperPhrase ++ lowerPhrase.drop k)
  have hturn : ' ' ∉ renameInTurn old new (upperPhrase ++ lowerPhrase.drop k) := by
    intro h
    rcases mem_substitute hold.nonempty h with h | h
    · exact hnew.not_mem (by decide) h
    · rcases mem_substituteFront h with h | h
      · exact hnew.capitalize.not_mem (by decide) h
      · exact phrasesInTurn_of_suffix hnew hsuffix h
  have hpieces : phrasesOnce new (upperPhrase ++ lowerPhrase.drop k) =
      .put (Header.capitalize new) :: (lowerPhrase.drop k).map .kept := by
    have hshort : ∀ {l : Line}, l.length = 12 →
        ¬ l.map Piece.kept <:+: (lowerPhrase.drop k).map (Piece.kept : Char → Piece Char) := by
      intro l hl h
      have hle := h.length_le
      rw [List.length_map, List.length_map, List.length_drop, hl, length_lowerPhrase] at hle
      omega
    rw [phrasesOnce, List.map_append, substitute_append_self (by decide),
      substitute_of_absent (hshort (by decide)), List.singleton_append, substitute_of_absent]
    intro h
    rcases infix_of_infix_append_cons (a := []) (x := Piece.put (Header.capitalize new)) (by simp)
      h with h | h
    · exact absurd (List.infix_nil.mp h) (by decide)
    · exact hshort (by decide) h
  refine hturn ?_
  rw [hline, renameOnce, hpieces, substituteFront_piece hold (by simp)]
  refine mem_expand_of_kept (mem_substitute_of_not_mem (by simpa using hold.nonempty) ?_ ?_)
  · have hmem : ' ' ∈ lowerPhrase.drop k := by
      have hdrop : lowerPhrase.drop 4 <:+ lowerPhrase.drop k := by
        rw [show 4 = k + (4 - k) by omega, ← List.drop_drop]
        exact List.drop_suffix _ _
      exact hdrop.subset (by decide)
    exact List.mem_cons_of_mem _ (List.mem_map_of_mem hmem)
  · simpa using hold.not_mem (x := ' ') (by decide)

theorem length_capitalize (name : Line) : (Header.capitalize name).length = name.length := by
  cases name with
  | nil => rfl
  | cons x xs => rfl

/-- A line that starts with the first phrase, and goes on as the old name does. -/
theorem front_of_once {w : Line} (hold : IsName old) (hw : ' ' ∉ w) (hlen : w.length < old.length)
    (hcapital : ¬ Overlap old (Header.capitalize new))
    (hphrase : ¬ Overlap lowerPhrase (Header.capitalize new))
    (hall : ∀ line, renameInTurn old new line = renameOnce old new line)
    (hfront : Header.capitalize old <+: Header.capitalize new ++ w) :
    substitute old new ((Header.capitalize new ++ w).drop old.length) = w := by
  have hline := hall (upperPhrase ++ w)
  have hpieces : phrasesOnce new (upperPhrase ++ w) =
      .put (Header.capitalize new) :: w.map .kept := phrasesOnce_upper List.not_mem_nil hw
  have honce : renameOnce old new (upperPhrase ++ w) = Header.capitalize new ++ w := by
    rw [renameOnce, hpieces, substituteFront_piece hold (by simp), substitute_of_absent,
      expand_put_cons, expand_kept]
    intro h
    rcases infix_of_infix_append_cons (a := []) (x := Piece.put (Header.capitalize new)) (by simp)
      h with h | h
    · exact hold.nonempty (by simpa using h)
    · have hle := h.length_le
      rw [List.length_map, List.length_map] at hle
      omega
  have hmem : Header.capitalize old ∈ eitherCase old := by
    obtain ⟨x, xs, rfl⟩ := List.exists_cons_of_ne_nil hold.nonempty
    exact List.mem_cons_self ..
  rw [honce, renameInTurn, ← expand_phrasesOnce hphrase, hpieces, expand_put_cons, expand_kept,
    substituteFront_of_front (fun _ => length_of_mem_eitherCase) ⟨_, hmem, hfront⟩,
    substitute_append fun u hu hsuffix h => hcapital (overlap_of_start hu hsuffix h)] at hline
  exact List.append_cancel_left hline

theorem start_of_once (hold : IsName old) (hnew : IsName new)
    (hcapital : ¬ Overlap old (Header.capitalize new))
    (hphrase : ¬ Overlap lowerPhrase (Header.capitalize new))
    (hall : ∀ line, renameInTurn old new line = renameOnce old new line)
    (h : Header.capitalize old <+: Header.capitalize new ∨
      Header.capitalize new <+: Header.capitalize old) :
    Header.capitalize old = Header.capitalize new := by
  have hlen := length_capitalize old
  rcases h with ⟨w, hw⟩ | ⟨w, hw⟩
  · -- the end of the new name is written twice
    have hsub := front_of_once (w := []) hold List.not_mem_nil (List.length_pos_iff.mpr hold.nonempty)
      hcapital hphrase hall (by rw [List.append_nil, ← hw]; exact List.prefix_append _ _)
    rw [List.append_nil, ← hw, ← hlen, List.drop_left, substitute_of_absent] at hsub
    · rw [← hw, hsub, List.append_nil]
    · intro hinside
      refine hcapital (.inl (hinside.trans ?_))
      rw [← hw]
      exact (List.suffix_append _ w).isInfix
  · -- the end of the old name is dropped
    have hspace : ' ' ∉ w := by
      have hnot : ' ' ∉ Header.capitalize old := hold.capitalize.not_mem (by decide)
      rw [← hw] at hnot
      exact fun hmem => hnot (List.mem_append_right _ hmem)
    have hshort : w.length < old.length := by
      have hpos := List.length_pos_iff.mpr hnew.capitalize.nonempty
      rw [← hlen, ← hw, List.length_append]
      omega
    have hsub := front_of_once hold hspace hshort hcapital hphrase hall (by rw [hw])
    rw [hw, ← hlen, List.drop_length] at hsub
    rw [← hw, ← hsub]
    exact List.append_nil _

end Once

theorem license_canonicalize {h : Header} (hold : IsName h.oldModuleName) (hnew : IsName h.moduleName)
    (currentYear : Nat) : (h.canonicalize currentYear).license =
      (if h.license.isEmpty then Header.defaultLicense else h.license).map
        (renameInTurn h.oldModuleName h.moduleName) := by
  have hname : h.moduleName.isEmpty ≠ true := by simpa using hnew.nonempty
  refine (if_neg hname).trans (List.map_congr_left fun line _ => ?_)
  exact rename_eq_inTurn hold hnew

/-- The names in every license are replaced as in one substitution exactly if
the old and the new name are apart. -/
theorem rename_once_iff (old new : Line) (hold : IsName old) (hnew : IsName new) (hne : old ≠ new) :
    (∀ (h : Header) (currentYear : Nat), h.moduleName = new → h.oldModuleName = old →
      (h.canonicalize currentYear).license =
        (if h.license.isEmpty then Header.defaultLicense else h.license).map (renameOnce old new)) ↔
      NamesApart old new := by
  constructor
  · intro hevery
    have hall : ∀ line, renameInTurn old new line = renameOnce old new line := by
      intro line
      let h : Header := { Header.new ⟨new, []⟩ with oldModuleName := old, license := [line] }
      have hlicense := (license_canonicalize (h := h) hold hnew 0).symm.trans (hevery h 0 rfl rfl)
      exact (List.cons.inj hlicense).1
    have hsuffix := fun k hk hk4 => not_suffix_of_once hold hnew hall (k := k) hk hk4
    have hphrase := not_overlap_lowerPhrase hnew hsuffix
    have hplain := not_overlap_of_once hold hne hnew.nonempty (fun _ _ => phrasesOnce_lower) hphrase hall
    have hcapital := not_overlap_of_once hold hne hnew.capitalize.nonempty
      (fun _ _ => phrasesOnce_upper) hphrase hall
    exact ⟨hsuffix, hplain, hcapital, start_of_once hold hnew hcapital hphrase hall⟩
  · rintro hapart h currentYear rfl rfl
    rw [license_canonicalize hold hnew]
    exact List.map_congr_left fun line _ => renameInTurn_eq hold hnew hne hapart

/-- Two names that have nothing in common. -/
theorem rename_once_cwm4 :
    NamesApart "cwm4".toList "statefultask".toList ∧
    (({ Header.new ⟨"statefultask".toList, []⟩ with
      oldModuleName := "cwm4".toList
      license := ["This program is cwm4".toList] } : Header).canonicalize 2024).license =
        ["This program is cwm4".toList].map (renameOnce "cwm4".toList "statefultask".toList) :=
  ⟨by decide, (rename_once_iff "cwm4".toList "statefultask".toList (by decide) (by decide)
    (by decide)).mpr (by decide) _ 2024 rfl rfl⟩

/-- The old name is found in the new one, and replaced there once more. -/
theorem rename_statefultask_twice :
    (({ Header.new ⟨"ai-statefultask".toList, []⟩ with
      oldModuleName := "statefultask".toList
      license := ["This program is free software".toList] } : Header).canonicalize 2024).license =
        ["Ai-ai-statefultask is free software".toList] ∧
    (({ Header.new ⟨"ai-statefultask".toList, []⟩ with
      oldModuleName := "statefultask".toList
      license := ["This program is free software".toList] } : Header).canonicalize 2024).license ≠
        ["This program is free software".toList].map
          (renameOnce "statefultask".toList "ai-statefultask".toList) := by
  decide +kernel

end RewriteHeader
