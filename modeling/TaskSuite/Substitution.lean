import Mathlib.Data.List.Infix

/-! Replacing every occurrence of a text by another one. Replacements that are
made one after the other are compared with replacements in the original text
only, in which what was put in is not looked at again. -/
namespace Substitution

variable {α : Type} [DecidableEq α]

/-- Every occurrence of `p`, from left to right, gives way to `r`. The number is
what is left to skip of the last occurrence. -/
def substituteFrom (p r : List α) : Nat → List α → List α
  | _, [] => []
  | n + 1, _ :: xs => substituteFrom p r n xs
  | 0, x :: xs =>
      if p.isPrefixOf (x :: xs) then r ++ substituteFrom p r (p.length - 1) xs
      else x :: substituteFrom p r 0 xs

def substitute (p r s : List α) : List α := substituteFrom p r 0 s

/-- The first of the texts `ps` that stands at the front gives way to `r`. -/
def substituteFront (ps : List (List α)) (r s : List α) : List α :=
  match ps.find? fun p => p.isPrefixOf s with
  | some p => r ++ s.drop p.length
  | none => s

section Substitute
variable {p r s t : List α} {x : α}

theorem substituteFrom_eq (n : Nat) : substituteFrom p r n s = substitute p r (s.drop n) := by
  induction s generalizing n with
  | nil => simp [substitute, substituteFrom]
  | cons x xs ih =>
      cases n with
      | zero => rfl
      | succ n => exact ih n

theorem substitute_append_self (hp : p ≠ []) : substitute p r (p ++ s) = r ++ substitute p r s := by
  obtain ⟨x, xs, rfl⟩ := List.exists_cons_of_ne_nil hp
  have hfront : (x :: xs).isPrefixOf (x :: (xs ++ s)) = true :=
    List.isPrefixOf_iff_prefix.mpr (List.prefix_append (x :: xs) s)
  rw [List.cons_append, substitute, substituteFrom, if_pos hfront, substituteFrom_eq]
  simp

theorem substitute_cons (h : ¬ p <+: x :: s) : substitute p r (x :: s) = x :: substitute p r s := by
  rw [substitute, substituteFrom, if_neg (fun hfront => h (List.isPrefixOf_iff_prefix.mp hfront))]
  rfl

theorem substitute_append (h : ∀ u, u ≠ [] → u <:+ t → ¬ p <+: u ++ s) :
    substitute p r (t ++ s) = t ++ substitute p r s := by
  induction t with
  | nil => rfl
  | cons x t ih =>
      have hskip : ¬ p <+: x :: (t ++ s) := h (x :: t) (List.cons_ne_nil x t) List.suffix_rfl
      rw [List.cons_append, substitute_cons hskip,
        ih fun u hu hsuffix => h u hu (hsuffix.trans (List.suffix_cons x t))]
      rfl

theorem substitute_of_absent (h : ¬ p <:+: s) : substitute p r s = s := by
  induction s with
  | nil => rfl
  | cons x s ih =>
      rw [substitute_cons fun hfront => h hfront.isInfix,
        ih fun hinside => h (hinside.trans (List.suffix_cons x s).isInfix)]

/-- Induction along the occurrences that are replaced. -/
theorem substitute_induction {motive : List α → Prop} (hp : p ≠ []) (nil : motive [])
    (found : ∀ s, motive s → motive (p ++ s))
    (skip : ∀ x s, ¬ p <+: x :: s → motive s → motive (x :: s)) : motive s := by
  induction hlen : s.length using Nat.strong_induction_on generalizing s with
  | _ n ih =>
      cases s with
      | nil => exact nil
      | cons x s =>
          by_cases hfront : p <+: x :: s
          · obtain ⟨t, ht⟩ := hfront
            have hlt : t.length < n := by
              have hpos := List.length_pos_iff.mpr hp
              rw [← hlen, ← ht, List.length_append]
              omega
            rw [← ht]
            exact found t (ih _ hlt rfl)
          · exact skip x s hfront (ih s.length (by rw [← hlen]; exact Nat.lt_succ_self _) rfl)

theorem length_substitute_le (hp : p ≠ []) (h : r.length ≤ p.length) :
    (substitute p r s).length ≤ s.length := by
  induction s using substitute_induction hp with
  | nil => exact le_rfl
  | found s ih =>
      rw [substitute_append_self hp, List.length_append, List.length_append]
      omega
  | skip x s hfront ih =>
      rw [substitute_cons hfront]
      exact Nat.succ_le_succ ih

theorem le_length_substitute (hp : p ≠ []) (h : p.length ≤ r.length) :
    s.length ≤ (substitute p r s).length := by
  induction s using substitute_induction hp with
  | nil => exact le_rfl
  | found s ih =>
      rw [substitute_append_self hp, List.length_append, List.length_append]
      omega
  | skip x s hfront ih =>
      rw [substitute_cons hfront]
      exact Nat.succ_le_succ ih

theorem substitute_ne (hp : p ≠ []) (hne : r ≠ p) (h : p <:+: s) : substitute p r s ≠ s := by
  induction s using substitute_induction hp with
  | nil => exact absurd (List.infix_nil.mp h) hp
  | found s ih =>
      rw [substitute_append_self hp]
      intro heq
      have hlen := congrArg List.length heq
      simp only [List.length_append] at hlen
      rcases Nat.lt_trichotomy r.length p.length with hlt | hsame | hgt
      · have hle := length_substitute_le (s := s) hp hlt.le
        omega
      · exact hne (List.append_inj_left heq hsame)
      · have hle := le_length_substitute (s := s) hp hgt.le
        omega
  | skip x s hfront ih =>
      rw [substitute_cons hfront]
      rcases List.infix_cons_iff.mp h with hfront' | hinside
      · exact absurd hfront' hfront
      · exact fun heq => ih hinside (List.cons.inj heq).2

theorem mem_substitute (hp : p ≠ []) (h : x ∈ substitute p r s) : x ∈ r ∨ x ∈ s := by
  induction s using substitute_induction hp with
  | nil => exact .inr h
  | found s ih =>
      rw [substitute_append_self hp, List.mem_append] at h
      rcases h with h | h
      · exact .inl h
      · exact (ih h).imp_right (List.mem_append_right p)
  | skip y s hfront ih =>
      rw [substitute_cons hfront, List.mem_cons] at h
      rcases h with rfl | h
      · exact .inr (List.mem_cons_self ..)
      · exact (ih h).imp_right (List.mem_cons_of_mem y)

theorem mem_substitute_of_not_mem (hp : p ≠ []) (h : x ∈ s) (hx : x ∉ p) : x ∈ substitute p r s := by
  induction s using substitute_induction hp with
  | nil => exact h
  | found s ih =>
      rw [substitute_append_self hp]
      exact List.mem_append_right r (ih ((List.mem_append.mp h).resolve_left hx))
  | skip y s hfront ih =>
      rw [substitute_cons hfront]
      rcases List.mem_cons.mp h with rfl | h
      · exact List.mem_cons_self ..
      · exact List.mem_cons_of_mem y (ih h)

/-- An occurrence that has the only `x` of the text is replaced, and nothing else is. -/
theorem substitute_unique {p₁ p₂ a b : List α} (hp : p = p₁ ++ x :: p₂) (hp₁ : x ∉ p₁) (hp₂ : x ∉ p₂)
    (ha : x ∉ a) (hb : x ∉ b) : substitute p r (a ++ (p ++ b)) = a ++ (r ++ b) := by
  have hne : p ≠ [] := by simp [hp]
  have hrest : substitute p r b = b :=
    substitute_of_absent fun h => hb (h.subset (by simp [hp]))
  rw [substitute_append, substitute_append_self hne, hrest]
  rintro u hu hsuffix ⟨c, hc⟩
  have hfront : x ∉ u ++ p₁ := by simpa [hp₁] using fun hx => ha (hsuffix.subset hx)
  have heq : (u ++ p₁) ++ x :: (p₂ ++ b) = p₁ ++ x :: (p₂ ++ c) := by simpa [hp] using hc.symm
  have hu' := ((List.append_cons_inj_of_notMem hfront (by simp [hp₂, hb])).mp heq).1
  exact hu (by simpa using hu')

omit [DecidableEq α] in
theorem not_infix_of_ne {q p₁ p₂ q₁ q₂ a b : List α} (hp : p = p₁ ++ x :: p₂)
    (hq : q = q₁ ++ x :: q₂) (hq₁ : x ∉ q₁) (hq₂ : x ∉ q₂) (ha : x ∉ a) (hb : x ∉ b)
    (hlen : p₁.length = q₁.length) (hne : p₁ ≠ q₁) : ¬ p <:+: a ++ (q ++ b) := by
  rintro ⟨l, c, hc⟩
  have heq : (a ++ q₁) ++ x :: (q₂ ++ b) = (l ++ p₁) ++ x :: (p₂ ++ c) := by
    simpa [hp, hq] using hc.symm
  have hfront := ((List.append_cons_inj_of_notMem (by simp [ha, hq₁]) (by simp [hq₂, hb])).mp heq).1
  exact hne (List.append_inj_right' hfront.symm hlen)

omit [DecidableEq α] in
theorem infix_of_infix_append_cons {a b : List α} (hx : x ∉ p) (h : p <:+: a ++ x :: b) :
    p <:+: a ∨ p <:+: b := by
  obtain ⟨l, c, hc⟩ := h
  rcases List.append_eq_append_iff.mp hc with ⟨d, rfl, -⟩ | ⟨d, hlp, hd⟩
  · exact .inl ⟨l, d, rfl⟩
  · cases d with
    | nil => exact .inl ⟨l, [], by simpa using hlp⟩
    | cons y d =>
        obtain ⟨rfl, rfl⟩ := List.cons.inj hd
        rcases List.append_eq_append_iff.mp hlp with ⟨e, rfl, hp⟩ | ⟨e, rfl, he⟩
        · rw [hp] at hx
          simp at hx
        · cases e with
          | nil =>
              rw [List.nil_append] at he
              rw [← he] at hx
              simp at hx
          | cons y e =>
              obtain ⟨rfl, rfl⟩ := List.cons.inj he
              exact .inr ⟨e, c, by simp⟩

theorem substituteFront_of_front {ps : List (List α)} {n : Nat} (hlen : ∀ p ∈ ps, p.length = n)
    (h : ∃ p ∈ ps, p <+: s) : substituteFront ps r s = r ++ s.drop n := by
  obtain ⟨p, hp, hfront⟩ := h
  rw [substituteFront]
  cases hfind : ps.find? fun p => p.isPrefixOf s with
  | none => exact absurd (List.isPrefixOf_iff_prefix.mpr hfront) (List.find?_eq_none.mp hfind p hp)
  | some q => simp only [hlen q (List.mem_of_find?_eq_some hfind)]

theorem substituteFront_of_absent {ps : List (List α)} (h : ∀ p ∈ ps, ¬ p <+: s) :
    substituteFront ps r s = s := by
  have hfind : (ps.find? fun p => p.isPrefixOf s) = none :=
    List.find?_eq_none.mpr fun p hp hfront => h p hp (List.isPrefixOf_iff_prefix.mp hfront)
  rw [substituteFront, hfind]

theorem mem_substituteFront {ps : List (List α)} (h : x ∈ substituteFront ps r s) :
    x ∈ r ∨ x ∈ s := by
  rw [substituteFront] at h
  cases hfind : ps.find? fun p => p.isPrefixOf s with
  | none =>
      rw [hfind] at h
      exact .inr h
  | some q =>
      rw [hfind] at h
      exact (List.mem_append.mp h).imp_right List.mem_of_mem_drop

end Substitute

/-! ### What is put in is not looked at again -/

/-- A text in which some parts have been put in. -/
inductive Piece (α : Type) where
  | kept (x : α)
  | put (text : List α)
  deriving DecidableEq

def Piece.text : Piece α → List α
  | .kept x => [x]
  | .put text => text

def expand (s : List (Piece α)) : List α := s.flatMap Piece.text

/-- One of the texts contains the other, or an end of one is a beginning of the other. -/
def Overlap (p t : List α) : Prop :=
  p <:+: t ∨ t <:+: p ∨ (∃ w, w ≠ [] ∧ w <+: p ∧ w <:+ t) ∨ ∃ w, w ≠ [] ∧ w <:+ p ∧ w <+: t

instance (p t : List α) : Decidable (Overlap p t) :=
  decidable_of_iff (p <:+: t ∨ t <:+: p ∨ (∃ w ∈ p.inits, w ≠ [] ∧ w <:+ t) ∨
    ∃ w ∈ p.tails, w ≠ [] ∧ w <+: t) (by
      simp only [Overlap, List.mem_inits, List.mem_tails, and_left_comm])

section Expand
variable {p r t : List α} {s : List (Piece α)} {x : α}

omit [DecidableEq α] in
@[simp] theorem expand_kept (l : List α) : expand (l.map Piece.kept) = l := by
  simp [expand, Piece.text, List.flatMap_map]

omit [DecidableEq α] in
@[simp] theorem expand_append (s s' : List (Piece α)) : expand (s ++ s') = expand s ++ expand s' :=
  List.flatMap_append

omit [DecidableEq α] in
@[simp] theorem expand_kept_cons : expand (.kept x :: s) = x :: expand s := rfl

omit [DecidableEq α] in
@[simp] theorem expand_put_cons : expand (.put t :: s) = t ++ expand s := rfl

omit [DecidableEq α] in
theorem overlap_of_start {u b : List α} (hu : u ≠ []) (hsuffix : u <:+ t) (h : p <+: u ++ b) :
    Overlap p t := by
  rcases List.prefix_or_prefix_of_prefix h (List.prefix_append u b) with hp | hu'
  · exact .inl (hp.isInfix.trans hsuffix.isInfix)
  · exact .inr (.inr (.inl ⟨u, hu, hu', hsuffix⟩))

omit [DecidableEq α] in
theorem overlap_of_rest {q b : List α} (hq : q ≠ []) (hsuffix : q <:+ p) (h : q <+: t ++ b) :
    Overlap p t := by
  rcases List.prefix_or_prefix_of_prefix h (List.prefix_append t b) with hp | ht
  · exact .inr (.inr (.inr ⟨q, hq, hsuffix, hp⟩))
  · exact .inr (.inl (ht.isInfix.trans hsuffix.isInfix))

omit [DecidableEq α] in
/-- Texts that overlap can be brought together, with parts of the one around the other. -/
theorem Overlap.exists_context (h : Overlap p t) (hp : p ≠ []) (ht : t ≠ []) :
    ∃ u v, p <:+: u ++ (t ++ v) ∧ u.length < p.length ∧ v.length < p.length ∧ u ⊆ p ∧ v ⊆ p := by
  have hpos := List.length_pos_iff.mpr hp
  have hpos' := List.length_pos_iff.mpr ht
  rcases h with hinside | ⟨u, v, rfl⟩ | ⟨w, hw, ⟨v, rfl⟩, b, rfl⟩ | ⟨w, hw, ⟨u, rfl⟩, b, rfl⟩
  · exact ⟨[], [], by simpa using hinside, hpos, hpos, by simp, by simp⟩
  · refine ⟨u, v, by simp, ?_, ?_, by simp, by simp⟩ <;> simp only [List.length_append] <;> omega
  · have hw := List.length_pos_iff.mpr hw
    refine ⟨[], v, ⟨b, [], by simp⟩, hpos, ?_, by simp, by simp⟩
    simp only [List.length_append]
    omega
  · have hw := List.length_pos_iff.mpr hw
    refine ⟨u, [], ⟨[], b, by simp⟩, ?_, hpos, by simp, by simp⟩
    simp only [List.length_append]
    omega

omit [DecidableEq α] in
/-- Text that does not meet what was put in stands in the original text. -/
theorem kept_front {q : List α} (hsuffix : q <:+ p) (hputs : ∀ t, .put t ∈ s → ¬ Overlap p t)
    (h : q <+: expand s) : q.map Piece.kept <+: s := by
  induction s generalizing q with
  | nil =>
      rw [List.prefix_nil.mp h]
      exact List.prefix_rfl
  | cons piece s ih =>
      cases q with
      | nil => exact List.nil_prefix
      | cons y q =>
          cases piece with
          | kept x =>
              rw [expand_kept_cons, List.cons_prefix_cons] at h
              obtain ⟨rfl, h⟩ := h
              have hq := ih ((List.suffix_cons y q).trans hsuffix)
                (fun t ht => hputs t (List.mem_cons_of_mem _ ht)) h
              exact List.cons_prefix_cons.mpr ⟨rfl, hq⟩
          | put t =>
              exact absurd (overlap_of_rest (List.cons_ne_nil y q) hsuffix h)
                (hputs t (List.mem_cons_self ..))

/-- A replacement in a text that has been worked on is one in the original
text, if the text that is looked for does not overlap with what was put in. -/
theorem expand_substitute (hp : p ≠ []) (hputs : ∀ t, .put t ∈ s → ¬ Overlap p t) :
    expand (substitute (p.map Piece.kept) [.put r] s) = substitute p r (expand s) := by
  have hp' : p.map (Piece.kept : α → Piece α) ≠ [] := by simpa using hp
  induction s using substitute_induction hp' with
  | nil => rfl
  | found s ih =>
      rw [substitute_append_self hp', expand_append, expand_append, expand_kept,
        substitute_append_self hp, ih fun t ht => hputs t (List.mem_append_right _ ht)]
      simp [expand, Piece.text]
  | skip piece s hfront ih =>
      have hrest := ih fun t ht => hputs t (List.mem_cons_of_mem _ ht)
      rw [substitute_cons hfront]
      cases piece with
      | kept x =>
          have hskip : ¬ p <+: x :: expand s := fun h => hfront (kept_front List.suffix_rfl hputs h)
          rw [expand_kept_cons, hrest, expand_kept_cons, substitute_cons hskip]
      | put t =>
          rw [expand_put_cons, hrest, expand_put_cons, substitute_append]
          exact fun u hu hsuffix h => hputs t (List.mem_cons_self ..) (overlap_of_start hu hsuffix h)

theorem put_of_mem_substitute (hp : p ≠ [])
    (h : .put t ∈ substitute (p.map Piece.kept) [.put r] s) : t = r ∨ .put t ∈ s := by
  rcases mem_substitute (by simpa using hp) h with hr | hs
  · exact .inl (by simpa using hr)
  · exact .inr hs

theorem put_of_mem_substituteFront {ps : List (List (Piece α))}
    (h : .put t ∈ substituteFront ps [.put r] s) : t = r ∨ .put t ∈ s := by
  rcases mem_substituteFront h with hr | hs
  · exact .inl (by simpa using hr)
  · exact .inr hs

omit [DecidableEq α] in
theorem mem_expand_of_kept (h : .kept x ∈ s) : x ∈ expand s :=
  List.mem_flatMap.mpr ⟨.kept x, h, List.mem_singleton_self x⟩

end Expand

end Substitution
