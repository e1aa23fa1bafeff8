import TaskSuite.Regex
import Mathlib.Data.List.TakeWhile

/-! What a regex matches, without the order in which the ways to match are
tried; and equations that compute a match from the front of the text. -/
namespace Regex

/-- A repetition, each round of which takes something. -/
inductive Iterates (m : Pos → Captures → Pos → Captures → Prop) :
    Pos → Captures → Pos → Captures → Prop
  | done {pos : Pos} {c : Captures} : Iterates m pos c pos c
  | more {pos pos₁ pos₂ : Pos} {c c₁ c₂ : Captures} : m pos c pos₁ c₁ →
      pos₁.rest.length < pos.rest.length → Iterates m pos₁ c₁ pos₂ c₂ → Iterates m pos c pos₂ c₂

/-- A way to match a front part of the text. -/
def Matches : Regex → Pos → Captures → Pos → Captures → Prop
  | .empty, pos, c, pos', c' => pos' = pos ∧ c' = c
  | .char p, pos, c, pos', c' =>
      ∃ x, pos.rest = x :: pos'.rest ∧ p x = true ∧ pos'.first = false ∧ c' = c
  | .bol, pos, c, pos', c' => pos.first = true ∧ pos' = pos ∧ c' = c
  | .eol, pos, c, pos', c' => pos.rest = [] ∧ pos' = pos ∧ c' = c
  | .seq r s, pos, c, pos', c' => ∃ pos₁ c₁, r.Matches pos c pos₁ c₁ ∧ s.Matches pos₁ c₁ pos' c'
  | .alt r s, pos, c, pos', c' => r.Matches pos c pos' c' ∨ s.Matches pos c pos' c'
  | .star r, pos, c, pos', c' => Iterates r.Matches pos c pos' c'
  | .group n r, pos, c, pos', c' => ∃ c₁, r.Matches pos c pos' c₁ ∧
      c' = Function.update c₁ n (pos.rest.take (pos.rest.length - pos'.rest.length))

theorem matches_literal {l : List Char} {pos pos' : Pos} {c c' : Captures} :
    (literal l).Matches pos c pos' c' ↔
      pos.rest = l ++ pos'.rest ∧ pos'.first = (pos.first && l.isEmpty) ∧ c' = c := by
  induction l generalizing pos c with
  | nil =>
      obtain ⟨first, rest⟩ := pos
      obtain ⟨first', rest'⟩ := pos'
      simp only [literal, Matches, Pos.mk.injEq, List.nil_append, List.isEmpty_nil, Bool.and_true]
      constructor
      · rintro ⟨⟨rfl, rfl⟩, rfl⟩
        exact ⟨rfl, rfl, rfl⟩
      · rintro ⟨rfl, rfl, rfl⟩
        exact ⟨⟨rfl, rfl⟩, rfl⟩
  | cons x l ih =>
      simp only [literal, Matches, decide_eq_true_eq, ih]
      constructor
      · rintro ⟨pos₁, c₁, ⟨y, hy, rfl, hfirst, rfl⟩, hrest, hfirst', hc⟩
        exact ⟨by rw [hy, hrest]; rfl, by simpa [hfirst] using hfirst', hc⟩
      · rintro ⟨hrest, hfirst, hc⟩
        exact ⟨⟨false, l ++ pos'.rest⟩, c, ⟨x, hrest, rfl, rfl, rfl⟩, rfl, by simpa using hfirst, hc⟩

theorem Iterates.captures_eq {p : Char → Bool} {pos pos' : Pos} {c c' : Captures}
    (h : Iterates (Regex.char p).Matches pos c pos' c') : c' = c := by
  induction h with
  | done => rfl
  | more hround _ _ ih =>
      obtain ⟨_, _, _, _, hc⟩ := hround
      rw [ih, hc]

theorem Iterates.exists_append {p : Char → Bool} {pos pos' : Pos} {c c' : Captures}
    (h : Iterates (Regex.char p).Matches pos c pos' c') :
    ∃ a, pos.rest = a ++ pos'.rest ∧ ∀ x ∈ a, p x = true := by
  induction h with
  | done => exact ⟨[], rfl, nofun⟩
  | more hround _ _ ih =>
      obtain ⟨x, hx, hp, -⟩ := hround
      obtain ⟨a, ha, hall⟩ := ih
      exact ⟨x :: a, by rw [hx, ha]; rfl, List.forall_mem_cons.mpr ⟨hp, hall⟩⟩

theorem iterates_append {p : Char → Bool} {first : Bool} {a s : List Char} {c : Captures}
    (ha : ∀ x ∈ a, p x = true) :
    Iterates (Regex.char p).Matches ⟨first, a ++ s⟩ c ⟨first && a.isEmpty, s⟩ c := by
  induction a generalizing first with
  | nil =>
      rw [List.isEmpty_nil, Bool.and_true]
      exact .done
  | cons x a ih =>
      obtain ⟨hx, ha⟩ := List.forall_mem_cons.mp ha
      have hmore : Iterates (Regex.char p).Matches ⟨false, a ++ s⟩ c ⟨false && a.isEmpty, s⟩ c := ih ha
      rw [Bool.false_and] at hmore
      rw [List.isEmpty_cons, Bool.and_false]
      exact .more ⟨x, rfl, hx, rfl, rfl⟩ (Nat.lt_succ_self _) hmore

section Run
variable {β : Type} {k : Pos → Captures → Option β} {pos : Pos} {c : Captures}

/-- Nothing matches before a continuation that always fails. -/
theorem run_fail (r : Regex) : run r pos c (fun _ _ => (none : Option β)) = none := by
  induction r generalizing pos c with
  | empty => rfl
  | char p => cases h : pos.rest <;> simp [run, h]
  | bol => simp [run]
  | eol => simp [run]
  | seq r s ihr ihs => simp only [run, ihs, ihr]
  | alt r s ihr ihs => simp only [run, ihr, ihs, Option.orElse_none]
  | star r ih =>
      suffices h : ∀ n pos c, iterate (run r) (fun _ _ => (none : Option β)) n pos c = none from h ..
      intro n
      induction n with
      | zero => intro pos c; rfl
      | succ n ihn => intro pos c; simp only [iterate, ihn, ite_self, ih, Option.orElse_none]
  | group n r ih => simp only [run, ih]

/-- The fuel of a repetition does not matter, as long as it suffices. -/
theorem iterate_fuel (r : Regex) {m n : Nat} (hm : pos.rest.length ≤ m)
    (hn : pos.rest.length ≤ n) : iterate (run r) k m pos c = iterate (run r) k n pos c := by
  induction m generalizing n pos c with
  | zero =>
      cases n with
      | zero => rfl
      | succ n =>
          have hnone : ∀ pos' : Pos, ¬ pos'.rest.length < pos.rest.length := by
            intro pos'
            omega
          simp only [iterate, hnone, if_false, run_fail, Option.orElse_none]
  | succ m ih =>
      cases n with
      | zero =>
          have hnone : ∀ pos' : Pos, ¬ pos'.rest.length < pos.rest.length := by
            intro pos'
            omega
          simp only [iterate, hnone, if_false, run_fail, Option.orElse_none]
      | succ n =>
          have hsame : (fun (pos' : Pos) (c' : Captures) =>
              if pos'.rest.length < pos.rest.length then iterate (run r) k m pos' c' else none) =
              fun pos' c' =>
                if pos'.rest.length < pos.rest.length then iterate (run r) k n pos' c' else none := by
            funext pos' c'
            split_ifs with hlt
            · exact ih (by omega) (by omega)
            · rfl
          simp only [iterate, hsame]

/-- A repetition takes one more round if it can. -/
theorem run_star (r : Regex) : run (.star r) pos c k =
    (run r pos c fun pos' c' =>
      if pos'.rest.length < pos.rest.length then run (.star r) pos' c' k else none).orElse
    fun _ => k pos c := by
  have hround : (fun (pos' : Pos) (c' : Captures) =>
      if pos'.rest.length < pos.rest.length then run (.star r) pos' c' k else none) =
      fun pos' c' => if pos'.rest.length < pos.rest.length then
        iterate (run r) k pos.rest.length pos' c' else none := by
    funext pos' c'
    split_ifs with hlt
    · exact iterate_fuel r le_rfl (le_of_lt hlt)
    · rfl
  rw [hround]
  exact iterate_fuel r le_rfl (Nat.le_succ _)

theorem run_star_of_round {r : Regex} {b : β}
    (h : run r pos c (fun pos' c' =>
      if pos'.rest.length < pos.rest.length then run (.star r) pos' c' k else none) = some b) :
    run (.star r) pos c k = some b := by
  rw [run_star, h]
  rfl

/-- What `run` finds is a match with which the continuation succeeds. -/
theorem run_sound {r : Regex} {b : β} (h : run r pos c k = some b) :
    ∃ pos' c', r.Matches pos c pos' c' ∧ k pos' c' = some b := by
  induction r generalizing pos c k b with
  | empty => exact ⟨pos, c, ⟨rfl, rfl⟩, h⟩
  | char p =>
      cases hrest : pos.rest with
      | nil => simp [run, hrest] at h
      | cons x xs =>
          simp only [run, hrest] at h
          split_ifs at h with hx
          exact ⟨⟨false, xs⟩, c, ⟨x, hrest, hx, rfl, rfl⟩, h⟩
  | bol =>
      simp only [run] at h
      split_ifs at h with hfirst
      exact ⟨pos, c, ⟨hfirst, rfl, rfl⟩, h⟩
  | eol =>
      simp only [run] at h
      split_ifs at h with hend
      exact ⟨pos, c, ⟨List.isEmpty_iff.mp hend, rfl, rfl⟩, h⟩
  | seq r s ihr ihs =>
      obtain ⟨pos₁, c₁, hr, h⟩ := ihr h
      obtain ⟨pos₂, c₂, hs, h⟩ := ihs h
      exact ⟨pos₂, c₂, ⟨pos₁, c₁, hr, hs⟩, h⟩
  | alt r s ihr ihs =>
      simp only [run, Option.orElse_eq_or, Option.or_eq_some_iff] at h
      rcases h with h | ⟨-, h⟩
      · obtain ⟨pos₁, c₁, hr, h⟩ := ihr h
        exact ⟨pos₁, c₁, .inl hr, h⟩
      · obtain ⟨pos₁, c₁, hs, h⟩ := ihs h
        exact ⟨pos₁, c₁, .inr hs, h⟩
  | star r ih =>
      suffices hloop : ∀ n pos c, iterate (run r) k n pos c = some b →
          ∃ pos' c', Iterates r.Matches pos c pos' c' ∧ k pos' c' = some b from hloop _ _ _ h
      intro n
      induction n with
      | zero => exact fun pos c h => ⟨pos, c, .done, h⟩
      | succ n ihn =>
          intro pos c h
          simp only [iterate, Option.orElse_eq_or, Option.or_eq_some_iff] at h
          rcases h with h | ⟨-, h⟩
          · obtain ⟨pos₁, c₁, hr, h⟩ := ih h
            split_ifs at h with hlt
            obtain ⟨pos₂, c₂, hmore, h⟩ := ihn pos₁ c₁ h
            exact ⟨pos₂, c₂, .more hr hlt hmore, h⟩
          · exact ⟨pos, c, .done, h⟩
  | group n r ih =>
      obtain ⟨pos₁, c₁, hr, h⟩ := ih h
      exact ⟨pos₁, _, ⟨c₁, hr, rfl⟩, h⟩

/-- If there is a match with which the continuation succeeds, then `run` finds one. -/
theorem run_complete {r : Regex} {pos' : Pos} {c' : Captures} (h : r.Matches pos c pos' c')
    (hk : k pos' c' ≠ none) : run r pos c k ≠ none := by
  induction r generalizing pos c k pos' c' with
  | empty =>
      obtain ⟨rfl, rfl⟩ := h
      exact hk
  | char p =>
      obtain ⟨x, hrest, hx, hfirst, rfl⟩ := h
      obtain ⟨first, rest⟩ := pos'
      cases hfirst
      simpa [run, hrest, hx] using hk
  | bol =>
      obtain ⟨hfirst, rfl, rfl⟩ := h
      simpa [run, hfirst] using hk
  | eol =>
      obtain ⟨hend, rfl, rfl⟩ := h
      simpa [run, hend] using hk
  | seq r s ihr ihs =>
      obtain ⟨pos₁, c₁, hr, hs⟩ := h
      exact ihr hr (ihs hs hk)
  | alt r s ihr ihs =>
      rcases h with hr | hs
      · simp [run, ihr hr hk]
      · simp [run, ihs hs hk]
  | star r ih =>
      induction h with
      | @done pos c =>
          rw [run_star, ne_eq, Option.orElse_eq_or, Option.or_eq_none_iff]
          exact fun hnone => hk hnone.2
      | @more pos pos₁ pos₂ c c₁ c₂ hr hlt _ ihmore =>
          rw [run_star, ne_eq, Option.orElse_eq_or, Option.or_eq_none_iff]
          refine fun hnone => ih hr ?_ hnone.1
          rw [if_pos hlt]
          exact ihmore hk
  | group n r ih =>
      obtain ⟨c₁, hr, rfl⟩ := h
      exact ih hr hk

theorem run_eq_none {r : Regex} (h : ∀ pos' c', r.Matches pos c pos' c' → k pos' c' = none) :
    run r pos c k = none := by
  cases hrun : run r pos c k with
  | none => rfl
  | some b =>
      obtain ⟨pos', c', hm, hk⟩ := run_sound hrun
      rw [h pos' c' hm] at hk
      cases hk

/-! ### Computing from the front -/

theorem take_front (s t : List Char) : (s ++ t).take ((s ++ t).length - t.length) = s := by
  simp

variable {x : Char} {xs s : List Char} {first : Bool} {p : Char → Bool}

@[simp] theorem run_empty : run .empty pos c k = k pos c := rfl

@[simp] theorem run_bol : run .bol pos c k = if pos.first then k pos c else none := rfl

@[simp] theorem run_seq (r t : Regex) :
    run (.seq r t) pos c k = run r pos c fun pos' c' => run t pos' c' k := rfl

@[simp] theorem run_alt (r t : Regex) :
    run (.alt r t) pos c k = (run r pos c k).or (run t pos c k) := Option.orElse_eq_or

@[simp] theorem run_group (n : Nat) (r : Regex) :
    run (.group n r) pos c k = run r pos c fun pos' c' =>
      k pos' (Function.update c' n (pos.rest.take (pos.rest.length - pos'.rest.length))) := rfl

@[simp] theorem run_char_cons :
    run (.char p) ⟨first, x :: xs⟩ c k = if p x then k ⟨false, xs⟩ c else none := rfl

@[simp] theorem run_star_char_nil : run (.star (.char p)) ⟨first, []⟩ c k = k ⟨first, []⟩ c := rfl

theorem run_star_char_cons : run (.star (.char p)) ⟨first, x :: xs⟩ c k =
    if p x then (run (.star (.char p)) ⟨false, xs⟩ c k).or (k ⟨first, x :: xs⟩ c)
    else k ⟨first, x :: xs⟩ c := by
  rw [run_star, run_char_cons]
  split_ifs with hx hlt
  · exact Option.orElse_eq_or
  · exact absurd (Nat.lt_succ_self _) hlt
  · rfl

theorem run_star_char_stop (h : ∀ y, s.head? = some y → p y = false) :
    run (.star (.char p)) ⟨first, s⟩ c k = k ⟨first, s⟩ c := by
  cases s with
  | nil => rfl
  | cons y ys => rw [run_star_char_cons, h y rfl]; rfl

/-- A repetition of characters takes all it can, if what follows then matches. -/
theorem run_star_char_append {a : List Char} {b : β} (ha : ∀ y ∈ a, p y = true)
    (h : run (.star (.char p)) ⟨first && a.isEmpty, s⟩ c k = some b) :
    run (.star (.char p)) ⟨first, a ++ s⟩ c k = some b := by
  induction a generalizing first with
  | nil => simpa using h
  | cons y ys ih =>
      have hys : run (.star (.char p)) ⟨false, ys ++ s⟩ c k = some b :=
        ih (fun z hz => ha z (List.mem_cons_of_mem y hz)) (by simpa using h)
      rw [List.cons_append, run_star_char_cons, if_pos (ha y (List.mem_cons_self ..)), hys]
      rfl

theorem run_star_char_all {b : β} (hs : ∀ y ∈ s, p y = true)
    (h : k ⟨first && s.isEmpty, []⟩ c = some b) : run (.star (.char p)) ⟨first, s⟩ c k = some b := by
  rw [← List.append_nil s]
  exact run_star_char_append hs h

theorem run_star_char_none (h : ∀ t, t <:+ s → k ⟨false, t⟩ c = none) :
    run (.star (.char p)) ⟨false, s⟩ c k = none := by
  induction s with
  | nil => exact h [] List.suffix_rfl
  | cons x xs ih =>
      rw [run_star_char_cons, h (x :: xs) List.suffix_rfl,
        ih fun t ht => h t (ht.trans (List.suffix_cons x xs))]
      split_ifs <;> rfl

theorem run_star_char_some {b : β} (h : run (.star (.char p)) ⟨first, s⟩ c k = some b) :
    ∃ first' t, t <:+ s ∧ k ⟨first', t⟩ c = some b := by
  induction s generalizing first with
  | nil => exact ⟨first, [], List.suffix_rfl, h⟩
  | cons x xs ih =>
      rw [run_star_char_cons] at h
      split_ifs at h
      · rcases Option.or_eq_some_iff.mp h with hmore | ⟨-, hstop⟩
        · obtain ⟨first', t, ht, hk⟩ := ih hmore
          exact ⟨first', t, ht.trans (List.suffix_cons x xs), hk⟩
        · exact ⟨first, x :: xs, List.suffix_rfl, hstop⟩
      · exact ⟨first, x :: xs, List.suffix_rfl, h⟩

theorem eq_none_of_run_star_char (hs : ∀ y ∈ s, p y = true)
    (h : run (.star (.char p)) ⟨false, s⟩ c k = none) : ∀ t, t <:+ s → k ⟨false, t⟩ c = none := by
  induction s with
  | nil =>
      intro t ht
      rw [List.suffix_nil.mp ht]
      exact h
  | cons x xs ih =>
      obtain ⟨hx, hxs⟩ := List.forall_mem_cons.mp hs
      rw [run_star_char_cons, if_pos hx, Option.or_eq_none_iff] at h
      intro t ht
      rcases List.suffix_cons_iff.mp ht with rfl | ht
      · exact h.2
      · exact ih hxs h.1 t ht

/-- A repetition of characters goes to the last place from which what follows
succeeds. -/
theorem run_star_char_last {b : β} (hs : ∀ y ∈ s, p y = true)
    (h : run (.star (.char p)) ⟨first, s⟩ c k = some b) :
    ∃ t first', t <:+ s ∧ k ⟨first', t⟩ c = some b ∧
      ∀ u, u <:+ t → u ≠ t → k ⟨false, u⟩ c = none := by
  induction s generalizing first with
  | nil =>
      refine ⟨[], first, List.suffix_rfl, h, fun u hu hne => absurd (List.suffix_nil.mp hu) hne⟩
  | cons x xs ih =>
      obtain ⟨hx, hxs⟩ := List.forall_mem_cons.mp hs
      rw [run_star_char_cons, if_pos hx, Option.or_eq_some_iff] at h
      rcases h with h | ⟨hnone, h⟩
      · obtain ⟨t, first', ht, hk, hlast⟩ := ih hxs h
        exact ⟨t, first', ht.trans (List.suffix_cons x xs), hk, hlast⟩
      · refine ⟨x :: xs, first, List.suffix_rfl, h, fun u hu hne => ?_⟩
        rcases List.suffix_cons_iff.mp hu with rfl | hu
        · exact absurd rfl hne
        · exact eq_none_of_run_star_char hxs hnone u hu

theorem run_star_char_takeWhile {b : β}
    (h : k ⟨first && (s.takeWhile p).isEmpty, s.dropWhile p⟩ c = some b) :
    run (.star (.char p)) ⟨first, s⟩ c k = some b := by
  have hstop : ∀ y, (s.dropWhile p).head? = some y → p y = false := by
    intro y hy
    simpa [hy] using List.head?_dropWhile_not p s
  have hall := run_star_char_append (s := s.dropWhile p) (fun y hy => List.mem_takeWhile_imp hy)
    ((run_star_char_stop hstop).trans h)
  rwa [List.takeWhile_append_dropWhile] at hall

theorem run_star_char_dropWhile {b : β} (h : run (.star (.char p)) ⟨first, s⟩ c k = some b)
    (hk : ∀ first', k ⟨first', s.dropWhile p⟩ c ≠ none) :
    ∃ first', k ⟨first', s.dropWhile p⟩ c = some b := by
  refine ⟨first && (s.takeWhile p).isEmpty, ?_⟩
  obtain ⟨b', hb⟩ := Option.ne_none_iff_exists'.mp (hk (first && (s.takeWhile p).isEmpty))
  rw [hb, ← h, run_star_char_takeWhile hb]

theorem run_star_ne_none {r : Regex} (h : k pos c ≠ none) : run (.star r) pos c k ≠ none :=
  run_complete (.done : Iterates r.Matches pos c pos c) h

theorem run_literal {l : List Char} :
    run (literal l) ⟨first, l ++ s⟩ c k = k ⟨first && l.isEmpty, s⟩ c := by
  induction l generalizing first with
  | nil => simp [literal]
  | cons y ys ih =>
      simp only [literal, run, List.cons_append, decide_true, if_true]
      rw [ih]
      simp

end Run

def OneLine (s : List Char) : Prop := ∀ x ∈ s, x ≠ '\n' ∧ x ≠ '\r'

instance (s : List Char) : Decidable (OneLine s) := List.decidableBAll _ s

section OneLine
variable {s t : List Char}

theorem oneLine_append : OneLine (s ++ t) ↔ OneLine s ∧ OneLine t := List.forall_mem_append

theorem OneLine.of_suffix (h : OneLine s) (ht : t <:+ s) : OneLine t := fun x hx =>
  h x (ht.subset hx)

def InLine : Regex → Prop
  | .char p => ∀ x, p x = true → x ≠ '\n' ∧ x ≠ '\r'
  | .seq r s | .alt r s => r.InLine ∧ s.InLine
  | .star r | .group _ r => r.InLine
  | _ => True

theorem InLine.oneLine {r : Regex} (h : r.InLine) {pos pos' : Pos} {c c' : Captures}
    (hm : r.Matches pos c pos' c') : ∃ a, pos.rest = a ++ pos'.rest ∧ OneLine a := by
  induction r generalizing pos c pos' c' with
  | empty =>
      obtain ⟨rfl, -⟩ := hm
      exact ⟨[], rfl, nofun⟩
  | char p =>
      obtain ⟨x, hx, hp, -⟩ := hm
      exact ⟨[x], hx, List.forall_mem_singleton.mpr (h x hp)⟩
  | bol =>
      obtain ⟨-, rfl, -⟩ := hm
      exact ⟨[], rfl, nofun⟩
  | eol =>
      obtain ⟨-, rfl, -⟩ := hm
      exact ⟨[], rfl, nofun⟩
  | seq r s ihr ihs =>
      obtain ⟨pos₁, c₁, hr, hs⟩ := hm
      obtain ⟨a, ha, hla⟩ := ihr h.1 hr
      obtain ⟨b, hb, hlb⟩ := ihs h.2 hs
      exact ⟨a ++ b, by rw [ha, hb, List.append_assoc], oneLine_append.mpr ⟨hla, hlb⟩⟩
  | alt r s ihr ihs => exact hm.elim (ihr h.1) (ihs h.2)
  | star r ih =>
      induction hm with
      | done => exact ⟨[], rfl, nofun⟩
      | more hr _ _ ihmore =>
          obtain ⟨a, ha, hla⟩ := ih h hr
          obtain ⟨b, hb, hlb⟩ := ihmore
          exact ⟨a ++ b, by rw [ha, hb, List.append_assoc], oneLine_append.mpr ⟨hla, hlb⟩⟩
  | group n r ih =>
      obtain ⟨c₁, hr, -⟩ := hm
      exact ih h hr

theorem nonSpace_inLine : nonSpace.InLine := by
  intro x hx
  constructor
  · rintro rfl
    revert hx
    decide
  · rintro rfl
    revert hx
    decide

theorem dot_inLine : dot.InLine := by
  intro x hx
  simpa using hx

def GroupsInLine : Regex → Prop
  | .seq r s | .alt r s => r.GroupsInLine ∧ s.GroupsInLine
  | .star r => r.GroupsInLine
  | .group _ r => r.InLine ∧ r.GroupsInLine
  | _ => True

theorem GroupsInLine.oneLine {r : Regex} (h : r.GroupsInLine) {pos pos' : Pos} {c c' : Captures}
    (hm : r.Matches pos c pos' c') (hc : ∀ n, OneLine (c n)) : ∀ n, OneLine (c' n) := by
  induction r generalizing pos c pos' c' with
  | empty =>
      obtain ⟨-, rfl⟩ := hm
      exact hc
  | char p =>
      obtain ⟨-, -, -, -, rfl⟩ := hm
      exact hc
  | bol =>
      obtain ⟨-, -, rfl⟩ := hm
      exact hc
  | eol =>
      obtain ⟨-, -, rfl⟩ := hm
      exact hc
  | seq r s ihr ihs =>
      obtain ⟨pos₁, c₁, hr, hs⟩ := hm
      exact ihs h.2 hs (ihr h.1 hr hc)
  | alt r s ihr ihs => exact hm.elim (fun hr => ihr h.1 hr hc) fun hs => ihs h.2 hs hc
  | star r ih =>
      induction hm with
      | done => exact hc
      | more hr _ _ ihmore => exact ihmore (ih h hr hc)
  | group n r ih =>
      obtain ⟨c₁, hr, rfl⟩ := hm
      obtain ⟨a, ha, hla⟩ := h.1.oneLine hr
      intro m
      by_cases hm : m = n
      · subst hm
        rw [Function.update_self, ha, take_front]
        exact hla
      · rw [Function.update_of_ne hm]
        exact ih h.2 hr hc m

/-- The groups of a match of the whole text. -/
theorem oneLine_of_regexMatch {r : Regex} (h : r.GroupsInLine) {c : Captures}
    (hm : regexMatch r s = some c) (n : Nat) : OneLine (c n) := by
  obtain ⟨pos, c', hm, hk⟩ := run_sound hm
  split_ifs at hk
  cases hk
  exact h.oneLine hm (fun _ => nofun) n

theorem run_line {n : Nat} {first : Bool} {c : Captures} (h : OneLine s) :
    run (concat [.group n (.star dot)]) ⟨first, s⟩ c
      (fun pos c => if pos.rest.isEmpty then some c else none) = some (Function.update c n s) := by
  refine run_star_char_all (by simpa [OneLine] using h) ?_
  simp only [concat, run_empty, List.isEmpty_nil, if_true, List.length_nil, Nat.sub_zero,
    List.take_length]

theorem run_spaces_line {n : Nat} {first : Bool} {c sm : Captures} (hs : OneLine s)
    (h : run (.star space) ⟨first, s⟩ c (fun pos c => run (concat [.group n (.star dot)]) pos c
      fun pos c => if pos.rest.isEmpty then some c else none) = some sm) :
    sm = Function.update c n (s.dropWhile isSpace) := by
  have hdrop := hs.of_suffix (List.dropWhile_suffix isSpace)
  obtain ⟨first', hrun⟩ := run_star_char_dropWhile h fun first => by
    rw [run_line hdrop]
    exact nofun
  cases (run_line hdrop).symm.trans hrun
  rfl

end OneLine

theorem find_of_run {r : Regex} {first : Bool} {s : List Char} {f : Found}
    (h : run (.group 0 r) ⟨first, s⟩ (fun _ => []) (fun pos c => some ⟨[], c, pos.rest⟩) = some f) :
    find r first s = some f := by
  cases s <;> simp only [find, h]

theorem find_matches {r : Regex} {first : Bool} {s : List Char} {f : Found}
    (h : find r first s = some f) :
    ∃ first' t pos, t <:+ s ∧ (Regex.group 0 r).Matches ⟨first', t⟩ (fun _ => []) pos f.captures := by
  induction s generalizing first f with
  | nil =>
      simp only [find] at h
      split at h
      · rename_i g hrun
        cases h
        obtain ⟨pos, c, hm, hk⟩ := run_sound hrun
        cases hk
        exact ⟨first, [], pos, List.suffix_rfl, hm⟩
      · cases h
  | cons x xs ih =>
      simp only [find] at h
      split at h
      · rename_i g hrun
        cases h
        obtain ⟨pos, c, hm, hk⟩ := run_sound hrun
        cases hk
        exact ⟨first, x :: xs, pos, List.suffix_rfl, hm⟩
      · obtain ⟨g, hg, rfl⟩ := Option.map_eq_some_iff.mp h
        obtain ⟨first', t, pos, ht, hm⟩ := ih (f := g) hg
        exact ⟨first', t, pos, ht.trans (List.suffix_cons x xs), hm⟩

theorem find_ne_none_of_matches {r : Regex} {first : Bool} {s : List Char} {pos : Pos}
    {c : Captures} (h : r.Matches ⟨first, s⟩ (fun _ => []) pos c) : find r first s ≠ none := by
  have hgroup : (Regex.group 0 r).Matches ⟨first, s⟩ (fun _ => []) pos _ := ⟨c, h, rfl⟩
  have hrun := run_complete (k := fun pos c => some (Found.mk [] c pos.rest)) hgroup nofun
  obtain ⟨f, hf⟩ := Option.ne_none_iff_exists'.mp hrun
  rw [find_of_run hf]
  exact nofun

/-- A match at some place is found, or another one before it. -/
theorem find_ne_none {r : Regex} {first : Bool} {s t : List Char} (ht : t <:+ s)
    (h : ∀ first', ∃ pos c, r.Matches ⟨first', t⟩ (fun _ => []) pos c) : find r first s ≠ none := by
  induction s generalizing first with
  | nil =>
      obtain ⟨pos, c, hm⟩ := h first
      rw [List.suffix_nil.mp ht] at hm
      exact find_ne_none_of_matches hm
  | cons x xs ih =>
      rcases List.suffix_cons_iff.mp ht with rfl | ht
      · obtain ⟨pos, c, hm⟩ := h first
        exact find_ne_none_of_matches hm
      · rw [find]
        split
        · exact nofun
        · rw [ne_eq, Option.map_eq_none_iff]
          exact ih ht

theorem findAll_matches {r : Regex} {n : Nat} {first : Bool} {s : List Char} {f : Found}
    (h : f ∈ (findAll r n first s).1) :
    ∃ first' t pos, (Regex.group 0 r).Matches ⟨first', t⟩ (fun _ => []) pos f.captures := by
  induction n generalizing first s with
  | zero => simp [findAll] at h
  | succ n ih =>
      cases hg : find r first s with
      | none => simp [findAll, hg] at h
      | some g =>
          simp only [findAll, hg] at h
          split_ifs at h
          · simp at h
          · rcases List.mem_cons.mp h with rfl | hmore
            · obtain ⟨first', t, pos, -, hm⟩ := find_matches hg
              exact ⟨first', t, pos, hm⟩
            · exact ih hmore

theorem regexReplace_of_none {r : Regex} {n : Nat} {line fmt : List Char}
    (hnone : regexSearch r line = none) : regexReplace r n line fmt = line := by
  have hfind : find r true line = none := Option.map_eq_none_iff.mp hnone
  have hall : findAll r line.length true line = ([], line) := by
    cases line.length with
    | zero => rfl
    | succ n => simp only [findAll, hfind]
  rw [regexReplace, hall]
  rfl

theorem findAll_found {r : Regex} {n : Nat} {first : Bool} {s : List Char} {f : Found}
    (h : find r first s = some f) (hne : f.captures 0 ≠ []) :
    (findAll r (n + 1) first s).1 = f :: (findAll r n false f.after).1 := by
  rw [findAll, h]
  simp [hne]

theorem isSpace_eq_false {p : Char → Bool} {x : Char}
    (hp : ∀ y ∈ [' ', '\t', '\n', '\r', Char.ofNat 11, Char.ofNat 12], p y = false)
    (h : p x = true) : isSpace x = false := by
  cases hspace : isSpace x with
  | false => rfl
  | true =>
      rw [hp x (of_decide_eq_true hspace)] at h
      exact h.symm

theorem isSpace_of_isDigit {x : Char} (h : x.isDigit = true) : isSpace x = false :=
  isSpace_eq_false (by decide) h

end Regex
