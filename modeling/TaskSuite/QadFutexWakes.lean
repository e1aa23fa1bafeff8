import TaskSuite.QadFutex
import Mathlib.Data.Finset.Card
import Mathlib.Data.List.Nodup
import Mathlib.Tactic.IntervalCases

/-! Which calls of `futex_wait` a `futex_wake` lets return. The tokens are
anonymous, so they can be taken by a call that registered after the wake, as long
as they have not all been taken. -/
namespace QadFutex
open Machine

def Waiting (h : List Event) (c : ℕ) : Prop :=
  h[c]? = some .registered ∧ c ∉ returnedCalls h

instance (h : List Event) (c : ℕ) : Decidable (Waiting h c) := inferInstanceAs (Decidable (_ ∧ _))

/-- The tokens that have been handed out and not been taken. -/
def outstanding (h : List Event) : ℕ := wokenUp h - (returnedCalls h).length

/-- The calls in `matched i` are as many as the wake at place `i` returned, and
each call that returned 0 is matched by an earlier wake. -/
structure Matches (h : List Event) (matched : ℕ → Finset ℕ) : Prop where
  card : ∀ i n, h[i]? = some (.woke n) → (matched i).card = n
  covered : ∀ j c, h[j]? = some (.returned c) → ∃ i n, i < j ∧ h[i]? = some (.woke n) ∧ c ∈ matched i

/-- What the futex of the kernel guarantees: a wake is matched with calls that
were waiting when it was executed. -/
def WakesWaiters (h : List Event) : Prop :=
  ∃ matched, Matches h matched ∧
    ∀ i n, h[i]? = some (.woke n) → ∀ c ∈ matched i, Waiting (h.take i) c

/-- The call registered after the wake at place `i`, and up to then there was
always a token outstanding. -/
def Late (h : List Event) (i c : ℕ) : Prop :=
  h[c]? = some .registered ∧ i < c ∧ ∀ m, i < m → m ≤ c → 0 < outstanding (h.take m)

/-! ### Counting in front parts of a history -/

section Count
variable {h : List Event} {i j c n r : ℕ}

theorem returnedCalls_cons_of_none {e : Event} (he : e.call? = none) :
    returnedCalls (e :: h) = returnedCalls h := List.filterMap_cons_none he

theorem returnedCalls_cons_of_some {e : Event} (he : e.call? = some c) :
    returnedCalls (e :: h) = c :: returnedCalls h := List.filterMap_cons_some he

theorem take_succ_of_getElem {e : Event} (he : h[i]? = some e) : h.take (i + 1) = h.take i ++ [e] := by
  rw [List.take_add_one, he]
  rfl

theorem wokenUp_take_succ (hi : h[i]? = some (.woke n)) :
    wokenUp (h.take (i + 1)) = wokenUp (h.take i) + n := by
  rw [take_succ_of_getElem hi, wokenUp_append, wokenUp_singleton]
  rfl

theorem take_split (hij : i ≤ j) : ∃ t, h.take j = h.take i ++ t :=
  (List.take_prefix_take_left hij).imp fun _ ht => ht.symm

theorem wokenUp_mono (hij : i ≤ j) : wokenUp (h.take i) ≤ wokenUp (h.take j) := by
  obtain ⟨t, ht⟩ := take_split (h := h) hij
  rw [ht, wokenUp_append]
  omega

theorem wokenUp_take_le : wokenUp (h.take i) ≤ wokenUp h := by
  conv_rhs => rw [← List.take_append_drop i h, wokenUp_append]
  omega

theorem returned_mono (hij : i ≤ j) :
    (returnedCalls (h.take i)).length ≤ (returnedCalls (h.take j)).length := by
  obtain ⟨t, ht⟩ := take_split (h := h) hij
  simp [ht]

theorem getElem_returnedCalls : (returnedCalls h)[r]? = some c ↔
    ∃ j, h[j]? = some (.returned c) ∧ (returnedCalls (h.take j)).length = r := by
  induction h generalizing r with
  | nil => simp
  | cons e h ih =>
      constructor
      · intro hr
        cases he : e.call? with
        | none =>
            rw [returnedCalls_cons_of_none he] at hr
            obtain ⟨j, hj, hlen⟩ := ih.mp hr
            exact ⟨j + 1, hj, by rwa [List.take_succ_cons, returnedCalls_cons_of_none he]⟩
        | some c' =>
            rw [returnedCalls_cons_of_some he] at hr
            cases r with
            | zero =>
                cases hr
                cases e <;> cases he
                exact ⟨0, rfl, rfl⟩
            | succ r =>
                obtain ⟨j, hj, hlen⟩ := ih.mp hr
                refine ⟨j + 1, hj, ?_⟩
                rw [List.take_succ_cons, returnedCalls_cons_of_some he, List.length_cons, hlen]
      · rintro ⟨j, hj, rfl⟩
        cases j with
        | zero =>
            cases hj
            rfl
        | succ j =>
            rw [List.take_succ_cons]
            cases he : e.call? with
            | none =>
                rw [returnedCalls_cons_of_none he, returnedCalls_cons_of_none he]
                exact ih.mpr ⟨j, hj, rfl⟩
            | some c' =>
                rw [returnedCalls_cons_of_some he, returnedCalls_cons_of_some he]
                exact ih.mpr ⟨j, hj, rfl⟩

theorem exists_wake (hr : r < wokenUp (h.take j)) :
    ∃ i n, i < j ∧ h[i]? = some (.woke n) ∧ wokenUp (h.take i) ≤ r ∧ r < wokenUp (h.take i) + n := by
  induction j with
  | zero => simp at hr
  | succ j ih =>
      by_cases hj : r < wokenUp (h.take j)
      · obtain ⟨i, n, hi, hrest⟩ := ih hj
        exact ⟨i, n, Nat.lt_succ_of_lt hi, hrest⟩
      · cases he : h[j]? with
        | none =>
            rw [List.take_add_one, he] at hr
            simp at hr
            omega
        | some e =>
            rw [take_succ_of_getElem he, wokenUp_append, wokenUp_singleton] at hr
            cases e with
            | woke n => exact ⟨j, n, Nat.lt_succ_self j, he, Nat.not_lt.mp hj, hr⟩
            | registered | refused | returned c =>
                simp only [Event.wokenUp, Nat.add_zero] at hr
                exact absurd hr hj

end Count

/-! ### Matching the tokens in the order of their wakes -/

/-- What every history of the futex has: a call returns at most once, and only
if it is waiting and there is a token. -/
structure Recorded (h : List Event) : Prop where
  once : (returnedCalls h).Nodup
  taken : ∀ j c, h[j]? = some (.returned c) → Waiting (h.take j) c ∧ 0 < outstanding (h.take j)

/-- The calls to which the tokens of the wake at place `i` go, if the tokens go
to `owners` in the order in which they were handed out. -/
def tokensOf (owners : List ℕ) (h : List Event) (i : ℕ) : Finset ℕ :=
  ((owners.drop (wokenUp (h.take i))).take (wokenUp (h.take (i + 1)) - wokenUp (h.take i))).toFinset

section Matching
variable {h : List Event} {owners : List ℕ} {i j c n r : ℕ}

theorem mem_tokensOf (hi : h[i]? = some (.woke n)) : c ∈ tokensOf owners h i ↔
    ∃ r, wokenUp (h.take i) ≤ r ∧ r < wokenUp (h.take i) + n ∧ owners[r]? = some c := by
  rw [tokensOf, wokenUp_take_succ hi, Nat.add_sub_cancel_left, List.mem_toFinset,
    List.mem_iff_getElem?]
  constructor
  · rintro ⟨q, hq⟩
    rw [List.getElem?_take] at hq
    split_ifs at hq with hlt
    rw [List.getElem?_drop] at hq
    exact ⟨_, Nat.le_add_right .., by omega, hq⟩
  · rintro ⟨r, hle, hlt, hr⟩
    refine ⟨r - wokenUp (h.take i), ?_⟩
    rw [List.getElem?_take, if_pos (by omega), List.getElem?_drop, Nat.add_sub_cancel' hle, hr]

theorem card_tokensOf (hnodup : owners.Nodup) (hlen : wokenUp h ≤ owners.length)
    (hi : h[i]? = some (.woke n)) : (tokensOf owners h i).card = n := by
  have hle : wokenUp (h.take i) + n ≤ owners.length := by
    rw [← wokenUp_take_succ hi]
    exact wokenUp_take_le.trans hlen
  rw [tokensOf, wokenUp_take_succ hi, Nat.add_sub_cancel_left, List.toFinset_card_of_nodup]
  · simp only [List.length_take, List.length_drop]
    omega
  · exact hnodup.sublist ((List.take_sublist ..).trans (List.drop_sublist ..))

/-- Different wakes hand out different tokens. -/
theorem disjoint_tokensOf (hnodup : owners.Nodup) {m : ℕ} (hij : i < j)
    (hi : h[i]? = some (.woke n)) (hj : h[j]? = some (.woke m)) :
    Disjoint (tokensOf owners h i) (tokensOf owners h j) := by
  rw [Finset.disjoint_left]
  intro c hci hcj
  obtain ⟨r, -, hr, hrc⟩ := (mem_tokensOf hi).mp hci
  obtain ⟨q, hq, -, hqc⟩ := (mem_tokensOf hj).mp hcj
  have hmono := wokenUp_mono (h := h) (Nat.succ_le_of_lt hij)
  rw [Nat.succ_eq_add_one, wokenUp_take_succ hi] at hmono
  have heq : r = q := (List.getElem?_inj (List.getElem?_eq_some_iff.mp hrc).1 hnodup).mp
    (hrc.trans hqc.symm)
  omega

theorem Waiting.lt (hw : Waiting (h.take j) c) : c < j := by
  have hlt := (List.getElem?_eq_some_iff.mp hw.1).1
  exact hlt.trans_le (List.length_take_le ..)

theorem Waiting.registered (hw : Waiting (h.take j) c) : h[c]? = some .registered := by
  rw [← List.getElem?_take_of_lt hw.lt]
  exact hw.1

theorem Waiting.earlier (hw : Waiting (h.take j) c) (hij : i ≤ j) (hci : c < i) :
    Waiting (h.take i) c := by
  refine ⟨(List.getElem?_take_of_lt hci).trans hw.registered, fun hmem => hw.2 ?_⟩
  obtain ⟨t, ht⟩ := take_split (h := h) hij
  rw [ht, returnedCalls_append]
  exact List.mem_append_left _ hmem

/-- A call that gets token `r` waits until then, and the wake that handed out
this token comes earlier. -/
theorem Recorded.owner (hrec : Recorded h) {waiters : List ℕ} (hwait : ∀ c ∈ waiters, Waiting h c)
    (hr : (returnedCalls h ++ waiters)[r]? = some c) :
    ∃ j, Waiting (h.take j) c ∧ (returnedCalls (h.take j)).length ≤ r ∧
      ∀ i, i < h.length → wokenUp (h.take i) ≤ r → i ≤ j := by
  by_cases hlt : r < (returnedCalls h).length
  · rw [List.getElem?_append_left hlt] at hr
    obtain ⟨j, hj, rfl⟩ := getElem_returnedCalls.mp hr
    obtain ⟨hw, hpos⟩ := hrec.taken j c hj
    refine ⟨j, hw, le_rfl, fun i _ hi => ?_⟩
    by_contra hji
    have hmono := wokenUp_mono (h := h) (Nat.le_of_not_le hji)
    rw [outstanding] at hpos
    omega
  · rw [List.getElem?_append_right (Nat.not_lt.mp hlt)] at hr
    refine ⟨h.length, ?_, ?_, fun i hi _ => hi.le⟩
    · rw [List.take_length]
      exact hwait c (List.mem_of_getElem? hr)
    · rw [List.take_length]
      omega

/-- With the tokens in this order, a wake is matched with calls that were
waiting for it or came while its tokens were still there. -/
theorem Recorded.waiting_or_late (hrec : Recorded h) {waiters : List ℕ}
    (hwait : ∀ c ∈ waiters, Waiting h c) (hi : h[i]? = some (.woke n))
    (hc : c ∈ tokensOf (returnedCalls h ++ waiters) h i) : Waiting (h.take i) c ∨ Late h i c := by
  obtain ⟨r, hle, hlt, hr⟩ := (mem_tokensOf hi).mp hc
  obtain ⟨j, hw, hrj, hbefore⟩ := hrec.owner hwait hr
  have hij : i ≤ j := hbefore i (List.getElem?_eq_some_iff.mp hi).1 hle
  rcases lt_trichotomy c i with hci | rfl | hic
  · exact .inl (hw.earlier hij hci)
  · rw [hw.registered] at hi
    cases hi
  · refine .inr ⟨hw.registered, hic, fun m him hmc => ?_⟩
    have hwoke := wokenUp_mono (h := h) (Nat.succ_le_of_lt him)
    rw [Nat.succ_eq_add_one, wokenUp_take_succ hi] at hwoke
    have hreturned := returned_mono (h := h) (hmc.trans hw.lt.le)
    rw [outstanding]
    omega

/-- A call that returned is matched by the wake that handed out its token. -/
theorem Recorded.covered (hrec : Recorded h) {waiters : List ℕ} (hj : h[j]? = some (.returned c)) :
    ∃ i n, i < j ∧ h[i]? = some (.woke n) ∧ c ∈ tokensOf (returnedCalls h ++ waiters) h i := by
  have hpos := (hrec.taken j c hj).2
  rw [outstanding, Nat.sub_pos_iff_lt] at hpos
  obtain ⟨i, n, hij, hi, hle, hlt⟩ := exists_wake hpos
  refine ⟨i, n, hij, hi, (mem_tokensOf hi).mpr ⟨_, hle, hlt, ?_⟩⟩
  have hr := getElem_returnedCalls.mpr ⟨j, hj, rfl⟩
  rwa [List.getElem?_append_left (List.getElem?_eq_some_iff.mp hr).1]

/-! ### The histories of the futex -/

theorem Recorded.nil : Recorded [] := ⟨List.nodup_nil, by simp⟩

theorem Waiting.snoc {e : Event} (hw : Waiting h c) (he : e ≠ .returned c) : Waiting (h ++ [e]) c := by
  have hlt := (List.getElem?_eq_some_iff.mp hw.1).1
  refine ⟨(List.getElem?_append_left hlt).trans hw.1, ?_⟩
  rw [returnedCalls_append, List.mem_append, not_or]
  refine ⟨hw.2, fun hmem => he ?_⟩
  cases e with
  | returned c' =>
      rw [returnedCalls_returned, List.mem_singleton] at hmem
      rw [hmem]
  | registered | refused | woke n => cases hmem

theorem getElem_snoc_returned {e : Event} (hj : (h ++ [e])[j]? = some (.returned c)) :
    (h[j]? = some (.returned c) ∧ (h ++ [e]).take j = h.take j) ∨
      (e = .returned c ∧ (h ++ [e]).take j = h) := by
  rcases lt_trichotomy j h.length with hlt | rfl | hgt
  · rw [List.getElem?_append_left hlt] at hj
    exact .inl ⟨hj, List.take_append_of_le_length hlt.le⟩
  · rw [List.getElem?_concat_length] at hj
    exact .inr ⟨Option.some.inj hj, by simp⟩
  · rw [List.getElem?_eq_none (by simp; omega)] at hj
    cases hj

/-- A history goes on with anything but a return. -/
theorem Recorded.snoc {e : Event} (hrec : Recorded h) (he : e.call? = none) : Recorded (h ++ [e]) where
  once := by
    rw [returnedCalls_append, returnedCalls_cons_of_none he, returnedCalls_nil, List.append_nil]
    exact hrec.once
  taken j c hj := by
    rcases getElem_snoc_returned hj with ⟨hj, htake⟩ | ⟨rfl, -⟩
    · rw [htake]
      exact hrec.taken j c hj
    · cases he

/-- A waiting call returns when there is a token. -/
theorem Recorded.returned (hrec : Recorded h) (hw : Waiting h c) (hpos : 0 < outstanding h) :
    Recorded (h ++ [.returned c]) where
  once := by
    rw [returnedCalls_append, returnedCalls_returned, List.nodup_append_comm]
    exact List.nodup_cons.mpr ⟨hw.2, hrec.once⟩
  taken j d hj := by
    rcases getElem_snoc_returned hj with ⟨hj, htake⟩ | ⟨heq, htake⟩
    · rw [htake]
      exact hrec.taken j d hj
    · cases heq
      rw [htake]
      exact ⟨hw, hpos⟩

/-- The calls that returned were registered in the history. -/
theorem Recorded.lt_length (hrec : Recorded h) (hc : c ∈ returnedCalls h) : c < h.length := by
  obtain ⟨r, hr⟩ := List.mem_iff_getElem?.mp hc
  obtain ⟨j, hj, -⟩ := getElem_returnedCalls.mp hr
  exact (List.getElem?_eq_some_iff.mp (hrec.taken j c hj).1.registered).1

/-- The place of a registration is a new name. -/
theorem Recorded.registers (hrec : Recorded h) : Waiting (h ++ [.registered]) h.length := by
  refine ⟨List.getElem?_concat_length .., fun hmem => ?_⟩
  rw [returnedCalls_append, returnedCalls_registered, List.append_nil] at hmem
  exact (hrec.lt_length hmem).false

theorem Waiting.lt_length (hw : Waiting h c) : c < h.length := (List.getElem?_eq_some_iff.mp hw.1).1

end Matching

section Run
variable {ι : Type*} [Fintype ι]

structure Inv (σ : State ι) : Prop where
  counts : Counts σ
  recorded : Recorded σ.history
  asleep : ∀ i c, σ.phase i = .sleeping c → Waiting σ.history c
  distinct : ∀ i j c, σ.phase i = .sleeping c → σ.phase j = .sleeping c → i = j

theorem inv_initial (word : UInt64) : Inv (initial word : State ι) where
  counts := counts_initial word
  recorded := .nil
  asleep _ _ hc := by cases hc
  distinct _ _ _ hc := by cases hc

theorem outstanding_eq {σ : State ι} (h : Counts σ) : outstanding σ.history = σ.ntokens := by
  rw [outstanding, ← h.balance, Nat.add_sub_cancel_left]

variable [DecidableEq ι]

section Phases
variable {σ : State ι} (h : Inv σ) (i : ι)
include h

theorem Inv.asleep_wait (k : ι) (c : ℕ)
    (hk : Function.update σ.phase i (.sleeping σ.history.length) k = .sleeping c) :
    Waiting (σ.history ++ [.registered]) c := by
  by_cases hki : k = i
  · subst hki
    rw [Function.update_self] at hk
    cases hk
    exact h.recorded.registers
  · rw [Function.update_of_ne hki] at hk
    exact (h.asleep k c hk).snoc (by simp)

theorem Inv.distinct_wait (j k : ι) (c : ℕ)
    (hj : Function.update σ.phase i (.sleeping σ.history.length) j = .sleeping c)
    (hk : Function.update σ.phase i (.sleeping σ.history.length) k = .sleeping c) : j = k := by
  -- all others have a name that is in use already
  have hother : ∀ l, l ≠ i → Function.update σ.phase i (.sleeping σ.history.length) l = .sleeping c →
      σ.phase l = .sleeping c ∧ c < σ.history.length := by
    intro l hl hc
    rw [Function.update_of_ne hl] at hc
    exact ⟨hc, (h.asleep l c hc).lt_length⟩
  have hself : Function.update σ.phase i (.sleeping σ.history.length) i = .sleeping c →
      c = σ.history.length := by
    intro hc
    rw [Function.update_self] at hc
    cases hc
    rfl
  by_cases hji : j = i
  · subst hji
    by_contra hne
    have := (hother k (Ne.symm hne) hk).2
    have := hself hj
    omega
  · obtain ⟨hj', hlt⟩ := hother j hji hj
    by_cases hki : k = i
    · subst hki
      have := hself hk
      omega
    · exact h.distinct j k c hj' (hother k hki hk).1

theorem Inv.asleep_poll {i : ι} {d : ℕ} (hi : σ.phase i = .sleeping d) (k : ι) (c : ℕ)
    (hk : Function.update σ.phase i .outside k = .sleeping c) :
    Waiting (σ.history ++ [.returned d]) c := by
  have hki : k ≠ i := by
    rintro rfl
    simp at hk
  rw [Function.update_of_ne hki] at hk
  refine (h.asleep k c hk).snoc fun heq => hki (h.distinct k i c hk ?_)
  rw [hi, Event.returned.inj heq]

theorem Inv.distinct_poll (j k : ι) (c : ℕ) (hj : Function.update σ.phase i .outside j = .sleeping c)
    (hk : Function.update σ.phase i .outside k = .sleeping c) : j = k := by
  have hold : ∀ l, Function.update σ.phase i .outside l = .sleeping c → σ.phase l = .sleeping c := by
    intro l hl
    by_cases hli : l = i
    · subst hli
      simp at hl
    · rwa [Function.update_of_ne hli] at hl
  exact h.distinct j k c (hold j hj) (hold k hk)

end Phases

theorem step_inv {σ τ : State ι} {a : Label ι} (h : Inv σ) (hs : step σ a = some τ) : Inv τ := by
  have hcounts := step_counts h.counts hs
  cases a with
  | wait i expected =>
      cases hphase : σ.phase i with
      | sleeping c => simp [step, hphase] at hs
      | outside =>
          simp only [step, hphase] at hs
          split_ifs at hs with hword
          · cases hs
            exact ⟨hcounts, h.recorded.snoc rfl, h.asleep_wait i, h.distinct_wait i⟩
          · cases hs
            exact ⟨hcounts, h.recorded.snoc rfl, fun k c hk => (h.asleep k c hk).snoc (by simp), h.distinct⟩
  | poll i =>
      cases hphase : σ.phase i with
      | outside => simp [step, hphase] at hs
      | sleeping c =>
          simp only [step, hphase] at hs
          split_ifs at hs with hpos
          · obtain rfl := Option.some.inj hs
            rw [← outstanding_eq h.counts] at hpos
            exact ⟨hcounts, h.recorded.returned (h.asleep i c hphase) hpos, h.asleep_poll hphase,
              h.distinct_poll i⟩
          · cases hs
            exact h
  | wake n =>
      simp only [step, h.counts.tokens, if_true] at hs
      cases hs
      exact ⟨hcounts, h.recorded.snoc rfl, fun k c hk => (h.asleep k c hk).snoc (by simp), h.distinct⟩
  | store word =>
      cases hs
      exact ⟨hcounts, h.recorded, h.asleep, h.distinct⟩

def Phase.call : Phase → ℕ
  | .outside => 0
  | .sleeping c => c

omit [Fintype ι] [DecidableEq ι] in
theorem Phase.eq_sleeping {x : Phase} (hx : x.asleep = true) : x = .sleeping x.call := by
  cases x with
  | outside => cases hx
  | sleeping c => rfl

omit [DecidableEq ι] in
theorem Inv.waiters {σ : State ι} (h : Inv σ) : ∃ waiters : List ℕ, waiters.Nodup ∧
    (∀ c ∈ waiters, Waiting σ.history c) ∧ σ.nwaiters = waiters.length := by
  have hasleep : ∀ i ∈ (Finset.univ.filter fun i => (σ.phase i).asleep).toList,
      σ.phase i = .sleeping (σ.phase i).call := fun i hi =>
    Phase.eq_sleeping (Finset.mem_filter.mp (Finset.mem_toList.mp hi)).2
  refine ⟨(Finset.univ.filter fun i => (σ.phase i).asleep).toList.map fun i => (σ.phase i).call,
    ?_, ?_, ?_⟩
  · refine (Finset.nodup_toList _).map_on fun i hi j hj heq => ?_
    refine h.distinct i j _ (hasleep i hi) ?_
    rw [heq]
    exact hasleep j hj
  · intro c hc
    obtain ⟨i, hi, rfl⟩ := List.mem_map.mp hc
    exact h.asleep i _ (hasleep i hi)
  · rw [List.length_map, Finset.length_toList, h.counts.waiters]
    exact Tally.tally_ite Phase.asleep σ.phase

end Run

/-- In any run of any number of threads, a `futex_wake` that returns `n` can be
matched with `n` calls of `futex_wait` that are not matched with another wake,
each of which was waiting when the wake was executed or registered later, before
the tokens were used up; the calls that returned 0 are matched with earlier
wakes. If no call registers while there are tokens, all of them were waiting. -/
theorem wakes_matched {ι : Type*} [Fintype ι] [DecidableEq ι] {word : UInt64} {as : List (Label ι)}
    {σ : State ι} (hr : run step (initial word) as = some σ) :
    (∃ matched, Matches σ.history matched ∧
      (∀ i n, σ.history[i]? = some (.woke n) → ∀ c ∈ matched i,
        Waiting (σ.history.take i) c ∨ Late σ.history i c) ∧
      ∀ i j n m, i < j → σ.history[i]? = some (.woke n) → σ.history[j]? = some (.woke m) →
        Disjoint (matched i) (matched j)) ∧
    ((∀ m, σ.history[m]? = some .registered → outstanding (σ.history.take m) = 0) →
      WakesWaiters σ.history) := by
  have h : Inv σ := invariant (fun _ _ _ h hs => step_inv h hs) (inv_initial word) hr
  obtain ⟨waiters, hnodup, hwait, hlen⟩ := h.waiters
  have howners : (returnedCalls σ.history ++ waiters).Nodup :=
    h.recorded.once.append hnodup fun c hc hc' => (hwait c hc').2 hc
  have henough : wokenUp σ.history ≤ (returnedCalls σ.history ++ waiters).length := by
    have htokens := h.counts.tokens
    have hbalance := h.counts.balance
    rw [List.length_append]
    omega
  have hmatches : Matches σ.history (tokensOf (returnedCalls σ.history ++ waiters) σ.history) :=
    ⟨fun i n hi => card_tokensOf howners henough hi, fun j c hj => h.recorded.covered hj⟩
  refine ⟨⟨_, hmatches, fun i n hi c hc => h.recorded.waiting_or_late hwait hi hc,
    fun i j n m hij hi hj => disjoint_tokensOf howners hij hi hj⟩, fun hclear =>
    ⟨_, hmatches, fun i n hi c hc => ?_⟩⟩
  rcases h.recorded.waiting_or_late hwait hi hc with hw | ⟨hreg, hic, hpos⟩
  · exact hw
  · have := hpos c hic le_rfl
    rw [hclear c hreg] at this
    cases this

/-- The token of the wake goes to the call that was waiting for it. -/
theorem wakes_matched_one_waiter :
    ∃ σ, run step (initial 7 : State (Fin 2)) [.wait 0 7, .wake 1, .poll 0, .wait 1 7] = some σ ∧
      σ.history = [.registered, .woke 1, .returned 0, .registered] ∧ WakesWaiters σ.history := by
  have hr : run step (initial 7 : State (Fin 2)) [.wait 0 7, .wake 1, .poll 0, .wait 1 7] =
    some _ := rfl
  refine ⟨_, hr, rfl, (wakes_matched hr).2 fun m hm => ?_⟩
  have hlt : m < 4 := (List.getElem?_eq_some_iff.mp hm).1
  interval_cases m
  · rfl
  · cases hm
  · cases hm
  · rfl

/-- Thread 1 registers after the wake of thread 0 and takes its token. -/
theorem late_waiter_takes_token :
    ∃ σ, run step (initial 7 : State (Fin 2)) [.wait 0 7, .wake 1, .wait 1 7, .poll 1] = some σ ∧
      σ.history = [.registered, .woke 1, .registered, .returned 2] ∧ ¬ WakesWaiters σ.history := by
  refine ⟨_, rfl, rfl, ?_⟩
  rintro ⟨matched, hmatches, hwait⟩
  obtain ⟨i, n, hlt, hi, hmem⟩ := hmatches.covered 3 2 rfl
  have hw := hwait i n hi 2 hmem
  have hle : 2 < i := hw.lt
  omega

end QadFutex
