import TaskSuite.SpinWakeup

/-! Whole runs of `spin_wakeup_test.cxx`: how many tokens there can be at a time, and
that all threads come to their end however they are scheduled. -/
namespace SpinWakeup
open Machine Tally

variable {M : SpinSemaphore} {ι τ : Type} [DecidableEq ι] [DecidableEq τ] [Fintype ι] [Fintype τ]
  {P : Params} {s s' : State M ι τ}

omit [DecidableEq ι] [DecidableEq τ] in
theorem Inv.posted_le (h : Inv P s) :
    tally (Trigger.posted P) s.trigger ≤ (Fintype.card τ * P.posts : ℕ) := by
  have hle : tally (Trigger.posted P) s.trigger ≤ ∑ _t : τ, (P.posts : ℤ) :=
    Finset.sum_le_sum fun t _ => Trigger.posted_le (h.triggers t)
  simpa using hle

theorem Sleeper.counted_le_taken (x : Sleeper) : x.counted P + x.ahead ≤ x.taken P := by
  cases x <;> simp

/-- In every order of the steps: there are never more tokens than the 8 that a trigger may
find and what the triggers post on top of them, no sleeper reads more of them, and the
counters stay below the number of tokens that are posted altogether. -/
theorem tokens_bounded (failures : ℕ) (labels : List (Label ι τ))
    (hrun : run (step P) (initial failures : State M ι τ) labels = some s) :
    M.tokens s.sem ≤ mostTokens P τ ∧ (∀ i, ∀ p ∈ s.points i, p.2 ≤ mostTokens P τ) ∧
      s.fast + s.slow + M.tokens s.sem ≤ P.postAmount * (Fintype.card τ * P.posts) ∧
      s.delayLoop ≤ P.postAmount * (Fintype.card τ * P.posts) := by
  have h : Inv P s :=
    invariant (I := Inv P) (fun _ _ _ hu hs => step_inv hu hs) (inv_initial P failures) hrun
  have hposted := Int.mul_le_mul_of_nonneg_left h.posted_le (Int.natCast_nonneg P.postAmount)
  have htaken : tally (Sleeper.counted P) s.sleeper + tally Sleeper.ahead s.sleeper ≤
      tally (Sleeper.taken P) s.sleeper := by
    rw [← tally_add]
    exact tally_le Sleeper.counted_le_taken
  have hahead : 0 ≤ tally Sleeper.ahead s.sleeper := by
    apply tally_nonneg
    intro x
    cases x <;> simp
  have htokens := h.tokens
  have hcounted := h.counted
  have hdelay := h.delayHigh
  refine ⟨h.tokens_le, fun i => (h.sleepers i).points, ?_, ?_⟩ <;> zify <;> push_cast at hposted <;> omega

/-- A trigger posts, and a sleeper takes one of the tokens on the fast path. -/
theorem tokens_bounded_fast_path :
    ∃ s, run (step .source) (initial 0 : State .counting (Fin 4) (Fin 4))
        [.go, .trigger 0, .trigger 0, .trigger 0, .sleeper 1, .sleeper 1, .sleeper 1] = some s ∧
      SpinSemaphore.counting.tokens s.sem ≤ mostTokens .source (Fin 4) ∧
        (∀ i, ∀ p ∈ s.points i, p.2 ≤ mostTokens .source (Fin 4)) ∧
        s.fast + s.slow + SpinSemaphore.counting.tokens s.sem ≤ 2 * (Fintype.card (Fin 4) * 375000) ∧
        s.delayLoop ≤ 2 * (Fintype.card (Fin 4) * 375000) := by
  have hrun : ∃ s, run (step .source) (initial 0 : State .counting (Fin 4) (Fin 4))
      [.go, .trigger 0, .trigger 0, .trigger 0, .sleeper 1, .sleeper 1, .sleeper 1] = some s := ⟨_, rfl⟩
  obtain ⟨s, hs⟩ := hrun
  exact ⟨s, hs, tokens_bounded 0 _ hs⟩

/-! ### Every thread comes to its end -/

/-- The steps that a sleeper still has to do, if every exchange succeeds. -/
def Sleeper.left (P : Params) : Sleeper → ℕ
  | .start => 8 * P.waits + 3
  | .loop n => 8 * (P.waits - n) + 2
  | .slowWait n => 8 * (P.waits - n) + 1
  | .countSlow n => 8 * (P.waits - n)
  | .load n => 8 * (P.waits - n) - 1
  | .exchange n _ => 8 * (P.waits - n) - 2
  | .fetchAdd n _ => 8 * (P.waits - n) + 1
  | .countFast n _ _ => 8 * (P.waits - n)
  | .wokenUp n _ _ => 8 * (P.waits - n) - 3
  | .emplace n _ _ => 8 * (P.waits - n) - 4
  | .finish => 1
  | .done => 0

def Trigger.left (P : Params) : Trigger → ℕ
  | .start => 3 * P.posts + 2
  | .check n => 3 * (P.posts - n) + 1
  | .post n => 3 * (P.posts - n)
  | .delay n => 3 * (P.posts - n) - 1
  | .done => 0

def State.left (P : Params) (s : State M ι τ) : ℕ :=
  ∑ i, (s.sleeper i).left P + ∑ t, (s.trigger t).left P + s.failures + (!s.go).toNat

/-- The exchange is going to fail, because `delay_loop` was changed in between. -/
def Sleeper.stale (delayLoop : ℕ) : Sleeper → ℕ
  | .exchange _ dl => if delayLoop = dl then 0 else 1
  | _ => 0

def State.stale (s : State M ι τ) : ℕ := ∑ i, (s.sleeper i).stale s.delayLoop

omit [DecidableEq ι] [DecidableEq τ] [Fintype τ] in
theorem State.stale_le (s : State M ι τ) : s.stale ≤ Fintype.card ι := by
  have hone : ∀ i, (s.sleeper i).stale s.delayLoop ≤ 1 := by
    intro i
    cases s.sleeper i <;> simp only [Sleeper.stale, Nat.zero_le]
    split_ifs <;> omega
  calc s.stale ≤ ∑ _i : ι, 1 := Finset.sum_le_sum fun i _ => hone i
    _ = Fintype.card ι := by simp

omit [DecidableEq τ] [Fintype τ] in
/-- Another round of the exchange is no progress. -/
theorem sum_left_exchange {i : ι} {n dl : ℕ} (hpc : s.sleeper i = .exchange n dl) (dl' : ℕ) :
    ∑ k, (Function.update s.sleeper i (.exchange n dl') k).left P = ∑ k, (s.sleeper k).left P := by
  apply Finset.sum_congr rfl
  intro k _
  by_cases hk : k = i
  · subst hk
    rw [Function.update_self, hpc]
    rfl
  · rw [Function.update_of_ne hk]

omit [DecidableEq τ] in
theorem left_lt_of_sleeper {i : ι} {x y : Sleeper} (hx : s.sleeper i = x)
    (hsleeper : s'.sleeper = Function.update s.sleeper i y) (htrigger : s'.trigger = s.trigger)
    (hgo : s'.go = s.go) (hfailures : s'.failures = s.failures) (hless : y.left P < x.left P) :
    s'.left P < s.left P := by
  subst hx
  unfold State.left
  rw [hsleeper, htrigger, hgo, hfailures]
  have hsum := sum_update_lt (fun _ (x : Sleeper) => x.left P) hless
  omega

omit [DecidableEq ι] in
theorem left_lt_of_trigger {t : τ} {x y : Trigger} (hx : s.trigger t = x) {w : M.Word}
    (hless : y.left P < x.left P) :
    State.left P ({ s with sem := w }.setTrigger t y) < s.left P := by
  subst hx
  have hsum := sum_update_lt (fun _ (x : Trigger) => x.left P) hless
  unfold State.left
  simp only [State.setTrigger]
  omega

omit [DecidableEq τ] in
/-- A sleeper gets on, unless it finds that `delay_loop` was changed. -/
theorem stepSleeper_left (h : Inv P s) {i : ι} (hs : stepSleeper P s i = some s') :
    s'.left P < s.left P ∨ s'.left P = s.left P ∧ s'.stale < s.stale := by
  have hturns := (h.sleepers i).turns
  cases hpc : s.sleeper i with
  | exchange n dl =>
      rw [hpc] at hturns
      simp only [stepSleeper, hpc] at hs
      split_ifs at hs with hge hsame
      · cases hs
        left
        refine left_lt_of_sleeper hpc rfl rfl rfl rfl ?_
        simp only [Sleeper.left]
        omega
      · cases hs
        right
        constructor
        · unfold State.left
          simp only [State.setSleeper, sum_left_exchange hpc]
        · refine sum_update_lt (fun _ (x : Sleeper) => x.stale s.delayLoop) ?_
          simp [hpc, Sleeper.stale, hsame]
      · cases hs
        left
        refine left_lt_of_sleeper hpc rfl rfl rfl rfl ?_
        simp only [Sleeper.left]
        omega
  | start =>
      left
      simp only [stepSleeper, hpc] at hs
      split_ifs at hs
      cases hs
      refine left_lt_of_sleeper hpc rfl rfl rfl rfl ?_
      simp only [Sleeper.left]
      omega
  | loop n =>
      left
      rw [hpc] at hturns
      simp only [stepSleeper, hpc] at hs
      split_ifs at hs with hn hzero <;> cases hs <;>
        refine left_lt_of_sleeper hpc rfl rfl rfl rfl ?_ <;> simp only [Sleeper.left] <;> omega
  | slowWait n =>
      left
      simp only [stepSleeper, hpc, Option.map_eq_some_iff] at hs
      obtain ⟨word, -, rfl⟩ := hs
      refine left_lt_of_sleeper hpc rfl rfl rfl rfl ?_
      simp only [Sleeper.left]
      omega
  | emplace n tokens dl =>
      left
      rw [hpc] at hturns
      simp only [stepSleeper, hpc] at hs
      split_ifs at hs
      cases hs
      refine left_lt_of_sleeper hpc rfl rfl rfl rfl ?_
      simp only [Sleeper.left]
      omega
  | countSlow n | load n | fetchAdd n tokens | countFast n tokens dl | wokenUp n tokens dl | finish =>
      left
      rw [hpc] at hturns
      simp only [stepSleeper, hpc, Option.some.injEq] at hs
      subst hs
      refine left_lt_of_sleeper hpc rfl rfl rfl rfl ?_
      simp only [Sleeper.left]
      omega
  | done => simp [stepSleeper, hpc] at hs

omit [DecidableEq ι] in
theorem stepTrigger_left (h : Inv P s) {t : τ} (hs : stepTrigger P s t = some s') :
    s'.left P < s.left P := by
  have hturns := h.triggers t
  cases hpc : s.trigger t with
  | start =>
      simp only [stepTrigger, hpc] at hs
      split_ifs at hs
      cases hs
      refine left_lt_of_trigger hpc (w := s.sem) ?_
      simp only [Trigger.left]
      omega
  | check n =>
      simp only [stepTrigger, hpc] at hs
      split_ifs at hs <;> cases hs <;> refine left_lt_of_trigger hpc (w := s.sem) ?_ <;>
        simp only [Trigger.left] <;> omega
  | post n =>
      rw [hpc] at hturns
      simp only [stepTrigger, hpc, Option.some.injEq] at hs
      subst hs
      refine left_lt_of_trigger hpc ?_
      simp only [Trigger.left, Trigger.Sound] at hturns ⊢
      omega
  | delay n =>
      rw [hpc] at hturns
      simp only [stepTrigger, hpc, Option.some.injEq] at hs
      subst hs
      refine left_lt_of_trigger hpc (w := s.sem) ?_
      simp only [Trigger.left, Trigger.Sound] at hturns ⊢
      omega
  | done => simp [stepTrigger, hpc] at hs

def State.measure (P : Params) (s : State M ι τ) : ℕ := (Fintype.card ι + 1) * s.left P + s.stale

theorem step_measure (h : Inv P s) {a : Label ι τ} (hs : step P s a = some s') :
    s'.measure P < s.measure P := by
  apply two_measures_lt s'.stale_le
  cases a with
  | go =>
      left
      simp only [step] at hs
      split_ifs at hs with hgo
      cases hs
      simp [State.left, hgo]
  | sleeper i => exact stepSleeper_left h hs
  | failure i =>
      left
      simp only [step] at hs
      split at hs
      next n dl hpc =>
        split_ifs at hs with hfail
        cases hs
        unfold State.left
        simp only [State.setSleeper, sum_left_exchange hpc]
        omega
      next => cases hs
  | trigger t => exact .inl (stepTrigger_left h hs)

structure Joined (P : Params) (s : State M ι τ) : Prop where
  sleepers : ∀ i, s.sleeper i = .done
  triggers : ∀ t, s.trigger t = .done
  /-- `ASSERT(woken_up_count == number_of_times_to_wait)` -/
  wokenUp : s.wokenUpCount = Fintype.card ι * P.waits
  finished : s.finishedSleepers = Fintype.card ι
  fast_add_slow : s.fast + s.slow = s.wokenUpCount
  /-- a sleeper that was slow lowers `delay_loop` at most once -/
  delayLoop : s.delayLoop ≤ s.fast ∧ s.fast ≤ s.delayLoop + P.postAmount * s.slow
  points : ∀ i, (s.points i).length = P.waits
  /-- `sem.sanity_check()`, where as many tokens are posted as there are waits -/
  tokens : M.tokens s.sem + Fintype.card ι * P.waits = P.postAmount * (Fintype.card τ * P.posts)

omit [DecidableEq ι] [DecidableEq τ] in
theorem Inv.joined (h : Inv P s) (hsleepers : ∀ i, s.sleeper i = .done)
    (htriggers : ∀ t, s.trigger t = .done) : Joined P s := by
  have htaken : tally (Sleeper.taken P) s.sleeper = P.waits * Fintype.card ι :=
    tally_eq_mul_card fun i => by rw [hsleepers i]; rfl
  have hcounted : tally (Sleeper.counted P) s.sleeper = P.waits * Fintype.card ι :=
    tally_eq_mul_card fun i => by rw [hsleepers i]; rfl
  have hwoken : tally (Sleeper.woken P) s.sleeper = P.waits * Fintype.card ι :=
    tally_eq_mul_card fun i => by rw [hsleepers i]; rfl
  have hended : tally Sleeper.ended s.sleeper = Fintype.card ι :=
    tally_eq_card fun i => by rw [hsleepers i]; rfl
  have hahead : tally Sleeper.ahead s.sleeper = 0 := tally_eq_zero fun i => by rw [hsleepers i]; rfl
  have howing : tally Sleeper.owing s.sleeper = 0 := tally_eq_zero fun i => by rw [hsleepers i]; rfl
  have hposted : tally (Trigger.posted P) s.trigger = P.posts * Fintype.card τ :=
    tally_eq_mul_card fun t => by rw [htriggers t]; rfl
  have hwok := h.woken
  have hcnt := h.counted
  have hlow := h.delayLow
  have hhigh := h.delayHigh
  have htok := h.tokens
  rw [hwoken] at hwok
  rw [hcounted] at hcnt
  rw [hahead, howing, sub_zero, add_zero] at hlow
  rw [hahead, add_zero] at hhigh
  rw [htaken, hposted] at htok
  exact {
    sleepers := hsleepers
    triggers := htriggers
    wokenUp := by
      zify
      rw [hwok, mul_comm]
    finished := by
      have hfin := h.finished
      rw [hended] at hfin
      exact_mod_cast hfin
    fast_add_slow := by
      zify
      rw [hcnt, hwok]
    delayLoop := ⟨by exact_mod_cast hhigh, by exact_mod_cast hlow⟩
    points := by
      intro i
      have hi := (h.sleepers i).length
      rwa [hsleepers i] at hi
    tokens := by
      zify
      rw [mul_comm (Fintype.card ι : ℤ), mul_comm (Fintype.card τ : ℤ)]
      exact htok }

omit [DecidableEq τ] in
theorem exists_stepSleeper (hgo : s.go = true) (hroom : mostTokens P τ < 40) (h : Inv P s) {i : ι}
    (hdone : s.sleeper i ≠ .done)
    (hwait : ∀ n, s.sleeper i = .slowWait n → 0 < M.tokens s.sem) :
    ∃ s', stepSleeper P s i = some s' := by
  cases hpc : s.sleeper i with
  | done => exact absurd hpc hdone
  | start =>
      simp only [stepSleeper, hpc, hgo, if_true]
      exact ⟨_, rfl⟩
  | loop n =>
      simp only [stepSleeper, hpc]
      split_ifs <;> exact ⟨_, rfl⟩
  | slowWait n =>
      obtain ⟨word, hword⟩ := Option.isSome_iff_exists.mp (M.slowWait_isSome (hwait n hpc))
      simp only [stepSleeper, hpc, hword]
      exact ⟨_, rfl⟩
  | exchange n dl =>
      simp only [stepSleeper, hpc]
      split_ifs <;> exact ⟨_, rfl⟩
  | emplace n tokens dl =>
      have hturns := (h.sleepers i).turns
      rw [hpc] at hturns
      simp only [stepSleeper, hpc, if_pos (lt_of_le_of_lt hturns.2 hroom)]
      exact ⟨_, rfl⟩
  | countSlow n | load n | fetchAdd n tokens | countFast n tokens dl | wokenUp n tokens dl | finish =>
      simp only [stepSleeper, hpc]
      exact ⟨_, rfl⟩

omit [DecidableEq ι] [Fintype ι] [Fintype τ] in
theorem exists_stepTrigger (hgo : s.go = true) (hfew : M.tokens s.sem ≤ 8) {t : τ}
    (hdone : s.trigger t ≠ .done) : ∃ s', stepTrigger P s t = some s' := by
  cases hpc : s.trigger t with
  | done => exact absurd hpc hdone
  | start =>
      simp only [stepTrigger, hpc, hgo, if_true]
      exact ⟨_, rfl⟩
  | check n =>
      simp only [stepTrigger, hpc, if_neg (not_lt.mpr hfew)]
      split_ifs <;> exact ⟨_, rfl⟩
  | post n | delay n =>
      simp only [stepTrigger, hpc]
      exact ⟨_, rfl⟩

theorem Sleeper.taken_le {x : Sleeper} {most : ℕ} {points : List (ℕ × ℕ)} (hx : x.Sound P most points) :
    x.taken P ≤ P.waits := by
  have hturns := hx.turns
  cases x <;> simp only [taken] at hturns ⊢ <;> omega

omit [DecidableEq ι] [DecidableEq τ] in
/-- A sleeper that waits has not yet taken its last token. -/
theorem Inv.taken_lt (h : Inv P s) {i : ι} {n : ℕ} (hi : s.sleeper i = .slowWait n) :
    tally (Sleeper.taken P) s.sleeper < Fintype.card ι * P.waits := by
  have hless : tally (Sleeper.taken P) s.sleeper < ∑ _i : ι, (P.waits : ℤ) := by
    refine Finset.sum_lt_sum (fun k _ => Sleeper.taken_le (h.sleepers k)) ⟨i, Finset.mem_univ i, ?_⟩
    have hturns := (h.sleepers i).turns
    rw [hi] at hturns ⊢
    exact Int.ofNat_lt.mpr hturns
  simpa using hless

theorem exists_step (hge : Fintype.card ι * P.waits ≤ P.postAmount * (Fintype.card τ * P.posts))
    (hle : P.postAmount * (Fintype.card τ * P.posts) ≤ Fintype.card ι * P.waits + 8)
    (hroom : mostTokens P τ < 40) (h : Inv P s) (hjoined : ¬ Joined P s) :
    ∃ a s', step P s a = some s' := by
  by_cases hgo : s.go = true
  · by_cases hsleeper : ∃ i, s.sleeper i ≠ .done ∧
        ∀ n, s.sleeper i = .slowWait n → 0 < M.tokens s.sem
    · obtain ⟨i, hdone, hwait⟩ := hsleeper
      obtain ⟨s', hs⟩ := exists_stepSleeper hgo hroom h hdone hwait
      exact ⟨.sleeper i, s', hs⟩
    · have hidle : ∀ i, s.sleeper i ≠ .done → M.tokens s.sem = 0 ∧ ∃ n, s.sleeper i = .slowWait n := by
        intro i hdone
        by_contra hnot
        apply hsleeper
        refine ⟨i, hdone, ?_⟩
        intro n hn
        by_contra hzero
        exact hnot ⟨Nat.eq_zero_of_not_pos hzero, n, hn⟩
      have htokens := h.tokens
      zify at hge hle
      have hfew : M.tokens s.sem ≤ 8 := by
        by_contra hmany
        have hall : ∀ i, s.sleeper i = .done := by
          intro i
          by_contra hdone
          exact hmany (by rw [(hidle i hdone).1]; exact Nat.zero_le 8)
        have htaken : tally (Sleeper.taken P) s.sleeper = P.waits * Fintype.card ι :=
          tally_eq_mul_card fun i => by rw [hall i]; rfl
        have hposted := Int.mul_le_mul_of_nonneg_left h.posted_le (Int.natCast_nonneg P.postAmount)
        rw [htaken, mul_comm (P.waits : ℤ)] at htokens
        push_cast at hposted
        omega
      by_cases htrigger : ∃ t, s.trigger t ≠ .done
      · obtain ⟨t, hdone⟩ := htrigger
        obtain ⟨s', hs⟩ := exists_stepTrigger hgo hfew hdone
        exact ⟨.trigger t, s', hs⟩
      · -- All tokens are there, so nobody can still be waiting for one.
        simp only [not_exists, not_not] at htrigger
        exfalso
        apply hjoined
        refine h.joined ?_ htrigger
        intro i
        by_contra hdone
        obtain ⟨hzero, n, hn⟩ := hidle i hdone
        have hless := h.taken_lt hn
        have hposted : tally (Trigger.posted P) s.trigger = P.posts * Fintype.card τ :=
          tally_eq_mul_card fun t => by rw [htrigger t]; rfl
        rw [hzero, hposted, mul_comm (P.posts : ℤ)] at htokens
        push_cast at htokens
        omega
  · exact ⟨.go, _, if_neg hgo⟩

/-- Where the tokens that are posted are as many as the waits, or up to 8 more, and no
ASSERT on the number of tokens can fail, all threads end: no wakeup is lost, and no
trigger spins for ever. -/
theorem wakeups_complete (hge : Fintype.card ι * P.waits ≤ P.postAmount * (Fintype.card τ * P.posts))
    (hle : P.postAmount * (Fintype.card τ * P.posts) ≤ Fintype.card ι * P.waits + 8)
    (hroom : mostTokens P τ < 40) (failures : ℕ) :
    Completes (step P) (Joined P) (initial failures : State M ι τ) :=
  completes (I := Inv P) (fun _ _ _ hu hs => step_inv hu hs) (fun _ _ _ hu hs => step_measure hu hs)
    (fun _ hu hjoined => exists_step hge hle hroom hu hjoined) (inv_initial P failures)

theorem wakeups_complete_source :
    Completes (step .source) (Joined .source) (initial 5 : State .counting (Fin 4) (Fin 4)) :=
  wakeups_complete (by decide) (by decide) (by decide) 5

end SpinWakeup
