import TaskSuite.Completion
import TaskSuite.Tally

/-! The sleepers and triggers of `spin_wakeup_test.cxx`. The semaphore that they use is
not part of the repository; what the test relies on is a parameter. -/
namespace SpinWakeup
open Machine Tally

/-- A word that contains a number of tokens. `fastTryWait` takes one if there is one;
`slowWait` returns once it could take one. -/
structure SpinSemaphore where
  Word : Type
  empty : Word
  tokens : Word → ℕ
  fastTryWait : Word → Word
  slowWait : Word → Option Word
  post : Word → ℕ → Word
  tokens_empty : tokens empty = 0
  tokens_fastTryWait (w : Word) : tokens (fastTryWait w) = tokens w - 1
  tokens_slowWait {w v : Word} : slowWait w = some v → tokens v + 1 = tokens w
  slowWait_isSome {w : Word} : 0 < tokens w → (slowWait w).isSome
  tokens_post (w : Word) (n : ℕ) : tokens (post w n) = tokens w + n

def SpinSemaphore.counting : SpinSemaphore where
  Word := ℕ
  empty := 0
  tokens := id
  fastTryWait n := n - 1
  slowWait n := if n = 0 then none else some (n - 1)
  post n k := n + k
  tokens_empty := rfl
  tokens_fastTryWait _ := rfl
  tokens_slowWait := by
    intro w v hv
    simp only [Option.ite_none_left_eq_some, Option.some.injEq] at hv
    simp only [id]
    omega
  slowWait_isSome := by
    intro w hw
    simp only [id] at hw
    rw [if_neg (by omega)]
    rfl
  tokens_post _ _ := rfl

structure Params where
  postAmount : ℕ
  /-- `number_of_times_to_wait_per_sleeper` -/
  waits : ℕ
  /-- `number_of_times_to_post_per_trigger` -/
  posts : ℕ

def Params.source : Params where
  postAmount := 2
  waits := 3000000 / 4
  posts := 3000000 / 4 / 2

/-- The places in `sleepers`. `n` is the variable of the loop, `tokens` what the word had
of them, and `dl` the local variable of that name. -/
inductive Sleeper where
  | start
  | loop (n : ℕ)
  | slowWait (n : ℕ)
  /-- `++slow` -/
  | countSlow (n : ℕ)
  /-- `delay_loop.load()` -/
  | load (n : ℕ)
  /-- the loop around `compare_exchange_weak` -/
  | exchange (n dl : ℕ)
  /-- `delay_loop.fetch_add(1)` -/
  | fetchAdd (n tokens : ℕ)
  /-- `fast++` -/
  | countFast (n tokens dl : ℕ)
  /-- `woken_up_count++` -/
  | wokenUp (n tokens dl : ℕ)
  /-- `points.emplace_back(dl, tokens)` -/
  | emplace (n tokens dl : ℕ)
  /-- `++finished_sleepers` -/
  | finish
  | done
  deriving DecidableEq, Repr

inductive Trigger where
  | start
  | check (n : ℕ)
  | post (n : ℕ)
  /-- the loop that does nothing `delay_loop` times -/
  | delay (n : ℕ)
  | done
  deriving DecidableEq, Repr

/-- `failures` is how often `compare_exchange_weak` may still fail for no reason. -/
structure State (M : SpinSemaphore) (ι τ : Type) where
  go : Bool
  sem : M.Word
  delayLoop : ℕ
  slow : ℕ
  fast : ℕ
  wokenUpCount : ℕ
  finishedSleepers : ℕ
  failures : ℕ
  sleeper : ι → Sleeper
  trigger : τ → Trigger
  points : ι → List (ℕ × ℕ)

inductive Label (ι τ : Type) where
  /-- `go.store(1)` in `main` -/
  | go
  | sleeper (i : ι)
  /-- `compare_exchange_weak` fails for no reason. -/
  | failure (i : ι)
  | trigger (t : τ)

variable {M : SpinSemaphore} {ι τ : Type}

def initial (failures : ℕ) : State M ι τ :=
  ⟨false, M.empty, 0, 0, 0, 0, 0, failures, fun _ => .start, fun _ => .start, fun _ => []⟩

variable [DecidableEq ι] [DecidableEq τ]

def State.setSleeper (s : State M ι τ) (i : ι) (x : Sleeper) : State M ι τ :=
  { s with sleeper := Function.update s.sleeper i x }

def State.setTrigger (s : State M ι τ) (t : τ) (x : Trigger) : State M ι τ :=
  { s with trigger := Function.update s.trigger t x }

/-- A sleeper that waits for `go` or for a token has no step; neither has one whose
`ASSERT(tokens < 40)` fails. -/
def stepSleeper (P : Params) (s : State M ι τ) (i : ι) : Option (State M ι τ) :=
  match s.sleeper i with
  | .start => if s.go then some (s.setSleeper i (.loop 0)) else none
  | .loop n =>
      if n < P.waits then
        let tokens := M.tokens s.sem
        if tokens = 0 then
          some ({ s with sem := M.fastTryWait s.sem }.setSleeper i (.slowWait n))
        else some ({ s with sem := M.fastTryWait s.sem }.setSleeper i (.fetchAdd n tokens))
      else some (s.setSleeper i .finish)
  | .slowWait n =>
      (M.slowWait s.sem).map fun word => { s with sem := word }.setSleeper i (.countSlow n)
  | .countSlow n => some ({ s with slow := s.slow + 1 }.setSleeper i (.load n))
  | .load n => some (s.setSleeper i (.exchange n s.delayLoop))
  | .exchange n dl =>
      if dl ≥ P.postAmount then
        if s.delayLoop = dl then
          some ({ s with delayLoop := dl - P.postAmount }.setSleeper i (.wokenUp n 0 dl))
        else some (s.setSleeper i (.exchange n s.delayLoop))
      else some (s.setSleeper i (.wokenUp n 0 dl))
  | .fetchAdd n tokens =>
      some ({ s with delayLoop := s.delayLoop + 1 }.setSleeper i (.countFast n tokens s.delayLoop))
  | .countFast n tokens dl => some ({ s with fast := s.fast + 1 }.setSleeper i (.wokenUp n tokens dl))
  | .wokenUp n tokens dl =>
      some ({ s with wokenUpCount := s.wokenUpCount + 1 }.setSleeper i (.emplace n tokens dl))
  | .emplace n tokens dl =>
      if tokens < 40 then
        some ({ s with
          points := Function.update s.points i (s.points i ++ [(dl, tokens)]) }.setSleeper i (.loop (n + 1)))
      else none
  | .finish => some ({ s with finishedSleepers := s.finishedSleepers + 1 }.setSleeper i .done)
  | .done => none

/-- A trigger that waits for `go`, or spins because there are too many tokens, has no step. -/
def stepTrigger (P : Params) (s : State M ι τ) (t : τ) : Option (State M ι τ) :=
  match s.trigger t with
  | .start => if s.go then some (s.setTrigger t (.check 0)) else none
  | .check n =>
      if n < P.posts then
        if M.tokens s.sem > 8 then none else some (s.setTrigger t (.post n))
      else some (s.setTrigger t .done)
  | .post n => some ({ s with sem := M.post s.sem P.postAmount }.setTrigger t (.delay n))
  | .delay n => some (s.setTrigger t (.check (n + 1)))
  | .done => none

def step (P : Params) (s : State M ι τ) : Label ι τ → Option (State M ι τ)
  | .go => if s.go then none else some { s with go := true }
  | .sleeper i => stepSleeper P s i
  | .failure i =>
      match s.sleeper i with
      | .exchange n dl =>
          if dl ≥ P.postAmount ∧ 0 < s.failures then
            some ({ s with failures := s.failures - 1 }.setSleeper i (.exchange n s.delayLoop))
          else none
      | _ => none
  | .trigger t => stepTrigger P s t

/-! ### What each thread has done -/

namespace Sleeper

@[simp] def taken (P : Params) : Sleeper → ℤ
  | .start => 0
  | .loop n | .slowWait n => n
  | .finish | .done => P.waits
  | .countSlow n | .load n | .exchange n _ | .fetchAdd n _ | .countFast n _ _ | .wokenUp n _ _
  | .emplace n _ _ => n + 1

@[simp] def counted (P : Params) : Sleeper → ℤ
  | .start => 0
  | .loop n | .slowWait n | .countSlow n | .fetchAdd n _ | .countFast n _ _ => n
  | .load n | .exchange n _ | .wokenUp n _ _ | .emplace n _ _ => n + 1
  | .finish | .done => P.waits

@[simp] def woken (P : Params) : Sleeper → ℤ
  | .start => 0
  | .loop n | .slowWait n | .countSlow n | .fetchAdd n _ | .countFast n _ _ | .load n
  | .exchange n _ | .wokenUp n _ _ => n
  | .emplace n _ _ => n + 1
  | .finish | .done => P.waits

/-- The sleeper still has to lower `delay_loop` for what is in `slow`. -/
@[simp] def owing : Sleeper → ℤ
  | .load _ | .exchange _ _ => 1
  | _ => 0

/-- The sleeper has raised `delay_loop` for what is not in `fast` yet. -/
@[simp] def ahead : Sleeper → ℤ
  | .countFast _ _ _ => 1
  | _ => 0

@[simp] def ended : Sleeper → ℤ
  | .done => 1
  | _ => 0

@[simp] def pushed (P : Params) : Sleeper → ℕ
  | .start => 0
  | .loop n | .slowWait n | .countSlow n | .fetchAdd n _ | .countFast n _ _ | .load n
  | .exchange n _ | .wokenUp n _ _ | .emplace n _ _ => n
  | .finish | .done => P.waits

/-- The turns are counted up to the bound of the loop, there is a point for each of them,
and no number of tokens that was read is above `most`. -/
structure Sound (P : Params) (most : ℕ) (x : Sleeper) (points : List (ℕ × ℕ)) : Prop where
  turns : match x with
    | .start | .finish | .done => True
    | .loop n => n ≤ P.waits
    | .slowWait n | .countSlow n | .load n | .exchange n _ => n < P.waits
    | .fetchAdd n tokens | .countFast n tokens _ | .wokenUp n tokens _ | .emplace n tokens _ =>
        n < P.waits ∧ tokens ≤ most
  length : points.length = x.pushed P
  points : ∀ p ∈ points, p.2 ≤ most

end Sleeper

namespace Trigger

@[simp] def posted (P : Params) : Trigger → ℤ
  | .start => 0
  | .check n | .post n => n
  | .delay n => n + 1
  | .done => P.posts

/-- The trigger has found few enough tokens, and is going to post. -/
@[simp] def ready : Trigger → ℤ
  | .post _ => 1
  | _ => 0

def Sound (P : Params) : Trigger → Prop
  | .start | .done => True
  | .check n => n ≤ P.posts
  | .post n | .delay n => n < P.posts

theorem ready_le_one (x : Trigger) : x.ready ≤ 1 := by cases x <;> simp [ready]

theorem ready_nonneg (x : Trigger) : 0 ≤ x.ready := by cases x <;> simp [ready]

theorem posted_le {P : Params} {x : Trigger} (hx : x.Sound P) : x.posted P ≤ P.posts := by
  cases x with
  | start => exact Int.natCast_nonneg _
  | check n =>
      simp only [posted, Sound, Nat.cast_le] at hx ⊢
      exact hx
  | post n =>
      simp only [posted, Sound] at hx ⊢
      omega
  | delay n =>
      simp only [posted, Sound] at hx ⊢
      omega
  | done => exact le_rfl

end Trigger

def mostTokens (P : Params) (τ : Type) [Fintype τ] : ℕ := 8 + P.postAmount * Fintype.card τ

variable [Fintype ι] [Fintype τ]

structure Inv (P : Params) (s : State M ι τ) : Prop where
  tokens : M.tokens s.sem + tally (Sleeper.taken P) s.sleeper =
    P.postAmount * tally (Trigger.posted P) s.trigger
  room : M.tokens s.sem + P.postAmount * tally Trigger.ready s.trigger ≤
    8 + P.postAmount * Fintype.card τ
  counted : (s.fast : ℤ) + s.slow = tally (Sleeper.counted P) s.sleeper
  woken : (s.wokenUpCount : ℤ) = tally (Sleeper.woken P) s.sleeper
  finished : (s.finishedSleepers : ℤ) = tally Sleeper.ended s.sleeper
  delayLow : s.fast + tally Sleeper.ahead s.sleeper ≤
    s.delayLoop + P.postAmount * (s.slow - tally Sleeper.owing s.sleeper)
  delayHigh : s.delayLoop ≤ s.fast + tally Sleeper.ahead s.sleeper
  sleepers : ∀ i, (s.sleeper i).Sound P (mostTokens P τ) (s.points i)
  triggers : ∀ t, (s.trigger t).Sound P

omit [DecidableEq ι] [DecidableEq τ] in
theorem inv_initial (P : Params) (failures : ℕ) : Inv P (initial failures : State M ι τ) where
  tokens := by
    have htaken : tally (Sleeper.taken P) (initial failures : State M ι τ).sleeper = 0 :=
      tally_const _ _ rfl
    have hposted : tally (Trigger.posted P) (initial failures : State M ι τ).trigger = 0 :=
      tally_const _ _ rfl
    rw [htaken, hposted, initial, M.tokens_empty]
    rfl
  room := by
    have hready : tally Trigger.ready (initial failures : State M ι τ).trigger = 0 :=
      tally_const _ _ rfl
    have hnonneg := Int.mul_nonneg (Int.natCast_nonneg P.postAmount) (Int.natCast_nonneg (Fintype.card τ))
    rw [hready, initial, M.tokens_empty, Int.mul_zero]
    omega
  counted := (tally_const _ _ rfl).symm
  woken := (tally_const _ _ rfl).symm
  finished := (tally_const _ _ rfl).symm
  delayLow := by
    have hahead : tally Sleeper.ahead (initial failures : State M ι τ).sleeper = 0 :=
      tally_const _ _ rfl
    have howing : tally Sleeper.owing (initial failures : State M ι τ).sleeper = 0 :=
      tally_const _ _ rfl
    rw [hahead, howing]
    simp [initial]
  delayHigh := by
    have hahead : tally Sleeper.ahead (initial failures : State M ι τ).sleeper = 0 :=
      tally_const _ _ rfl
    rw [hahead]
    rfl
  sleepers := fun _ => ⟨trivial, rfl, fun _ hp => absurd hp List.not_mem_nil⟩
  triggers := fun _ => trivial

section Steps
variable {P : Params} {s s' : State M ι τ}

omit [DecidableEq τ] in
theorem Inv.moveSleeper (h : Inv P s) {i : ι} {x y : Sleeper} (hx : s.sleeper i = x)
    (hsleeper : s'.sleeper = Function.update s.sleeper i y) (htrigger : s'.trigger = s.trigger)
    (hy : y.Sound P (mostTokens P τ) (s'.points i))
    (hpoints : ∀ k, k ≠ i → s'.points k = s.points k)
    (htokens : (M.tokens s'.sem : ℤ) + y.taken P = M.tokens s.sem + x.taken P)
    (htaken : x.taken P ≤ y.taken P)
    (hcounted : (s'.fast : ℤ) + s'.slow + x.counted P = s.fast + s.slow + y.counted P)
    (hwoken : (s'.wokenUpCount : ℤ) + x.woken P = s.wokenUpCount + y.woken P)
    (hfinished : (s'.finishedSleepers : ℤ) + x.ended = s.finishedSleepers + y.ended)
    (hlow : (s'.fast - s.fast : ℤ) + (y.ahead - x.ahead) ≤
      (s'.delayLoop - s.delayLoop : ℤ) + P.postAmount * ((s'.slow - s.slow) - (y.owing - x.owing)))
    (hhigh : (s'.delayLoop - s.delayLoop : ℤ) ≤ (s'.fast - s.fast) + (y.ahead - x.ahead)) :
    Inv P s' := by
  subst hx
  exact {
    tokens := by
      have htok := h.tokens
      rw [hsleeper, htrigger, tally_update]
      omega
    room := by
      have hroom := h.room
      rw [htrigger]
      omega
    counted := by
      have hcnt := h.counted
      rw [hsleeper, tally_update]
      omega
    woken := by
      have hwok := h.woken
      rw [hsleeper, tally_update]
      omega
    finished := by
      have hfin := h.finished
      rw [hsleeper, tally_update]
      omega
    delayLow := by
      have hdelay := h.delayLow
      rw [hsleeper, tally_update, tally_update]
      linarith
    delayHigh := by
      have hdelay := h.delayHigh
      rw [hsleeper, tally_update]
      omega
    sleepers := by
      intro k
      rw [hsleeper]
      by_cases hk : k = i
      · subst hk
        rwa [Function.update_self]
      · rw [Function.update_of_ne hk, hpoints k hk]
        exact h.sleepers k
    triggers := by
      rw [htrigger]
      exact h.triggers }

omit [DecidableEq ι] in
theorem Inv.moveTrigger (h : Inv P s) {t : τ} {x y : Trigger} (hx : s.trigger t = x)
    {w : M.Word} (hs' : s' = { s with sem := w }.setTrigger t y) (hy : y.Sound P)
    (htokens : (M.tokens w : ℤ) + P.postAmount * x.posted P = M.tokens s.sem + P.postAmount * y.posted P)
    (hroom : (M.tokens w : ℤ) + P.postAmount * (tally Trigger.ready s.trigger - x.ready + y.ready) ≤
      8 + P.postAmount * Fintype.card τ) : Inv P s' := by
  subst hx
  subst hs'
  exact {
    tokens := by
      have htok := h.tokens
      simp only [State.setTrigger, tally_update]
      linarith
    room := by
      simp only [State.setTrigger, tally_update]
      exact hroom
    counted := h.counted
    woken := h.woken
    finished := h.finished
    delayLow := h.delayLow
    delayHigh := h.delayHigh
    sleepers := h.sleepers
    triggers := forall_update hy h.triggers }

omit [DecidableEq ι] [DecidableEq τ] in
theorem Inv.tokens_le (h : Inv P s) : M.tokens s.sem ≤ mostTokens P τ := by
  have hroom := h.room
  have hready := Int.mul_nonneg (Int.natCast_nonneg P.postAmount)
    (tally_nonneg Trigger.ready_nonneg s.trigger)
  unfold mostTokens
  omega

section Sleeper
omit [DecidableEq τ]

theorem Inv.start (h : Inv P s) {i : ι} (hpc : s.sleeper i = .start)
    (hs : stepSleeper P s i = some s') : Inv P s' := by
  have hi := h.sleepers i
  rw [hpc] at hi
  simp only [stepSleeper, hpc] at hs
  split_ifs at hs
  cases hs
  refine h.moveSleeper hpc rfl rfl ⟨Nat.zero_le _, hi.length, hi.points⟩ (fun _ _ => rfl)
    ?_ ?_ ?_ ?_ ?_ ?_ ?_ <;> simp [State.setSleeper]

theorem Inv.loop (h : Inv P s) {i : ι} {n : ℕ} (hpc : s.sleeper i = .loop n)
    (hs : stepSleeper P s i = some s') : Inv P s' := by
  have hi := h.sleepers i
  rw [hpc] at hi
  simp only [stepSleeper, hpc] at hs
  split_ifs at hs with hn hzero
  · cases hs
    have hword := M.tokens_fastTryWait s.sem
    refine h.moveSleeper hpc rfl rfl ⟨hn, hi.length, hi.points⟩ (fun _ _ => rfl)
      ?_ ?_ ?_ ?_ ?_ ?_ ?_ <;> simp [State.setSleeper, hword, hzero]
  · cases hs
    have hword := M.tokens_fastTryWait s.sem
    refine h.moveSleeper hpc rfl rfl ⟨⟨hn, h.tokens_le⟩, hi.length, hi.points⟩ (fun _ _ => rfl)
      ?_ ?_ ?_ ?_ ?_ ?_ ?_ <;> simp [State.setSleeper, hword]
    omega
  · cases hs
    have hend : n = P.waits := le_antisymm hi.turns (not_lt.mp hn)
    subst hend
    refine h.moveSleeper hpc rfl rfl ⟨trivial, hi.length, hi.points⟩ (fun _ _ => rfl)
      ?_ ?_ ?_ ?_ ?_ ?_ ?_ <;> simp [State.setSleeper]

theorem Inv.slowWait (h : Inv P s) {i : ι} {n : ℕ} (hpc : s.sleeper i = .slowWait n)
    (hs : stepSleeper P s i = some s') : Inv P s' := by
  have hi := h.sleepers i
  rw [hpc] at hi
  simp only [stepSleeper, hpc, Option.map_eq_some_iff] at hs
  obtain ⟨word, hword, rfl⟩ := hs
  have htokens := M.tokens_slowWait hword
  refine h.moveSleeper hpc rfl rfl ⟨hi.turns, hi.length, hi.points⟩ (fun _ _ => rfl)
    ?_ ?_ ?_ ?_ ?_ ?_ ?_ <;> simp [State.setSleeper, ← htokens]
  omega

theorem Inv.countSlow (h : Inv P s) {i : ι} {n : ℕ} (hpc : s.sleeper i = .countSlow n)
    (hs : stepSleeper P s i = some s') : Inv P s' := by
  have hi := h.sleepers i
  rw [hpc] at hi
  simp only [stepSleeper, hpc, Option.some.injEq] at hs
  subst hs
  refine h.moveSleeper hpc rfl rfl ⟨hi.turns, hi.length, hi.points⟩ (fun _ _ => rfl)
    ?_ ?_ ?_ ?_ ?_ ?_ ?_ <;> simp [State.setSleeper]
  omega

theorem Inv.load (h : Inv P s) {i : ι} {n : ℕ} (hpc : s.sleeper i = .load n)
    (hs : stepSleeper P s i = some s') : Inv P s' := by
  have hi := h.sleepers i
  rw [hpc] at hi
  simp only [stepSleeper, hpc, Option.some.injEq] at hs
  subst hs
  refine h.moveSleeper hpc rfl rfl ⟨hi.turns, hi.length, hi.points⟩ (fun _ _ => rfl)
    ?_ ?_ ?_ ?_ ?_ ?_ ?_ <;> simp [State.setSleeper]

theorem Inv.exchange (h : Inv P s) {i : ι} {n dl : ℕ} (hpc : s.sleeper i = .exchange n dl)
    (hs : stepSleeper P s i = some s') : Inv P s' := by
  have hi := h.sleepers i
  rw [hpc] at hi
  simp only [stepSleeper, hpc] at hs
  split_ifs at hs with hge hsame
  · cases hs
    refine h.moveSleeper hpc rfl rfl ⟨⟨hi.turns, Nat.zero_le _⟩, hi.length, hi.points⟩
      (fun _ _ => rfl) ?_ ?_ ?_ ?_ ?_ ?_ ?_ <;> simp [State.setSleeper, hsame]
    omega
  · cases hs
    refine h.moveSleeper hpc rfl rfl ⟨hi.turns, hi.length, hi.points⟩ (fun _ _ => rfl)
      ?_ ?_ ?_ ?_ ?_ ?_ ?_ <;> simp [State.setSleeper]
  · cases hs
    refine h.moveSleeper hpc rfl rfl ⟨⟨hi.turns, Nat.zero_le _⟩, hi.length, hi.points⟩
      (fun _ _ => rfl) ?_ ?_ ?_ ?_ ?_ ?_ ?_ <;> simp [State.setSleeper]

theorem Inv.fetchAdd (h : Inv P s) {i : ι} {n tokens : ℕ} (hpc : s.sleeper i = .fetchAdd n tokens)
    (hs : stepSleeper P s i = some s') : Inv P s' := by
  have hi := h.sleepers i
  rw [hpc] at hi
  simp only [stepSleeper, hpc, Option.some.injEq] at hs
  subst hs
  refine h.moveSleeper hpc rfl rfl ⟨hi.turns, hi.length, hi.points⟩ (fun _ _ => rfl)
    ?_ ?_ ?_ ?_ ?_ ?_ ?_ <;> simp [State.setSleeper]

theorem Inv.countFast (h : Inv P s) {i : ι} {n tokens dl : ℕ} (hpc : s.sleeper i = .countFast n tokens dl)
    (hs : stepSleeper P s i = some s') : Inv P s' := by
  have hi := h.sleepers i
  rw [hpc] at hi
  simp only [stepSleeper, hpc, Option.some.injEq] at hs
  subst hs
  refine h.moveSleeper hpc rfl rfl ⟨hi.turns, hi.length, hi.points⟩ (fun _ _ => rfl)
    ?_ ?_ ?_ ?_ ?_ ?_ ?_ <;> simp [State.setSleeper]
  omega

theorem Inv.wokenUp (h : Inv P s) {i : ι} {n tokens dl : ℕ} (hpc : s.sleeper i = .wokenUp n tokens dl)
    (hs : stepSleeper P s i = some s') : Inv P s' := by
  have hi := h.sleepers i
  rw [hpc] at hi
  simp only [stepSleeper, hpc, Option.some.injEq] at hs
  subst hs
  refine h.moveSleeper hpc rfl rfl ⟨hi.turns, hi.length, hi.points⟩ (fun _ _ => rfl)
    ?_ ?_ ?_ ?_ ?_ ?_ ?_ <;> simp [State.setSleeper]
  omega

theorem Inv.emplace (h : Inv P s) {i : ι} {n tokens dl : ℕ} (hpc : s.sleeper i = .emplace n tokens dl)
    (hs : stepSleeper P s i = some s') : Inv P s' := by
  have hi := h.sleepers i
  rw [hpc] at hi
  obtain ⟨hn, hmost⟩ := hi.turns
  simp only [stepSleeper, hpc] at hs
  split_ifs at hs with hforty
  cases hs
  have hsound : (Sleeper.loop (n + 1)).Sound P (mostTokens P τ) (s.points i ++ [(dl, tokens)]) := by
    refine ⟨hn, ?_, ?_⟩
    · rw [List.length_append, hi.length]
      rfl
    · intro p hp
      rcases List.mem_append.mp hp with hp | hp
      · exact hi.points p hp
      · rw [List.mem_singleton.mp hp]
        exact hmost
  refine h.moveSleeper hpc rfl rfl ?_ ?_ ?_ ?_ ?_ ?_ ?_ ?_ ?_
  · simp only [State.setSleeper, Function.update_self]
    exact hsound
  · intro k hk
    simp only [State.setSleeper, Function.update_of_ne hk]
  all_goals simp [State.setSleeper]

theorem Inv.finish (h : Inv P s) {i : ι} (hpc : s.sleeper i = .finish)
    (hs : stepSleeper P s i = some s') : Inv P s' := by
  have hi := h.sleepers i
  rw [hpc] at hi
  simp only [stepSleeper, hpc, Option.some.injEq] at hs
  subst hs
  refine h.moveSleeper hpc rfl rfl ⟨trivial, hi.length, hi.points⟩ (fun _ _ => rfl)
    ?_ ?_ ?_ ?_ ?_ ?_ ?_ <;> simp [State.setSleeper]

theorem stepSleeper_inv (h : Inv P s) {i : ι} (hs : stepSleeper P s i = some s') : Inv P s' := by
  cases hpc : s.sleeper i with
  | start => exact h.start hpc hs
  | loop n => exact h.loop hpc hs
  | slowWait n => exact h.slowWait hpc hs
  | countSlow n => exact h.countSlow hpc hs
  | load n => exact h.load hpc hs
  | exchange n dl => exact h.exchange hpc hs
  | fetchAdd n tokens => exact h.fetchAdd hpc hs
  | countFast n tokens dl => exact h.countFast hpc hs
  | wokenUp n tokens dl => exact h.wokenUp hpc hs
  | emplace n tokens dl => exact h.emplace hpc hs
  | finish => exact h.finish hpc hs
  | done => simp [stepSleeper, hpc] at hs

end Sleeper

omit [DecidableEq ι] in
theorem stepTrigger_inv (h : Inv P s) {t : τ} (hs : stepTrigger P s t = some s') : Inv P s' := by
  have ht := h.triggers t
  have hroom := h.room
  cases hpc : s.trigger t with
  | start =>
      simp only [stepTrigger, hpc] at hs
      split_ifs at hs
      cases hs
      refine h.moveTrigger hpc (y := .check 0) (w := s.sem) rfl (Nat.zero_le _) rfl ?_
      simpa using hroom
  | check n =>
      rw [hpc] at ht
      simp only [stepTrigger, hpc] at hs
      split_ifs at hs with hn hmany
      · cases hs
        refine h.moveTrigger hpc (y := .post n) (w := s.sem) rfl hn rfl ?_
        -- There are at most as many threads about to post as there are triggers.
        have hcard : tally Trigger.ready (Function.update s.trigger t (.post n)) ≤ Fintype.card τ := by
          calc tally Trigger.ready (Function.update s.trigger t (.post n)) ≤ ∑ _u : τ, (1 : ℤ) :=
                Finset.sum_le_sum fun u _ => Trigger.ready_le_one _
            _ = Fintype.card τ := by simp
        rw [tally_update, hpc] at hcard
        have hprod := Int.mul_le_mul_of_nonneg_left hcard (Int.natCast_nonneg P.postAmount)
        omega
      · cases hs
        have hend : n = P.posts := le_antisymm ht (not_lt.mp hn)
        subst hend
        refine h.moveTrigger hpc (y := .done) (w := s.sem) rfl trivial rfl ?_
        simpa using hroom
  | post n =>
      rw [hpc] at ht
      simp only [stepTrigger, hpc, Option.some.injEq] at hs
      subst hs
      refine h.moveTrigger hpc (y := .delay n) rfl ht ?_ ?_
      · simp only [M.tokens_post, Trigger.posted]
        push_cast
        linarith
      · simp only [M.tokens_post, Trigger.ready]
        push_cast
        linarith
  | delay n =>
      rw [hpc] at ht
      simp only [stepTrigger, hpc, Option.some.injEq] at hs
      subst hs
      refine h.moveTrigger hpc (y := .check (n + 1)) (w := s.sem) rfl ht (by simp) ?_
      simpa using hroom
  | done => simp [stepTrigger, hpc] at hs

theorem step_inv (h : Inv P s) {a : Label ι τ} (hs : step P s a = some s') : Inv P s' := by
  cases a with
  | go =>
      simp only [step] at hs
      split_ifs at hs
      cases hs
      exact ⟨h.tokens, h.room, h.counted, h.woken, h.finished, h.delayLow, h.delayHigh, h.sleepers,
        h.triggers⟩
  | sleeper i => exact stepSleeper_inv h hs
  | failure i =>
      have hi := h.sleepers i
      simp only [step] at hs
      split at hs
      next n dl hpc =>
        rw [hpc] at hi
        split_ifs at hs
        cases hs
        refine h.moveSleeper hpc rfl rfl ⟨hi.turns, hi.length, hi.points⟩ (fun _ _ => rfl)
          ?_ ?_ ?_ ?_ ?_ ?_ ?_ <;> simp [State.setSleeper]
      next => cases hs
  | trigger t => exact stepTrigger_inv h hs

end Steps

end SpinWakeup
