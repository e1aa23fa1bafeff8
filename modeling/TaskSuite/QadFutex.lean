import TaskSuite.Machine
import TaskSuite.Tally

/-! The quick and dirty futex of `genmc_spinsemaphore_test.c`. A label is one
section that is protected by `qad_mutex`, or a change of `m_word` by others. The
counters are unbounded here; they never exceed the number of threads. -/
namespace QadFutex
open Machine Tally

/-- What the futex did, in the order of the critical sections. A call of
`futex_wait` is named by the place of its registration in this history. -/
inductive Event where
  /-- `futex_wait` found the expected word -/
  | registered
  /-- `futex_wait` returned -1 -/
  | refused
  /-- the `futex_wait` that registered as `call` returned 0 -/
  | returned (call : ℕ)
  /-- `futex_wake` returned `wokenUp` -/
  | woke (wokenUp : ℕ)
  deriving DecidableEq, Repr

/-- Where a thread is: outside of `futex_wait`, or in its sleeping loop. -/
inductive Phase where
  | outside
  | sleeping (call : ℕ)
  deriving DecidableEq, Repr

structure State (ι : Type*) where
  word : UInt64
  ntokens : ℕ
  nwaiters : ℤ
  phase : ι → Phase
  history : List Event

variable {ι : Type*}

def initial (word : UInt64) : State ι := ⟨word, 0, 0, fun _ => .outside, []⟩

def futexWokeBit : UInt64 := 0x10000000000

inductive Label (ι : Type*) where
  /-- The first section of `futex_wait(expected)`. -/
  | wait (i : ι) (expected : UInt32)
  /-- One round of the sleeping loop of `futex_wait`. -/
  | poll (i : ι)
  /-- `futex_wake(n_threads)` -/
  | wake (nThreads : UInt32)
  /-- `m_word` is changed by someone else. -/
  | store (word : UInt64)

/-- `none` when the label does not fit the phase of the thread, and when the
assertion of `futex_wake` fails. -/
def step [DecidableEq ι] (σ : State ι) : Label ι → Option (State ι)
  | .wait i expected =>
      match σ.phase i with
      | .sleeping _ => none
      | .outside =>
          if σ.word.toUInt32 = expected then
            some { σ with nwaiters := σ.nwaiters + 1
                          phase := Function.update σ.phase i (.sleeping σ.history.length)
                          history := σ.history ++ [.registered] }
          else some { σ with history := σ.history ++ [.refused] }
  | .poll i =>
      match σ.phase i with
      | .outside => none
      | .sleeping call =>
          if 0 < σ.ntokens then
            some { word := σ.word + futexWokeBit
                   ntokens := σ.ntokens - 1
                   nwaiters := σ.nwaiters - 1
                   phase := Function.update σ.phase i .outside
                   history := σ.history ++ [.returned call] }
          else some σ
  | .wake nThreads =>
      if σ.ntokens ≤ σ.nwaiters then
        let actualWaiters := (σ.nwaiters - σ.ntokens).toNat
        let wokenUp := if nThreads.toNat ≤ actualWaiters then nThreads.toNat else actualWaiters
        some { σ with ntokens := σ.ntokens + wokenUp, history := σ.history ++ [.woke wokenUp] }
      else none
  | .store word => some { σ with word }

/-! ### What a history says -/

def Event.call? : Event → Option ℕ
  | .returned call => some call
  | _ => none

def Event.wokenUp : Event → ℕ
  | .woke n => n
  | _ => 0

def returnedCalls (history : List Event) : List ℕ := history.filterMap Event.call?

def wokenUp (history : List Event) : ℕ := (history.map Event.wokenUp).sum

section History
variable {h : List Event} {c n : ℕ}

@[simp] theorem returnedCalls_nil : returnedCalls [] = [] := rfl

@[simp] theorem returnedCalls_append (h k : List Event) :
    returnedCalls (h ++ k) = returnedCalls h ++ returnedCalls k := List.filterMap_append

@[simp] theorem returnedCalls_registered : returnedCalls [.registered] = [] := rfl

@[simp] theorem returnedCalls_refused : returnedCalls [.refused] = [] := rfl

@[simp] theorem returnedCalls_returned : returnedCalls [.returned c] = [c] := rfl

@[simp] theorem returnedCalls_woke : returnedCalls [.woke n] = [] := rfl

@[simp] theorem wokenUp_nil : wokenUp [] = 0 := rfl

@[simp] theorem wokenUp_append (h k : List Event) : wokenUp (h ++ k) = wokenUp h + wokenUp k := by
  simp [wokenUp]

@[simp] theorem wokenUp_singleton (e : Event) : wokenUp [e] = e.wokenUp := by
  simp [wokenUp]

end History

/-! ### The counters -/

def Phase.asleep : Phase → Bool
  | .outside => false
  | .sleeping _ => true

def Phase.inLoop (x : Phase) : ℤ := if x.asleep then 1 else 0

variable [Fintype ι]

structure Counts (σ : State ι) : Prop where
  tokens : σ.ntokens ≤ σ.nwaiters
  waiters : σ.nwaiters = tally Phase.inLoop σ.phase
  balance : (returnedCalls σ.history).length + σ.ntokens = wokenUp σ.history

theorem counts_initial (word : UInt64) : Counts (initial word : State ι) where
  tokens := le_rfl
  waiters := (tally_const _ _ rfl).symm
  balance := rfl

variable [DecidableEq ι]

theorem step_counts {σ τ : State ι} {a : Label ι} (h : Counts σ) (hs : step σ a = some τ) :
    Counts τ := by
  obtain ⟨htokens, hwaiters, hbalance⟩ := h
  cases a with
  | wait i expected =>
      cases hphase : σ.phase i with
      | sleeping c => simp [step, hphase] at hs
      | outside =>
          simp only [step, hphase] at hs
          split_ifs at hs with hword
          · cases hs
            refine ⟨?_, ?_, ?_⟩
            · simp only
              omega
            · rw [tally_update, hphase, hwaiters]
              simp [Phase.inLoop, Phase.asleep]
            · simpa [Event.wokenUp] using hbalance
          · cases hs
            exact ⟨htokens, hwaiters, by simpa [Event.wokenUp] using hbalance⟩
  | poll i =>
      cases hphase : σ.phase i with
      | outside => simp [step, hphase] at hs
      | sleeping c =>
          simp only [step, hphase] at hs
          split_ifs at hs with hpos
          · obtain rfl := Option.some.inj hs
            refine ⟨?_, ?_, ?_⟩
            · simp only
              omega
            · rw [tally_update, hphase, hwaiters]
              simp [Phase.inLoop, Phase.asleep]
            · simp [Event.wokenUp]
              omega
          · cases hs
            exact ⟨htokens, hwaiters, hbalance⟩
  | wake n =>
      simp only [step, htokens, if_true] at hs
      cases hs
      refine ⟨?_, hwaiters, ?_⟩
      · simp only
        split_ifs <;> omega
      · simp only [returnedCalls_append, returnedCalls_woke, List.append_nil, wokenUp_append,
          wokenUp_singleton, Event.wokenUp]
        omega
  | store word =>
      cases hs
      exact ⟨htokens, hwaiters, hbalance⟩

theorem run_counts {word : UInt64} {as : List (Label ι)} {σ : State ι}
    (hr : run step (initial word) as = some σ) : Counts σ :=
  invariant (fun _ _ _ h hs => step_counts h hs) (counts_initial word) hr

/-- The counters of the futex, in any run of any number of threads: tokens are
only handed out to waiters, so that the assertion of `futex_wake` holds, the
waiters are the threads in the sleeping loop, and each token that is not there
any more has let one call of `futex_wait` return. -/
theorem tokens_conserved {word : UInt64} {as : List (Label ι)} {σ : State ι}
    (hr : run step (initial word) as = some σ) :
    (0 ≤ σ.ntokens ∧ (σ.ntokens : ℤ) ≤ σ.nwaiters) ∧
    (∀ nThreads, (step σ (.wake nThreads)).isSome) ∧
    σ.nwaiters = (Finset.univ.filter fun i => (σ.phase i).asleep).card ∧
    ((returnedCalls σ.history).length : ℤ) = wokenUp σ.history - σ.ntokens := by
  obtain ⟨htokens, hwaiters, hbalance⟩ := run_counts hr
  refine ⟨⟨Nat.zero_le _, htokens⟩, fun n => ?_, ?_, by omega⟩
  · simp [step, htokens]
  · rw [hwaiters]
    exact tally_ite Phase.asleep σ.phase

/-- Two waiters, a wake of one of them, and the second waiter takes the token. -/
theorem tokens_conserved_two_waiters :
    ∃ σ, run step (initial 7 : State (Fin 2)) [.wait 0 7, .wait 1 7, .wake 1, .poll 1] = some σ ∧
      (returnedCalls σ.history).length = 1 ∧ wokenUp σ.history = 1 ∧ σ.ntokens = 0 ∧
      σ.nwaiters = (Finset.univ.filter fun i => (σ.phase i).asleep).card := by
  have hr : run step (initial 7 : State (Fin 2)) [.wait 0 7, .wait 1 7, .wake 1, .poll 1] =
    some _ := rfl
  exact ⟨_, hr, rfl, rfl, rfl, (tokens_conserved hr).2.2.1⟩

end QadFutex
