import TaskSuite.RewriteHeaderFiles
import TaskSuite.RewriteHeaderTwice

/-! What a second run of `rewrite_header` does to the files that a first one has rewritten. -/
namespace RewriteHeader.Main
open Machine

section Settled
variable (process : List Line → List Line × Bool)

/-- What is written for the file is not going to be changed by another run. -/
def Settled (content : Bytes) : Prop :=
  (process (getlines content)).2 = true →
    (process (process (getlines content)).1).2 = false ∧
      ∀ l ∈ (process (getlines content)).1, '\n' ∉ l

variable {process} {s s' : State} {job : Path × Environment} {jobs : List (Path × Environment)}

/-- The lines that were written are the ones that are read again. -/
theorem getlines_outputBytes {lines : List Line} (h : ∀ l ∈ lines, '\n' ∉ l) :
    getlines (outputBytes lines) = lines := by
  induction lines with
  | nil => rfl
  | cons l lines ih =>
      have hfirst : outputBytes (l :: lines) = l ++ '\n' :: outputBytes lines := by
        simp [outputBytes]
      rw [hfirst, getlines_line (h l List.mem_cons_self), ih fun m hm => h m (List.mem_cons_of_mem l hm)]

theorem Settled.unchanged {content : Bytes} (h : Settled process content) :
    (process (getlines (rewritten process content))).2 = false := by
  unfold rewritten
  cases hchange : (process (getlines content)).2 with
  | false =>
      rw [if_neg Bool.false_ne_true]
      exact hchange
  | true =>
      obtain ⟨hagain, hlines⟩ := h hchange
      rw [if_pos rfl, getlines_outputBytes hlines]
      exact hagain

theorem step_unchanged (hs : step process s job = some s')
    (hsame : ∀ content, s.disk job.1 = some content → (process (getlines content)).2 = false) :
    s'.disk = s.disk := by
  unfold step at hs
  split_ifs at hs
  cases hlines : newLines process s job.1 job.2 with
  | none =>
      rw [hlines] at hs
      cases Option.some.inj hs
      rfl
  | some lines =>
      obtain ⟨content, hcontent, hprocess⟩ := newLines_eq_some hlines
      have hfalse := hsame content hcontent
      rw [hprocess] at hfalse
      cases hfalse

theorem run_unchanged (hrun : run (step process) s jobs = some s')
    (hsame : ∀ p ∈ jobs.map Prod.fst, ∀ content, s.disk p = some content →
      (process (getlines content)).2 = false) : s'.disk = s.disk := by
  induction jobs generalizing s with
  | nil =>
      cases Option.some.inj hrun
      rfl
  | cons job jobs ih =>
      obtain ⟨t, ht, hrest⟩ := run_cons.mp hrun
      have hfirst := step_unchanged ht (hsame job.1 List.mem_cons_self)
      rw [ih hrest, hfirst]
      intro p hp
      rw [hfirst]
      exact hsame p (List.mem_cons_of_mem job.1 hp)

end Settled

/-! ### The header that is read again -/

/-- `process` as `main` calls it. There is no saying what it does to a file on which it
reads past the last line. -/
def processFile (options : Options) (currentYear : ℕ) (lines : List Line) : List Line × Bool :=
  (process options currentYear lines).getD (lines, false)

def CanBeReread (options : Options) (currentYear : ℕ) (content : Bytes) : Prop :=
  ∃ readings left, Front .before (getlines content) readings left ∧ Rereadable options currentYear readings

theorem newline_notMem_getlines {s : List Char} {l : Line} (hl : l ∈ getlines s) : '\n' ∉ l := by
  induction s generalizing l with
  | nil => cases hl
  | cons x s ih =>
      simp only [getlines] at hl
      split_ifs at hl with hx
      · rcases List.mem_cons.mp hl with rfl | hrest
        · exact List.not_mem_nil
        · exact ih hrest
      · split at hl
        next =>
          rw [List.mem_singleton.mp hl, List.mem_singleton]
          exact Ne.symm hx
        next first rest hlines =>
          rw [hlines] at ih
          rcases List.mem_cons.mp hl with rfl | hrest
          · rw [List.mem_cons, not_or]
            exact ⟨Ne.symm hx, ih List.mem_cons_self⟩
          · exact ih (List.mem_cons_of_mem first hrest)

theorem newline_notMem_output {options : Options} {currentYear : ℕ} {content : Bytes} {out : List Line}
    {changed : Bool} (h : process options currentYear (getlines content) = some (out, changed)) :
    ∀ l ∈ out, '\n' ∉ l := by
  obtain ⟨⟨left, found⟩, hcollect, hout⟩ := Option.map_eq_some_iff.mp h
  obtain rfl : headerLines (found.canonicalize currentYear) ++ skipEmptyLines left = out :=
    congrArg Prod.fst hout
  intro l hl
  rcases List.mem_append.mp hl with hheader | hbody
  · exact newline_notMem_getlines hheader
  · have hleft : skipEmptyLines left <:+ getlines content :=
      (List.dropWhile_suffix _).trans (scanComments_suffix hcollect)
    exact newline_notMem_getlines (hleft.subset hbody)

theorem CanBeReread.settled {options : Options} {currentYear : ℕ} {content : Bytes}
    (h : CanBeReread options currentYear content) : Settled (processFile options currentYear) content := by
  obtain ⟨readings, left, hfront, hr⟩ := h
  obtain ⟨out, changed, hfirst, hsecond⟩ := process_twice hfront hr
  have hout : processFile options currentYear (getlines content) = (out, changed) := by
    rw [processFile, hfirst, Option.getD_some]
  intro _
  rw [hout, processFile, hsecond]
  exact ⟨rfl, newline_notMem_output hfirst⟩

section Example

def anyName : Options := ⟨"foo".toList, "bar".toList⟩

def statedFile : Bytes := "// Copyright 2020 Carlo Wood\n// free software www.gnu.org\nint x;\n".toList

def oneFile : Disk := fun p => if p = "a".toList then some statedFile else none

def oneJob : List (Path × Environment) := [("a".toList, ⟨true, true, fun _ => none, 1000, true⟩)]

theorem statedFile_canBeReread : CanBeReread anyName 2024 statedFile := by
  have hlines : getlines statedFile = shortFile := by decide +kernel
  rw [CanBeReread, hlines]
  exact ⟨[shortReading], _, front_shortFile, rereadable_shortFile⟩

theorem oneJob_closeStores :
    Along (step (processFile anyName 2024)) (CloseStores (processFile anyName 2024)) (initial oneFile)
      oneJob := by
  refine ⟨?_, fun _ _ => trivial⟩
  have hroom : (match writeLines (fun _ => none) 0 (processFile anyName 2024 (getlines statedFile)).1 .empty with
      | .ok file => decide (file.pending.length ≤ 1000)
      | .error _ => false) = true := by
    decide +kernel
  split at hroom
  next file hfile => exact closeStores_of_le rfl hfile (of_decide_eq_true hroom)
  next => cases hroom

end Example

end RewriteHeader.Main
