import TaskSuite.RewriteHeaderComment
import TaskSuite.RewriteHeaderMain

/-! What `main` in `rewrite_header.cxx` does to the files that it is given, all of them
together: which files are different afterwards, what is in them, and how far it came when it
returns 1. -/
namespace RewriteHeader.Main
open Machine

variable (process : List Line → List Line × Bool)

/-- The bytes that take the place of `content`. -/
def rewritten (content : Bytes) : Bytes :=
  if (process (getlines content)).2 then outputBytes (process (getlines content)).1 else content

def rewriteFile (disk : Disk) (path : Path) : Disk :=
  match disk path with
  | none => disk
  | some content =>
      if (process (getlines content)).2 then
        Function.update (Function.update disk path (some (rewritten process content))) (newPath path) none
      else disk

def rewriteFiles (disk : Disk) (paths : List Path) : Disk := paths.foldl (rewriteFile process) disk

/-- No file is named twice, and none has the name of the temporary file of another. -/
structure Separate (paths : List Path) : Prop where
  nodup : paths.Nodup
  apart : ∀ p ∈ paths, ∀ q ∈ paths, p ≠ newPath q

variable {process} {s s' : State} {job : Path × Environment} {jobs : List (Path × Environment)}
  {disk : Disk} {paths : List Path}

/-! ### One file -/

theorem newLines_eq_some {path : Path} {env : Environment} {lines : List Line}
    (h : newLines process s path env = some lines) : ∃ content, s.disk path = some content ∧
      process (getlines content) = (lines, true) := by
  unfold newLines at h
  split at h
  next => cases h
  next content hcontent =>
    dsimp only at h
    split_ifs at h with hopen hchange
    refine ⟨content, hcontent, ?_⟩
    rw [← Option.some.inj h, ← hchange]

theorem newLines_eq_none {path : Path} {env : Environment} {content : Bytes}
    (h : newLines process s path env = none) (hopen : env.opensInput = true)
    (hcontent : s.disk path = some content) : (process (getlines content)).2 = false := by
  simpa [newLines, hcontent, hopen] using h

/-- A round of the loop that throws leaves all files alone but the temporary one. -/
theorem step_thrown (hs : step process s job = some s') (hthrown : s'.thrown = true) {p : Path}
    (hp : p ≠ newPath job.1) : s'.disk p = s.disk p := by
  unfold step at hs
  split_ifs at hs
  cases hlines : newLines process s job.1 job.2 with
  | none =>
      rw [hlines] at hs
      cases Option.some.inj hs
      rfl
  | some lines =>
      rw [hlines] at hs
      cases Option.some.inj hs
      unfold State.update at hthrown ⊢
      split at hthrown
      next hopen =>
        rw [if_pos hopen]
        rfl
      next hopen =>
        rw [if_neg hopen]
        split at hthrown
        next file hwrite => exact Function.update_of_ne hp _ _
        next file hwrite =>
          split at hthrown
          next hren =>
            dsimp only
            rw [if_pos hren]
            exact Function.update_of_ne hp _ _
          next hren => cases hthrown

/-- A round that does not throw has rewritten its file, if nothing was lost when the
temporary file was closed. -/
theorem step_rewrites (hs : step process s job = some s') (hclose : CloseStores process s job)
    (hthrown : s'.thrown = false) :
    s'.disk = rewriteFile process s.disk job.1 := by
  unfold step at hs
  split_ifs at hs with hbefore
  have hnot : s.thrown = false := by simpa using hbefore
  cases hlines : newLines process s job.1 job.2 with
  | none =>
      rw [hlines] at hs
      cases Option.some.inj hs
      simp only [Bool.or_eq_false_iff, Bool.not_eq_false', Option.isNone_eq_false_iff] at hthrown
      obtain ⟨hopen, hsome⟩ := hthrown
      obtain ⟨content, hcontent⟩ := Option.isSome_iff_exists.mp hsome
      have hsame := newLines_eq_none hlines hopen hcontent
      unfold rewriteFile
      simp only [hcontent, hsame, Bool.false_eq_true, if_false]
  | some lines =>
      rw [hlines] at hs
      cases Option.some.inj hs
      obtain ⟨content, hcontent, hprocess⟩ := newLines_eq_some hlines
      unfold State.update at hthrown ⊢
      split at hthrown
      next hopen => cases hthrown
      next hopen =>
        rw [if_neg hopen]
        split at hthrown
        next file hwrite => cases hthrown
        next file hwrite =>
          split at hthrown
          next hren => cases hthrown
          next hren =>
            have hroom := hclose hnot lines file hlines (by simpa using hopen) (by simpa using hren) hwrite
            dsimp only
            rw [if_neg hren, (close_eq_output hwrite).mpr hroom]
            unfold rewriteFile rewritten
            simp only [hcontent, hprocess, if_true]
            funext p
            by_cases hnew : p = newPath job.1
            · subst hnew
              simp [State.finish]
            · by_cases hp : p = job.1
              · subst hp
                simp [State.finish, hnew]
              · simp [State.finish, hnew, hp]

/-! ### All files -/

theorem run_eq_nil_of_thrown (hthrown : s.thrown = true) (hrun : run (step process) s jobs = some s') :
    jobs = [] ∧ s' = s := by
  cases jobs with
  | nil => exact ⟨rfl, (Option.some.inj hrun).symm⟩
  | cons job jobs =>
      obtain ⟨t, ht, -⟩ := run_cons.mp hrun
      simp [step, hthrown] at ht

theorem run_rewrites (hnot : s.thrown = false) (hclose : Along (step process) (CloseStores process) s jobs)
    (hrun : run (step process) s jobs = some s') :
    (s'.thrown = false → s'.disk = rewriteFiles process s.disk (jobs.map Prod.fst)) ∧
      (s'.thrown = true → ∃ front job, jobs = front ++ [job] ∧ ∀ p, p ≠ newPath job.1 →
        s'.disk p = rewriteFiles process s.disk (front.map Prod.fst) p) := by
  induction jobs generalizing s with
  | nil =>
      cases Option.some.inj hrun
      refine ⟨fun _ => rfl, ?_⟩
      intro hthrown
      rw [hnot] at hthrown
      cases hthrown
  | cons job jobs ih =>
      obtain ⟨t, ht, hrest⟩ := run_cons.mp hrun
      cases hthrown : t.thrown with
      | true =>
          obtain ⟨rfl, rfl⟩ := run_eq_nil_of_thrown hthrown hrest
          constructor
          · intro hfalse
            rw [hthrown] at hfalse
            cases hfalse
          · intro _
            exact ⟨[], job, rfl, fun p hp => step_thrown ht hthrown hp⟩
      | false =>
          have hfirst := step_rewrites ht hclose.1 hthrown
          obtain ⟨hok, hfailed⟩ := ih hthrown (hclose.2 t ht) hrest
          rw [hfirst] at hok hfailed
          refine ⟨hok, ?_⟩
          intro hthrown'
          obtain ⟨front, last, rfl, hdisk⟩ := hfailed hthrown'
          exact ⟨job :: front, last, rfl, hdisk⟩

theorem main_rewrites (hclose : Along (step process) (CloseStores process) (initial disk) jobs)
    (hrun : run (step process) (initial disk) jobs = some s) :
    (s.result = 0 → s.disk = rewriteFiles process disk (jobs.map Prod.fst)) ∧
      (s.result = 1 → ∃ front job, jobs = front ++ [job] ∧ ∀ p, p ≠ newPath job.1 →
        s.disk p = rewriteFiles process disk (front.map Prod.fst) p) := by
  obtain ⟨hok, hfailed⟩ := run_rewrites (s := initial disk) rfl hclose hrun
  unfold State.result
  cases hthrown : s.thrown with
  | false => exact ⟨fun _ => hok hthrown, fun hone => absurd hone (by decide)⟩
  | true => exact ⟨fun hzero => absurd hzero (by decide), fun _ => hfailed hthrown⟩

/-! ### File by file -/

section Separate
variable {p : Path}

/-- A file that is neither an input file nor one of the temporary ones. -/
theorem rewriteFiles_of_other (hp : ∀ q ∈ paths, p ≠ q ∧ p ≠ newPath q) :
    rewriteFiles process disk paths p = disk p := by
  induction paths generalizing disk with
  | nil => rfl
  | cons q paths ih =>
      obtain ⟨hq, hnew⟩ := hp q List.mem_cons_self
      have hrest : rewriteFiles process (rewriteFile process disk q) paths p =
          rewriteFile process disk q p := by
        apply ih
        intro r hr
        exact hp r (List.mem_cons_of_mem q hr)
      rw [rewriteFiles, List.foldl_cons]
      refine hrest.trans ?_
      unfold rewriteFile
      cases hcontent : disk q with
      | none => rfl
      | some content =>
          dsimp only
          split_ifs
          · rw [Function.update_of_ne hnew, Function.update_of_ne hq]
          · rfl

theorem rewriteFile_self (disk : Disk) (path : Path) :
    rewriteFile process disk path path = (disk path).map (rewritten process) := by
  unfold rewriteFile
  cases hcontent : disk path with
  | none => exact hcontent
  | some content =>
      dsimp only
      rw [Option.map_some]
      split_ifs with hchange
      · rw [Function.update_of_ne (newPath_ne path), Function.update_self]
      · rw [hcontent, rewritten, if_neg hchange]

/-- Each input file has the new content; the other input files did not come into it. -/
theorem rewriteFiles_of_mem (hs : Separate paths) (hp : p ∈ paths) :
    rewriteFiles process disk paths p = (disk p).map (rewritten process) := by
  obtain ⟨front, rest, rfl⟩ := List.append_of_mem hp
  have hnodup := hs.nodup
  rw [List.nodup_append] at hnodup
  obtain ⟨-, hrest, hdisjoint⟩ := hnodup
  rw [List.nodup_cons] at hrest
  have hapart : ∀ q ∈ front ++ p :: rest, p ≠ newPath q := fun q hq => hs.apart p hp q hq
  have hbefore : rewriteFiles process disk front p = disk p := by
    apply rewriteFiles_of_other
    intro q hq
    refine ⟨?_, hapart q (List.mem_append_left _ hq)⟩
    rintro rfl
    exact hdisjoint p hq p List.mem_cons_self rfl
  have hafter : rewriteFiles process disk (front ++ p :: rest) p =
      rewriteFile process (rewriteFiles process disk front) p p := by
    rw [rewriteFiles, List.foldl_append, List.foldl_cons]
    apply rewriteFiles_of_other
    intro q hq
    refine ⟨?_, hapart q (List.mem_append_right _ (List.mem_cons_of_mem p hq))⟩
    rintro rfl
    exact hrest.1 hq
  rw [hafter, rewriteFile_self, hbefore]

theorem Separate.front {rest : List Path} (hs : Separate (paths ++ rest)) : Separate paths where
  nodup := (List.nodup_append.mp hs.nodup).1
  apart := fun p hp q hq => hs.apart p (List.mem_append_left _ hp) q (List.mem_append_left _ hq)

end Separate

/-- What `main` has done to the disk when it returns 0: the input files are rewritten, and
nothing else has changed. -/
def AllRewritten (process : List Line → List Line × Bool) (paths : List Path) (disk disk' : Disk) : Prop :=
  (∀ p ∈ paths, disk' p = (disk p).map (rewritten process)) ∧
    ∀ p, (∀ q ∈ paths, p ≠ q ∧ p ≠ newPath q) → disk' p = disk p

theorem allRewritten_rewriteFiles (hs : Separate paths) :
    AllRewritten process paths disk (rewriteFiles process disk paths) :=
  ⟨fun _ hp => rewriteFiles_of_mem hs hp, fun _ hp => rewriteFiles_of_other hp⟩

section Example

theorem closeStores_of_le {path : Path} {env : Environment} {content : Bytes}
    (hcontent : s.disk path = some content) {file : Stream}
    (hfile : writeLines env.flushes 0 (process (getlines content)).1 .empty = .ok file)
    (hroom : file.pending.length ≤ env.closeRoom) : CloseStores process s (path, env) := by
  intro _ lines file' hlines _ _ hwrite
  obtain ⟨content', hcontent', hprocess⟩ := newLines_eq_some hlines
  rw [hcontent] at hcontent'
  cases hcontent'
  rw [hprocess, hwrite] at hfile
  cases hfile
  exact hroom

def addFirstLine (lines : List Line) : List Line × Bool :=
  if lines.head? = some "//".toList then (lines, false) else ("//".toList :: lines, true)

def twoFiles : Disk := fun p =>
  if p = "a".toList then some "x\n".toList else if p = "b".toList then some "//\ny".toList else none

def allWorks : Environment := ⟨true, true, fun _ => none, 100, true⟩

def twoJobs : List (Path × Environment) := [("a".toList, allWorks), ("b".toList, allWorks)]

theorem twoJobs_closeStores :
    Along (step addFirstLine) (CloseStores addFirstLine) (initial twoFiles) twoJobs := by
  refine ⟨closeStores_of_le rfl rfl (by decide), ?_⟩
  intro t ht
  cases ht
  exact ⟨closeStores_of_le rfl rfl (by decide), fun _ _ => trivial⟩

end Example

end RewriteHeader.Main
