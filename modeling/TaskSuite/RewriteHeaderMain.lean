import TaskSuite.Machine
import TaskSuite.RewriteHeader

/-! The rewrite loop of `main` in `rewrite_header.cxx`: the new lines go to a
`.new` file through a buffered `std::ofstream`, and that file then takes the
place of the original. What the file system does is a choice of the environment. -/
namespace RewriteHeader.Main
open Machine

abbrev Bytes := List Char

abbrev Path := List Char

/-- A write that the buffer makes: it offers the first `count` bytes that are
pending, and the file takes at most `room` of them. -/
structure Flush where
  count : Nat
  room : Nat

/-- A `std::ofstream`, with what has reached the file. -/
structure Stream where
  stored : Bytes
  pending : Bytes
  bad : Bool

namespace Stream

def empty : Stream := ⟨[], [], false⟩

def flush (s : Stream) (f : Flush) : Stream where
  stored := s.stored ++ s.pending.take (min f.count f.room)
  pending := s.pending.drop (min f.count f.room)
  bad := s.bad || decide (f.room < min f.count s.pending.length)

def insert (s : Stream) (data : Bytes) (f : Option Flush) : Stream :=
  if s.bad then s
  else
    let s' := { s with pending := s.pending ++ data }
    match f with
    | none => s'
    | some f => s'.flush f

/-- The destructor flushes the rest and ignores errors. -/
def close (s : Stream) (room : Nat) : Bytes := (s.flush ⟨s.pending.length, room⟩).stored

end Stream

/-- `write` on each of the lines. The two insertions that `write` makes for line
`i` are numbered `2 * i` and `2 * i + 1`. -/
def writeLines (flushes : Nat → Option Flush) : Nat → List Line → Stream → Except Stream Stream
  | _, [], s => .ok s
  | i, line :: lines, s =>
      let s' := (s.insert line (flushes (2 * i))).insert ['\n'] (flushes (2 * i + 1))
      if s'.bad then .error s' else writeLines flushes (i + 1) lines s'

/-- What happens to the files while one of them is rewritten. -/
structure Environment where
  opensInput : Bool
  opensOutput : Bool
  flushes : Nat → Option Flush
  closeRoom : Nat
  renames : Bool

abbrev Disk := Path → Option Bytes

/-- The account of one update of a file: the bytes of all output lines, what the
`.new` file has got of them, and the original file before and after. -/
structure Report where
  output : Bytes
  stored : Bytes
  before : Option Bytes
  after : Option Bytes
  replaced : Bool

/-- `thrown` is set by an exception, which ends the loop. -/
structure State where
  disk : Disk
  reports : List Report
  thrown : Bool

def initial (disk : Disk) : State := ⟨disk, [], false⟩

def State.result (s : State) : Nat := if s.thrown then 1 else 0

def newPath (path : Path) : Path := path ++ ".new".toList

def outputBytes (lines : List Line) : Bytes := lines.flatMap (· ++ ['\n'])

/-- The files after an update that replaces the original, or fails to. -/
def State.finish (s : State) (path : Path) (lines : List Line) (stored : Bytes) (disk : Disk)
    (replaced : Bool) : State where
  disk := disk
  reports := s.reports ++ [⟨outputBytes lines, stored, s.disk path, disk path, replaced⟩]
  thrown := !replaced

def State.update (s : State) (path : Path) (lines : List Line) (env : Environment) : State :=
  if !env.opensOutput then s.finish path lines [] s.disk false
  else
    match writeLines env.flushes 0 lines .empty with
    | .error file =>
        let stored := file.close env.closeRoom
        s.finish path lines stored (Function.update s.disk (newPath path) (some stored)) false
    | .ok file =>
        let stored := file.close env.closeRoom
        let disk := Function.update s.disk (newPath path) (some stored)
        if !env.renames then s.finish path lines stored disk false
        else
          s.finish path lines stored
            (Function.update (Function.update disk path (some stored)) (newPath path) none) true

section Loop
variable (process : List Line → List Line × Bool)

/-- What `process` makes of a file that can be read, if that is a change. -/
def newLines (s : State) (path : Path) (env : Environment) : Option (List Line) :=
  match s.disk path with
  | none => none
  | some content =>
      if env.opensInput then
        let lines := process (getlines content)
        if lines.2 then some lines.1 else none
      else none

/-- One round of the loop over the input files. -/
def step (s : State) (job : Path × Environment) : Option State :=
  if s.thrown then none
  else
    match newLines process s job.1 job.2 with
    | some lines => some (s.update job.1 lines job.2)
    | none => some { s with thrown := !job.2.opensInput || (s.disk job.1).isNone }

end Loop

/-- Every original was replaced only by all of its output, and was otherwise left
alone, in which case `main` returns 1. -/
def FailureAtomic (s : State) : Prop :=
  ∀ r ∈ s.reports, (r.replaced = true → r.stored = r.output ∧ r.after = some r.output) ∧
    (r.replaced = false → r.after = r.before ∧ s.result = 1)

/-- Unless the update fails before, the destructor of the stream finds room for
all that is still in the buffer. -/
def CloseStores (process : List Line → List Line × Bool) (s : State) (job : Path × Environment) :
    Prop :=
  s.thrown = false → ∀ lines file, newLines process s job.1 job.2 = some lines →
    job.2.opensOutput = true → job.2.renames = true →
    writeLines job.2.flushes 0 lines .empty = .ok file → file.pending.length ≤ job.2.closeRoom

section Stream
variable {s s' : Stream} {data : Bytes} {f : Option Flush}

theorem Stream.insert_ok (h : (s.insert data f).bad = false) :
    s.bad = false ∧ (s.insert data f).stored ++ (s.insert data f).pending =
      s.stored ++ s.pending ++ data := by
  cases hb : s.bad with
  | true => simp [insert, hb] at h
  | false =>
      refine ⟨rfl, ?_⟩
      cases f with
      | none => simp [insert, hb]
      | some f => simp [insert, hb, flush]

theorem writeLines_ok {flushes : Nat → Option Flush} {lines : List Line} {i : Nat}
    (hs : s.bad = false) (h : writeLines flushes i lines s = .ok s') :
    s'.stored ++ s'.pending = s.stored ++ s.pending ++ outputBytes lines := by
  induction lines generalizing s i with
  | nil =>
      cases h
      simp [outputBytes]
  | cons line lines ih =>
      simp only [writeLines] at h
      split_ifs at h with hbad
      have hgood : ((s.insert line (flushes (2 * i))).insert ['\n'] (flushes (2 * i + 1))).bad =
          false := by simpa using hbad
      obtain ⟨hline, hnl⟩ := Stream.insert_ok hgood
      rw [ih hgood h, hnl, (Stream.insert_ok hline).2]
      simp [outputBytes]

theorem Stream.close_of_le {room : Nat} (h : s.pending.length ≤ room) :
    s.close room = s.stored ++ s.pending := by
  simp [close, flush, h]

theorem Stream.close_of_lt {room : Nat} (h : room < s.pending.length) :
    s.close room ≠ s.stored ++ s.pending := by
  intro heq
  have hlen := congrArg List.length heq
  simp [close, flush, Nat.min_eq_right (Nat.le_of_lt h)] at hlen
  omega

end Stream

theorem newPath_ne (path : Path) : path ≠ newPath path := by
  intro h
  have hlen := congrArg List.length h
  simp [newPath] at hlen

section Update
variable {s : State} {path : Path} {lines : List Line} {env : Environment}

/-- An update either throws and leaves the original alone, or replaces it by
what was stored. -/
theorem update_cases (s : State) (path : Path) (lines : List Line) (env : Environment) :
    (∃ stored disk, disk path = s.disk path ∧
      s.update path lines env = s.finish path lines stored disk false) ∨
    (env.opensOutput = true ∧ env.renames = true ∧ ∃ file disk,
      writeLines env.flushes 0 lines .empty = .ok file ∧
      disk path = some (file.close env.closeRoom) ∧
      s.update path lines env = s.finish path lines (file.close env.closeRoom) disk true) := by
  unfold State.update
  cases hopen : env.opensOutput with
  | false => exact .inl ⟨[], s.disk, rfl, rfl⟩
  | true =>
      cases hwrite : writeLines env.flushes 0 lines .empty with
      | error file =>
          exact .inl ⟨_, _, Function.update_of_ne (newPath_ne path) _ _, rfl⟩
      | ok file =>
          cases hren : env.renames with
          | false => exact .inl ⟨_, _, Function.update_of_ne (newPath_ne path) _ _, rfl⟩
          | true =>
              refine .inr ⟨rfl, rfl, file, _, rfl, ?_, rfl⟩
              rw [Function.update_of_ne (newPath_ne path), Function.update_self]

/-- No update has failed as long as the loop goes on, so what comes next does not
make the earlier reports wrong. -/
theorem FailureAtomic.earlier (h : FailureAtomic s) (hnot : s.thrown = false) {r : Report}
    (hr : r ∈ s.reports) (result : Nat) :
    (r.replaced = true → r.stored = r.output ∧ r.after = some r.output) ∧
      (r.replaced = false → r.after = r.before ∧ result = 1) := by
  obtain ⟨hrep, hkept⟩ := h r hr
  refine ⟨hrep, fun hfalse => ?_⟩
  have hone := (hkept hfalse).2
  simp [State.result, hnot] at hone

theorem finish_failed {stored : Bytes} {disk : Disk} (h : FailureAtomic s)
    (hnot : s.thrown = false) (hsame : disk path = s.disk path) :
    FailureAtomic (s.finish path lines stored disk false) := by
  intro r hr
  rcases List.mem_append.mp hr with hr | hr
  · exact h.earlier hnot hr _
  · rw [List.mem_singleton.mp hr]
    exact ⟨nofun, fun _ => ⟨hsame, rfl⟩⟩

theorem finish_replaced {stored : Bytes} {disk : Disk} (h : FailureAtomic s)
    (hnot : s.thrown = false) (hdisk : disk path = some stored) :
    FailureAtomic (s.finish path lines stored disk true) ↔ stored = outputBytes lines := by
  constructor
  · intro hnew
    exact ((hnew _ (List.mem_append_right _ (List.mem_singleton.mpr rfl))).1 rfl).1
  · rintro rfl r hr
    rcases List.mem_append.mp hr with hr | hr
    · exact h.earlier hnot hr _
    · rw [List.mem_singleton.mp hr]
      exact ⟨fun _ => ⟨rfl, hdisk⟩, nofun⟩

theorem close_eq_output {file : Stream} (h : writeLines env.flushes 0 lines .empty = .ok file) :
    file.close env.closeRoom = outputBytes lines ↔ file.pending.length ≤ env.closeRoom := by
  have hall := writeLines_ok rfl h
  simp only [Stream.empty, List.nil_append] at hall
  rw [← hall]
  constructor
  · intro heq
    by_contra hlt
    exact Stream.close_of_lt (not_le.mp hlt) heq
  · exact Stream.close_of_le

end Update

section Run
variable {process : List Line → List Line × Bool} {s s' : State} {job : Path × Environment}

theorem initial_failureAtomic (disk : Disk) : FailureAtomic (initial disk) :=
  fun r hr => by cases hr

theorem FailureAtomic.throw (h : FailureAtomic s) (hnot : s.thrown = false) (thrown : Bool) :
    FailureAtomic { s with thrown := thrown } := fun _ hr => h.earlier hnot hr _

theorem step_keeps (h : FailureAtomic s) (hg : CloseStores process s job)
    (hs : step process s job = some s') : FailureAtomic s' := by
  unfold step at hs
  split_ifs at hs with hthrown
  have hnot : s.thrown = false := by simpa using hthrown
  cases hlines : newLines process s job.1 job.2 with
  | none =>
      rw [hlines] at hs
      cases Option.some.inj hs
      exact h.throw hnot _
  | some lines =>
      rw [hlines] at hs
      cases Option.some.inj hs
      rcases update_cases s job.1 lines job.2 with
        ⟨stored, disk, hsame, heq⟩ | ⟨hopen, hren, file, disk, hwrite, hdisk, heq⟩
      · rw [heq]
        exact finish_failed h hnot hsame
      · rw [heq, finish_replaced h hnot hdisk, close_eq_output hwrite]
        exact hg hnot lines file hlines hopen hren hwrite

theorem step_breaks (h : FailureAtomic s) (hg : ¬ CloseStores process s job) :
    ∃ s', step process s job = some s' ∧ ¬ FailureAtomic s' := by
  simp only [CloseStores, not_forall] at hg
  obtain ⟨hnot, lines, file, hlines, hopen, hren, hwrite, hroom⟩ := hg
  refine ⟨s.update job.1 lines job.2, by simp [step, hnot, hlines], ?_⟩
  rcases update_cases s job.1 lines job.2 with
    ⟨stored, disk, hsame, heq⟩ | ⟨-, -, file', disk, hwrite', hdisk, heq⟩
  · simp [State.update, hopen, hwrite, hren, State.finish] at heq
  · rw [hwrite] at hwrite'
    cases hwrite'
    rw [heq, finish_replaced h hnot hdisk, close_eq_output hwrite]
    exact hroom

end Run

/-- Over every list of files, every content of the disk and every pattern of
failures: the update of all files is failure atomic, at each moment of the run,
exactly if the destructor never loses anything. -/
theorem failureAtomic_iff_closeStores (process : List Line → List Line × Bool) (disk : Disk)
    (jobs : List (Path × Environment)) :
    Throughout (step process) FailureAtomic (initial disk) jobs ↔
      Along (step process) (CloseStores process) (initial disk) jobs :=
  throughout_iff_along (fun _ h => h) (fun _ _ _ h hg hs => step_keeps h hg hs)
    (fun _ _ h hg => step_breaks h hg) (initial_failureAtomic disk) jobs

/-- One line stays in the buffer, and the disk is full when the destructor writes
it: the file is replaced by an empty one, and `main` returns 0. -/
theorem truncated_by_close :
    ∃ s, run (step fun _ => (["int x;".toList], true)) (initial fun _ => some "int x;".toList)
        [("a".toList, ⟨true, true, fun _ => none, 0, true⟩)] = some s ∧
      s.disk "a".toList = some [] ∧ s.result = 0 ∧ ¬ FailureAtomic s := by
  refine ⟨_, rfl, by decide, rfl, fun h => ?_⟩
  have hlost := ((h _ (List.mem_append_right _ (List.mem_singleton.mpr rfl))).1 rfl).1
  revert hlost
  decide

end RewriteHeader.Main
