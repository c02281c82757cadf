import Mathlib.Data.List.Induction
import Mathlib.Data.List.Nodup
import Mathlib.Logic.Function.Basic
import Mathlib.Tactic.Common
import Syndeo.Platform

/-!
# The tools that a home is given

A home that has nothing called `tools` is given the tools beside the binary: they are
written into a staging directory in the home, which is then renamed to `tools` by a
rename that replaces nothing. Any number of runs do this at once, each of them
suspended or gone at any point. Before a run makes its own staging directory it takes
away those of others that were not changed for an hour.

An hour is no sign that a run is gone. A run that was suspended for that long goes on
with what another left of its directory, and does not look at it again before it renames
it. What is published is whole exactly where no other run had taken a file from the
directory (`Syndeo.Shell.Tools.Home.tools_whole_iff`); nothing is ever taken from what is published.
-/

namespace Syndeo.Shell.Tools

/-- `MAX_TOOL`. -/
def maxTool : ℕ := 1024 * 1024

/-- `STALE_AFTER`, in nanoseconds. -/
def staleAfter : ℕ := 60 * 60 * 10 ^ 9

/-- An error of the file system, as far as it is looked at: `unsupported` is the one without
a number. -/
inductive Errno
  | eexist
  | enotempty
  | einval
  | enotsup
  | eopnotsupp
  | enosys
  | unsupported
  | enoent
  | other
  deriving DecidableEq

/-- `Seeded`. -/
inductive Seeded
  | present
  | noSource
  | seeded (tools : ℕ)
  | lost
  | unsupported
  deriving DecidableEq

/-- What `seed_from` returns. -/
abbrev Outcome := Except Errno Seeded

/-- What a rename that failed comes to. -/
def Errno.outcome : Errno → Outcome
  | .eexist | .enotempty => .ok .lost
  | .einval | .enotsup | .eopnotsupp | .enosys | .unsupported => .ok .unsupported
  | e => .error e

/-- A file of a directory. -/
abbrev File := String × Bytes

/-- **What `read_tools` finds**: the same names in every run, and in each its own contents. -/
structure Source where
  names : List String
  content : ℕ → String → Bytes
  nodup : names.Nodup
  small : ∀ i, ∀ name ∈ names, (content i name).length ≤ maxTool

/-- The file that a run is to write under a name. -/
def Source.file (src : Source) (i : ℕ) (name : String) : File := (name, src.content i name)

/-- The files that a run is to write. -/
def Source.tools (src : Source) (i : ℕ) : List File := src.names.map (src.file i)

/-! ### Staging directories -/

/-- A staging directory. Nothing looks at `taken`: it is a record of the files that other
runs have removed. -/
structure Dir where
  files : List File
  modified : ℕ
  taken : List String

namespace Dir

/-- The names in the directory. -/
def names (d : Dir) : List String := d.files.map Prod.fst

/-- Create an empty file. -/
def create (name : String) (now : ℕ) (d : Dir) : Dir :=
  { d with files := d.files ++ [(name, [])], modified := now }

/-- Write to the end of a file. Of a file that was removed since it was opened there is
nothing to be seen. -/
def write (name : String) (bytes : Bytes) (d : Dir) : Dir :=
  { d with files := d.files.map fun f => if f.1 = name then (name, f.2 ++ bytes) else f }

/-- Remove a file, if it is there. -/
def unlink (name : String) (now : ℕ) (d : Dir) : Dir :=
  if name ∈ d.names then
    { d with files := d.files.filter fun f => f.1 ≠ name, modified := now }
  else d

/-- The same, by a run that did not make the directory. -/
def take (name : String) (now : ℕ) (d : Dir) : Dir :=
  if name ∈ d.names then { d.unlink name now with taken := name :: d.taken } else d

/-- The check of `stale_contents` on one entry, of which the owner and the links need none:
whoever seeds a home is its owner, and makes no links. -/
def Plain (src : Source) (name : String) (d : Dir) : Prop :=
  name ∈ src.names ∧ ∃ f ∈ d.files, f.1 = name ∧ f.2.length ≤ maxTool

instance (src : Source) (name : String) (d : Dir) : Decidable (d.Plain src name) :=
  inferInstanceAs (Decidable (_ ∧ _))

end Dir

/-! ### A run, step by step -/

/-- **Where a run is**: what it does next. A staging directory is known by the run that made
it: its name has the process in it, the nanosecond and a count, and is given once. -/
inductive Phase
  /-- `symlink_metadata` of `tools`. -/
  | start
  /-- `read_tools`. -/
  | reading
  /-- `read_dir` of the home. -/
  | listing
  /-- The loop of `remove_stale`. -/
  | cleaning (todo : List ℕ)
  /-- `read_dir` of a staging directory that is stale. -/
  | opening (p : ℕ) (todo : List ℕ)
  /-- The loop of `stale_contents`. -/
  | judging (p : ℕ) (files unread : List String) (todo : List ℕ)
  /-- `remove_file` of each, and `remove_dir`. -/
  | removing (p : ℕ) (files : List String) (todo : List ℕ)
  /-- `make_staging`, with so many attempts left. -/
  | making (attempts : ℕ)
  /-- Create the next file, or, after the last, set the permissions of the directory. -/
  | writing (written rest : List String)
  /-- `write_all`, and after it `sync_all` and the permissions of the file. -/
  | filling (written : List String) (name : String) (sent : ℕ) (rest : List String)
  /-- `sync_all` of the directory. -/
  | syncing (written : List String)
  /-- `rename_exclusive`. -/
  | publishing (written : List String)
  /-- `discard`. -/
  | discarding (files : List String) (outcome : Outcome)
  | returned (outcome : Outcome)
  | crashed

/-- **What a step is met with**: the time, an error of the file system, what `read_dir` gives
of the home and of a directory – where entries come and go meanwhile it may give them or
not – and how many bytes are written. -/
structure World where
  now : ℕ
  fault : Option Errno
  listing : List ℕ
  entries : List String
  piece : ℕ

/-- The error that a call on a path fails with, if it does. -/
def World.error (w : World) (found : Bool) : Option Errno :=
  w.fault.or (if found then none else some .enoent)

/-- The home: what is in `tools`, if that is there, the staging directories, and the runs. -/
structure Home where
  tools : Option (List File)
  staging : ℕ → Option Dir
  phase : ℕ → Phase

namespace Home

/-- Nothing yet. -/
def start : Home := ⟨none, fun _ => none, fun _ => .start⟩

/-- A run goes on to a phase. -/
def goto (i : ℕ) (phase : Phase) (home : Home) : Home :=
  { home with phase := Function.update home.phase i phase }

/-- A staging directory comes, changes or goes. -/
def stage (p : ℕ) (d : Option Dir) (home : Home) : Home :=
  { home with staging := Function.update home.staging p d }

/-- `remove_dir`, which needs an empty one. -/
def removeDir (w : World) (p : ℕ) (home : Home) : Home :=
  if w.fault.isNone then home.stage p ((home.staging p).filter fun d => !d.files.isEmpty) else home

/-- **One step of `seed_with`.** -/
def step (src : Source) (i : ℕ) (w : World) (home : Home) : Home :=
  match home.phase i with
  | .start =>
    match w.error home.tools.isSome with
    | none => home.goto i (.returned (.ok .present))
    | some .enoent => home.goto i .reading
    | some e => home.goto i (.returned (.error e))
  | .reading =>
    match w.fault with
    | some e => home.goto i (.returned (.error e))
    | none =>
      if src.names = [] then home.goto i (.returned (.ok .noSource)) else home.goto i .listing
  | .listing =>
    if w.fault.isSome then home.goto i (.making 16) else home.goto i (.cleaning w.listing)
  | .cleaning [] => home.goto i (.making 16)
  | .cleaning (p :: todo) =>
    if w.fault.isNone ∧ ∃ d ∈ home.staging p, d.modified + staleAfter < w.now then
      home.goto i (.opening p todo)
    else home.goto i (.cleaning todo)
  | .opening p todo =>
    match w.error (home.staging p).isSome with
    | none => home.goto i (.judging p [] w.entries todo)
    | some _ => home.goto i (.cleaning todo)
  | .judging p files [] todo => home.goto i (.removing p files todo)
  | .judging p files (name :: unread) todo =>
    if w.fault.isNone ∧ ∃ d ∈ home.staging p, d.Plain src name then
      home.goto i (.judging p (files ++ [name]) unread todo)
    else home.goto i (.cleaning todo)
  | .removing p (name :: files) todo =>
    -- what a removal fails with is not looked at
    if w.fault.isSome then home.goto i (.removing p files todo)
    else (home.stage p ((home.staging p).map (Dir.take name w.now))).goto i (.removing p files todo)
  | .removing p [] todo => (home.removeDir w p).goto i (.cleaning todo)
  | .making 0 => home.goto i (.returned (.error .eexist))
  | .making (attempts + 1) =>
    match w.fault with
    | some .eexist => home.goto i (.making attempts)
    | some e => home.goto i (.returned (.error e))
    | none => (home.stage i (some ⟨[], w.now, []⟩)).goto i (.writing [] src.names)
  | .writing written (name :: rest) =>
    match w.fault, home.staging i with
    | some e, _ => home.goto i (.discarding written (.error e))
    | none, none => home.goto i (.discarding written (.error .enoent))
    | none, some d =>
      if name ∈ d.names then home.goto i (.discarding written (.error .eexist))
      else (home.stage i (some (d.create name w.now))).goto i (.filling written name 0 rest)
  | .writing written [] =>
    match w.error (home.staging i).isSome with
    | none => home.goto i (.syncing written)
    | some e => home.goto i (.discarding written (.error e))
  | .filling written name sent rest =>
    if sent < (src.content i name).length then
      match w.fault, w.piece with
      | some e, _ => home.goto i (.discarding (written ++ [name]) (.error e))
      | none, 0 => home.goto i (.discarding (written ++ [name]) (.error .other))
      | none, piece =>
        let bytes := ((src.content i name).drop sent).take piece
        (home.stage i ((home.staging i).map (Dir.write name bytes))).goto i
          (.filling written name (sent + bytes.length) rest)
    else
      -- the permissions are set by the path of the file, which fails where it is gone
      match w.error ((home.staging i).any fun d => name ∈ d.names) with
      | none => home.goto i (.writing (written ++ [name]) rest)
      | some e => home.goto i (.discarding (written ++ [name]) (.error e))
  | .syncing written =>
    match w.error (home.staging i).isSome with
    | none => home.goto i (.publishing written)
    | some e => home.goto i (.discarding written (.error e))
  | .publishing written =>
    match w.fault, home.staging i, home.tools with
    | some e, _, _ => home.goto i (.discarding written e.outcome)
    | none, none, _ => home.goto i (.discarding written Errno.enoent.outcome)
    | none, some _, some _ => home.goto i (.discarding written Errno.eexist.outcome)
    | none, some d, none =>
      ({ home with tools := some d.files }.stage i none).goto i
        (.returned (.ok (.seeded src.names.length)))
  | .discarding (name :: files) outcome =>
    if w.fault.isSome then home.goto i (.discarding files outcome)
    else
      (home.stage i ((home.staging i).map (Dir.unlink name w.now))).goto i
        (.discarding files outcome)
  | .discarding [] outcome => (home.removeDir w i).goto i (.returned outcome)
  | .returned _ | .crashed => home

/-- A step of a run, or its end. -/
inductive Event
  | step (i : ℕ) (w : World)
  | crash (i : ℕ)

/-- What an event makes of the home. -/
def after (src : Source) (home : Home) : Event → Home
  | .step i w => home.step src i w
  | .crash i => home.goto i .crashed

/-- **After a schedule of any number of runs.** -/
def run (src : Source) (events : List Event) : Home := events.foldl (after src) start

/-! ### What is published -/

/-- **`tools` holds exactly the files of one run**, if it is there. -/
def Whole (src : Source) (home : Home) : Prop :=
  ∀ files, home.tools = some files → ∃ i, files = src.tools i

/-- The step of the run is a rename, and goes through. -/
def Publishes (i : ℕ) (w : World) (home : Home) : Prop :=
  (∃ written, home.phase i = .publishing written) ∧ w.fault = none ∧
    (home.staging i).isSome ∧ home.tools = none

/-- **No other run has removed a file from the run's directory.** -/
def Untouched (i : ℕ) (home : Home) : Prop := ∀ d ∈ home.staging i, d.taken = []

end Home

/-! ### What a run has staged -/

/-- **The files were staged, and the rest of the names is to come**; of the directory there
is left what others did not take. -/
structure Staged (src : Source) (files : List File) (rest : List String) (d : Option Dir) :
    Prop where
  names : files.map Prod.fst ++ rest = src.names
  left : ∀ x ∈ d, x.files = files.filter fun f => f.1 ∉ x.taken
  taken : ∀ x ∈ d, ∀ name ∈ x.taken, name ∈ files.map Prod.fst

/-- **What holds of the directory of a run**, in each phase. -/
def Kept (src : Source) (i : ℕ) (d : Option Dir) : Phase → Prop
  | .start | .reading | .listing | .cleaning _ | .opening _ _ | .judging _ _ _ _
  | .removing _ _ _ | .making _ => d = none
  | .writing written rest => Staged src (written.map (src.file i)) rest d
  | .filling written name sent rest =>
    Staged src (written.map (src.file i) ++ [(name, (src.content i name).take sent)]) rest d
  | .syncing written | .publishing written => Staged src (written.map (src.file i)) [] d
  | .discarding _ _ | .returned _ | .crashed => True

section Staged

variable {src : Source} {i : ℕ} {files : List File} {rest : List String} {d : Option Dir}
  {x : Dir} {name : String} {now : ℕ}

theorem Dir.mem_names_iff : name ∈ x.names ↔ ∃ f ∈ x.files, f.1 = name := List.mem_map

/-- What is taken is gone, and is recorded. -/
theorem Dir.take_files : (x.take name now).files = x.files.filter fun f => f.1 ≠ name := by
  rw [Dir.take, Dir.unlink]
  split_ifs with h
  · rfl
  · refine (List.filter_eq_self.mpr fun f hf => ?_).symm
    simpa using fun heq => h (Dir.mem_names_iff.mpr ⟨f, hf, heq⟩)

/-- **Another run takes a file.** -/
theorem Staged.take (h : Staged src files rest d) : Staged src files rest (d.map (Dir.take name now)) := by
  refine ⟨h.names, fun x' hx' => ?_, fun x' hx' other hother => ?_⟩
  all_goals obtain ⟨x, hx, rfl⟩ := Option.map_eq_some_iff.mp hx'
  · rw [Dir.take_files, h.left x hx, List.filter_filter]
    refine List.filter_congr fun f hf => ?_
    by_cases hname : name ∈ x.names
    · simp [Dir.take, hname]
    · have hne : f.1 ∉ x.taken → f.1 ≠ name := by
        rintro hnot rfl
        exact hname (Dir.mem_names_iff.mpr
          ⟨f, by rw [h.left x hx]; exact List.mem_filter.mpr ⟨hf, by simpa using hnot⟩, rfl⟩)
      by_cases hf : f.1 ∈ x.taken <;> simp_all [Dir.take]
  · rw [Dir.take] at hother
    split_ifs at hother with hname
    · rcases List.mem_cons.mp hother with rfl | hother
      · obtain ⟨f, hf, rfl⟩ := Dir.mem_names_iff.mp hname
        rw [h.left x hx] at hf
        exact List.mem_map_of_mem (List.mem_filter.mp hf).1
      · exact h.taken x hx other hother
    · exact h.taken x hx other hother

/-- There is no directory, or the same one. -/
theorem Staged.mono {d' : Option Dir} (h : Staged src files rest d) (hd : ∀ x ∈ d', x ∈ d) :
    Staged src files rest d' :=
  ⟨h.names, fun x hx => h.left x (hd x hx), fun x hx => h.taken x (hd x hx)⟩

/-- **The next file is created.** -/
theorem Staged.create (h : Staged src files (name :: rest) (some x)) :
    Staged src (files ++ [(name, [])]) rest (some (x.create name now)) := by
  have hnew : name ∉ files.map Prod.fst := by
    have hnodup := h.names ▸ src.nodup
    exact fun hmem => List.disjoint_of_nodup_append hnodup hmem List.mem_cons_self
  refine ⟨by simp [← h.names], fun x' hx' => ?_, fun x' hx' other hother => ?_⟩
  all_goals obtain rfl := Option.some.inj hx'
  · have hname : name ∉ x.taken := fun hmem => hnew (h.taken x rfl name hmem)
    simp [Dir.create, h.left x rfl, hname]
  · rw [List.map_append]
    exact List.mem_append_left _ (h.taken x rfl other hother)

/-- **More of the last file is written.** -/
theorem Staged.write {bytes more : Bytes}
    (h : Staged src (files ++ [(name, bytes)]) rest d) :
    Staged src (files ++ [(name, bytes ++ more)]) rest (d.map (Dir.write name more)) := by
  have hnew : ∀ f ∈ files, f.1 ≠ name := by
    have hnodup := h.names ▸ src.nodup
    rw [List.map_append] at hnodup
    rintro f hf rfl
    exact List.disjoint_of_nodup_append (List.nodup_append.mp hnodup).1
      (List.mem_map_of_mem hf) (by simp)
  refine ⟨by rw [← h.names]; simp, fun x' hx' => ?_, fun x' hx' other hother => ?_⟩
  all_goals obtain ⟨x, hx, rfl⟩ := Option.map_eq_some_iff.mp hx'
  · have hwrite : ∀ f ∈ files, (if f.1 = name then (name, f.2 ++ more) else f) = f :=
      fun f hf => if_neg (hnew f hf)
    have hkept : (files.filter fun f => f.1 ∉ x.taken).map
        (fun f => if f.1 = name then (name, f.2 ++ more) else f) =
        files.filter fun f => f.1 ∉ x.taken :=
      (List.map_congr_left fun f hf => hwrite f (List.mem_filter.mp hf).1).trans (List.map_id' _)
    rw [Dir.write, h.left x hx, List.filter_append, List.filter_append, List.map_append, hkept]
    by_cases hname : name ∈ x.taken <;> simp [hname]
  · simpa using h.taken x hx other hother

/-- **Another run takes a file**, whatever the phase. -/
theorem Kept.take {phase : Phase} (h : Kept src i d phase) :
    Kept src i (d.map (Dir.take name now)) phase := by
  cases phase with
  | writing | filling | syncing | publishing => exact Staged.take h
  | discarding | returned | crashed => trivial
  | start | reading | listing | cleaning | opening | judging | removing | making =>
    rw [show d = none from h]
    rfl

/-- The directory is gone, or the same. -/
theorem Kept.mono {phase : Phase} {d' : Option Dir} (h : Kept src i d phase)
    (hd : ∀ x ∈ d', x ∈ d) : Kept src i d' phase := by
  cases phase with
  | writing | filling | syncing | publishing => exact Staged.mono h hd
  | discarding | returned | crashed => trivial
  | start | reading | listing | cleaning | opening | judging | removing | making =>
    obtain rfl : d = none := h
    exact Option.eq_none_iff_forall_not_mem.mpr fun x hx => absurd (hd x hx) (by simp)

/-- **A piece is written** of the file that was created last. -/
theorem Kept.write {written : List String} {sent piece : ℕ}
    (h : Kept src i d (.filling written name sent rest)) :
    let bytes := ((src.content i name).drop sent).take piece
    Kept src i (d.map (Dir.write name bytes)) (.filling written name (sent + bytes.length) rest) := by
  intro bytes
  have hbytes : ((src.content i name).drop sent).take bytes.length = bytes :=
    (List.prefix_iff_eq_take.mp (List.take_prefix _ _)).symm
  have hsent : (src.content i name).take (sent + bytes.length) =
      (src.content i name).take sent ++ bytes := by
    rw [List.take_add, hbytes]
  simpa only [Kept, hsent] using Staged.write h

/-- **All of it is written.** -/
theorem Kept.written {written : List String} {sent : ℕ}
    (h : Kept src i d (.filling written name sent rest)) (hsent : (src.content i name).length ≤ sent) :
    Kept src i d (.writing (written ++ [name]) rest) := by
  simpa [Kept, Source.file, List.take_of_length_le hsent] using h

end Staged

namespace Home

variable {src : Source} {i p : ℕ} {w : World} {home : Home} {phase : Phase} {d : Option Dir}

/-- **Every run has in its directory what it staged, but for what others took.** -/
def Steady (src : Source) (home : Home) : Prop :=
  ∀ i, Kept src i (home.staging i) (home.phase i)

@[simp] theorem staging_goto : (home.goto i phase).staging = home.staging := rfl

@[simp] theorem tools_goto : (home.goto i phase).tools = home.tools := rfl

@[simp] theorem tools_stage : (home.stage p d).tools = home.tools := rfl

@[simp] theorem phase_stage : (home.stage p d).phase = home.phase := rfl

@[simp] theorem tools_removeDir : (home.removeDir w p).tools = home.tools := by
  rw [removeDir]
  split_ifs <;> rfl

@[simp] theorem phase_removeDir : (home.removeDir w p).phase = home.phase := by
  rw [removeDir]
  split_ifs <;> rfl

/-- A run goes on. -/
theorem Steady.goto (h : home.Steady src) (hi : Kept src i (home.staging i) phase) :
    (home.goto i phase).Steady src := by
  intro q
  by_cases hq : q = i
  · subst hq
    simpa [Home.goto] using hi
  · simpa [Home.goto, hq] using h q

/-- What is done to a directory is of no harm to the run that made it. -/
theorem Steady.stage (h : home.Steady src) (hp : Kept src p d (home.phase p)) :
    (home.stage p d).Steady src := by
  intro q
  by_cases hq : q = p
  · subst hq
    simpa [Home.stage] using hp
  · simpa [Home.stage, hq] using h q

/-- A run changes its own directory, and goes on. -/
theorem Steady.stage_goto (h : home.Steady src) (hi : Kept src i d phase) :
    ((home.stage i d).goto i phase).Steady src := by
  intro q
  by_cases hq : q = i
  · subst hq
    simpa [Home.goto, Home.stage] using hi
  · simpa [Home.goto, Home.stage, hq] using h q

theorem Steady.removeDir (h : home.Steady src) : (home.removeDir w p).Steady src := by
  rw [Home.removeDir]
  split_ifs
  · exact h.stage ((h p).mono fun x hx => (Option.mem_filter_iff.mp hx).1)
  · exact h

/-- **One step** leaves in every directory what its run staged. -/
theorem Steady.step (h : home.Steady src) : (home.step src i w).Steady src := by
  have hi := h i
  cases hphase : home.phase i <;> rw [hphase] at hi <;> simp only [Home.step, hphase]
  case start =>
    split
    exacts [h.goto trivial, h.goto hi, h.goto trivial]
  case reading =>
    split
    · exact h.goto trivial
    · split_ifs
      exacts [h.goto trivial, h.goto hi]
  case listing => split_ifs <;> exact h.goto hi
  case cleaning todo =>
    cases todo with
    | nil => exact h.goto hi
    | cons p todo =>
      dsimp only
      split_ifs <;> exact h.goto hi
  case opening p todo => split <;> exact h.goto hi
  case judging p files unread todo =>
    cases unread with
    | nil => exact h.goto hi
    | cons name unread =>
      dsimp only
      split_ifs <;> exact h.goto hi
  case removing p files todo =>
    -- the directory is another run's: this one has none yet
    cases files with
    | nil =>
      have hdir := h.removeDir (w := w) (p := p)
      exact hdir.goto (by simpa [hphase, Kept] using hdir i)
    | cons name files =>
      dsimp only
      split_ifs
      · exact h.goto hi
      · have htaken : Kept src p ((home.staging p).map (Dir.take name w.now)) (home.phase p) :=
          (h p).take
        have hdir := h.stage htaken
        exact hdir.goto (by simpa [hphase, Kept] using hdir i)
  case making attempts =>
    cases attempts with
    | zero => exact h.goto trivial
    | succ attempts =>
      dsimp only
      split
      · exact h.goto hi
      · exact h.goto trivial
      · exact h.stage_goto ⟨rfl, fun x hx => by cases hx; rfl, fun x hx => by cases hx; simp⟩
  case writing written rest =>
    cases rest with
    | nil =>
      dsimp only
      split
      exacts [h.goto hi, h.goto trivial]
    | cons name rest =>
      dsimp only
      split
      · exact h.goto trivial
      · exact h.goto trivial
      · rename_i x _ hx
        split_ifs
        · exact h.goto trivial
        · rw [hx] at hi
          exact h.stage_goto (by simpa [Kept] using Staged.create hi)
  case filling written name sent rest =>
    split_ifs with hsent
    · split
      · exact h.goto trivial
      · exact h.goto trivial
      · exact h.stage_goto (Kept.write hi)
    · split
      · exact h.goto (Kept.written hi (not_lt.mp hsent))
      · exact h.goto trivial
  case syncing written =>
    split
    exacts [h.goto hi, h.goto trivial]
  case publishing written =>
    split
    · exact h.goto trivial
    · exact h.goto trivial
    · exact h.goto trivial
    · exact h.stage_goto trivial
  case discarding files outcome =>
    cases files with
    | nil => exact h.removeDir.goto trivial
    | cons name files =>
      dsimp only
      split_ifs
      · exact h.goto trivial
      · exact h.stage_goto trivial
  case returned => exact h
  case crashed => exact h

theorem Steady.after {e : Event} (h : home.Steady src) : (home.after src e).Steady src := by
  cases e with
  | step i w => exact h.step
  | crash i => exact h.goto trivial

/-- A schedule and one event more. -/
theorem run_concat (src : Source) (events : List Event) (e : Event) :
    run src (events ++ [e]) = (run src events).after src e := by
  rw [run, List.foldl_append]
  rfl

/-- **In every state that is reached**, every directory has what its run staged. -/
theorem steady_run (src : Source) (events : List Event) : (run src events).Steady src := by
  induction events using List.reverseRecOn with
  | nil => exact fun i => rfl
  | append_singleton events e ih =>
    rw [run_concat]
    exact ih.after

/-! ### What becomes of `tools` -/

/-- **Only a rename makes `tools`**, and it makes it of the directory that the run staged. -/
theorem tools_step (src : Source) (i : ℕ) (w : World) (home : Home) :
    (home.step src i w).tools = home.tools ∧ ¬home.Publishes i w ∨
      ∃ d, home.Publishes i w ∧ home.staging i = some d ∧
        (home.step src i w).tools = some d.files := by
  by_cases h : home.Publishes i w
  · obtain ⟨⟨written, hphase⟩, hfault, hstaging, htools⟩ := h
    obtain ⟨d, hd⟩ := Option.isSome_iff_exists.mp hstaging
    exact .inr ⟨d, ⟨⟨written, hphase⟩, hfault, hstaging, htools⟩, hd,
      by simp [step, hphase, hfault, hd, htools]⟩
  · refine .inl ⟨?_, h⟩
    cases hphase : home.phase i with
    | publishing written =>
      simp only [step, hphase]
      split
      · rfl
      · rfl
      · rfl
      · rename_i d hfault hd htools
        exact absurd ⟨⟨written, hphase⟩, hfault, by simp [hd], htools⟩ h
    | _ =>
      -- no other step is one on `tools`
      rw [step, hphase]
      repeat' split
      all_goals first | contradiction | simp

/-- What is in `tools` is never changed, by a step or a crash. -/
theorem tools_after {files : List File} {e : Event} (h : home.tools = some files) :
    (home.after src e).tools = some files := by
  cases e with
  | step i w =>
    rcases tools_step src i w home with ⟨heq, -⟩ | ⟨d, ⟨-, -, -, hnone⟩, -⟩
    · exact heq.trans h
    · exact absurd (h ▸ hnone) (Option.some_ne_none _)
  | crash i => exact h

/-- **What is published is never changed.** -/
theorem tools_run_append {files : List File} {events : List Event} (rest : List Event)
    (h : (run src events).tools = some files) :
    (run src (events ++ rest)).tools = some files := by
  induction rest using List.reverseRecOn with
  | nil => rwa [List.append_nil]
  | append_singleton rest e ih =>
    rw [← List.append_assoc, run_concat]
    exact tools_after ih

/-- **What a run publishes is whole** exactly where no other had taken a file from it. -/
theorem Steady.published_iff {x : Dir} (h : home.Steady src) (hi : home.Publishes i w)
    (hx : home.staging i = some x) : (∃ q, x.files = src.tools q) ↔ home.Untouched i := by
  obtain ⟨⟨written, hphase⟩, -⟩ := hi
  have hstaged : Staged src (written.map (src.file i)) [] (some x) := by
    simpa [hphase, hx, Kept] using h i
  have hwritten : written = src.names := by
    have hnames := hstaged.names
    rwa [List.map_map, List.append_nil, show Prod.fst ∘ src.file i = id from rfl, List.map_id]
      at hnames
  subst hwritten
  constructor
  · rintro ⟨q, hq⟩ d hd
    obtain rfl : x = d := Option.some.inj (hx.symm.trans hd)
    refine List.eq_nil_iff_forall_not_mem.mpr fun name hname => ?_
    -- a name that was taken is one of the names, and there is no file of it
    have hmem : name ∈ x.files.map Prod.fst := by
      rw [hq]
      simpa [Source.tools, Source.file] using hstaged.taken x rfl name hname
    obtain ⟨f, hf, rfl⟩ := List.mem_map.mp hmem
    rw [hstaged.left x rfl] at hf
    exact absurd hname (by simpa using (List.mem_filter.mp hf).2)
  · intro htaken
    refine ⟨i, ?_⟩
    rw [hstaged.left x rfl, htaken x hx]
    simp [Source.tools]

/-- **`tools` is whole whenever it is there, and stays as it is, exactly where no run
publishes a directory that another run had taken a file from.** -/
theorem tools_whole_iff (src : Source) (events : List Event) :
    ((∀ before, before <+: events → (run src before).Whole src) ∧
      ∀ before later, before <+: later → later <+: events → ∀ files,
        (run src before).tools = some files → (run src later).tools = some files) ↔
      ∀ before i w rest, events = before ++ .step i w :: rest →
        (run src before).Publishes i w → (run src before).Untouched i := by
  constructor
  · rintro ⟨hwhole, -⟩ before i w rest rfl hi
    obtain ⟨x, hx⟩ := Option.isSome_iff_exists.mp hi.2.2.1
    refine ((steady_run src before).published_iff hi hx).mp ?_
    refine hwhole (before ++ [.step i w]) (by simp) x.files ?_
    rw [run_concat]
    rcases tools_step src i w (run src before) with ⟨-, hnot⟩ | ⟨d, -, hd, htools⟩
    · exact absurd hi hnot
    · rwa [Option.some.inj (hx.symm.trans hd)]
  · intro huntouched
    refine ⟨fun before hbefore => ?_, ?_⟩
    · induction before using List.reverseRecOn with
      | nil => exact fun files h => absurd h (by simp [run, start])
      | append_singleton before e ih =>
        have hwhole := ih (List.IsPrefix.trans (List.prefix_append before [e]) hbefore)
        obtain ⟨rest, rfl⟩ := hbefore
        rw [run_concat]
        intro files hfiles
        cases e with
        | crash i => exact hwhole files hfiles
        | step i w =>
          rcases tools_step src i w (run src before) with ⟨heq, -⟩ | ⟨x, hi, hx, htools⟩
          · exact hwhole files (heq ▸ hfiles)
          · obtain rfl : x.files = files := Option.some.inj (htools.symm.trans hfiles)
            exact ((steady_run src before).published_iff hi hx).mpr
              (huntouched before i w rest (by simp) hi)
    · rintro before _ ⟨rest, rfl⟩ - files h
      exact tools_run_append rest h

/-! ### A run that was suspended for an hour -/

/-- Two tools. -/
def twoTools : Source where
  names := ["other.wasm", "wordcount.wat"]
  content _ _ := [40, 41]
  nodup := by decide
  small _ _ _ := Nat.le_of_ble_eq_true rfl

/-- One run stages its tools and is suspended; another comes an hour and a second later, and
has removed one of the files when the first goes on. -/
def suspended : List Event :=
  List.replicate 13 (.step 0 ⟨0, none, [], [], 2⟩) ++
    List.replicate 9 (.step 1 ⟨staleAfter + 10 ^ 9, none, [0], twoTools.names, 2⟩) ++
    [.step 0 ⟨staleAfter + 10 ^ 9, none, [], [], 2⟩]

theorem not_tools_whole : ¬∀ src events,
    (∀ before, before <+: events → (run src before).Whole src) ∧
      ∀ before later, before <+: later → later <+: events → ∀ files,
        (run src before).tools = some files → (run src later).tools = some files := by
  intro h
  have htools : (run twoTools suspended).tools = some [("wordcount.wat", [40, 41])] := by
    decide +kernel
  obtain ⟨i, hi⟩ := (h twoTools suspended).1 suspended List.prefix_rfl _ htools
  exact absurd (congrArg List.length hi) (by simp [Source.tools, twoTools])

end Home

end Syndeo.Shell.Tools
