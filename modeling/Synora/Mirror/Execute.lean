import Synora.Lib.Effects
import Synora.Mirror.PlanSpec

namespace Synora.Mirror
open Strings Utf8 Effects

/-! ## Paths as `execute` reads them -/

def OsName.display : OsName → Text
  | .text t => t
  | .other bytes => fromUtf8Lossy bytes

def Path.display (p : Path) : Text := unsegments (p.map OsName.display)

def Path.fileName (p : Path) : Option OsName :=
  p.normal.getLast?.filter fun n => !decide (n = .text "..".toList)

def isCriticalMetadata (path : Path) : Bool :=
  let name := (path.fileName.bind OsName.toStr).getD []
  path.normal.any (fun part => decide (part = .text "repodata".toList)) ||
    decide (name ∈ ["Release".toList, "Release.gpg".toList, "InRelease".toList,
      "repomd.xml".toList, "index.html".toList]) ||
    decide ((name.splitOn '.').head? = some "Packages".toList ∨
      (name.splitOn '.').head? = some "Sources".toList)

/-! ## One download -/

/-- How the request of a download is answered. -/
inductive Response
  | cancelled
  | failed (message : Text)
  | status (code : ℕ)
deriving DecidableEq, Repr

inductive Chunk
  | received (bytes : ℕ) (writeError : Option Text)
  | failed (message : Text)
  | cancelled
deriving DecidableEq, Repr

/-- What a download meets, in the order in which `fetch_to_partial` asks. -/
structure Attempt where
  cancelledBefore : Bool
  response : Response
  symlinkAncestor : Bool
  createDirError : Option Text
  createFileError : Option Text
  chunks : List Chunk
  cancelledAfter : Bool
  renameError : Option Text
deriving DecidableEq, Repr

/-- `send` and `error_for_status` -/
def Response.check : Response → Except FetchError Unit
  | .cancelled => .error .cancelled
  | .failed message => .error (.http message)
  | .status code => if 400 ≤ code ∧ code < 600 then .error (.httpStatus code) else .ok ()

def receive : ℕ → List Chunk → Except FetchError ℕ
  | n, [] => .ok n
  | n, .received bytes none :: chunks => receive ((n + bytes) % 2 ^ 64) chunks
  | _, .received _ (some message) :: _ => .error (.io message)
  | _, .failed message :: _ => .error (.http message)
  | _, .cancelled :: _ => .error .cancelled

def ioResult : Option Text → Except FetchError Unit
  | none => .ok ()
  | some message => .error (.io message)

/-- `Ok` only after the partial file has been renamed over `dest`. -/
def fetchToPartial (dest : Path) (a : Attempt) : Except FetchError ℕ := do
  if a.cancelledBefore then .error .cancelled
  a.response.check
  if a.symlinkAncestor then
    .error (.io ("refusing to write through a symlink: ".toList ++ dest.display))
  ioResult a.createDirError
  ioResult a.createFileError
  let n ← receive 0 a.chunks
  if a.cancelledAfter then .error .cancelled
  ioResult a.renameError
  pure n

/-- Only the text of an error depends on the destination. -/
theorem fetchToPartial_dest (dest dest' : Path) (a : Attempt) :
    fetchToPartial dest a = fetchToPartial dest' a ∨
      ∃ m m', fetchToPartial dest a = .error (.io m) ∧ fetchToPartial dest' a = .error (.io m') := by
  unfold fetchToPartial
  cases a.cancelledBefore
  · cases a.response.check
    · exact Or.inl rfl
    · cases a.symlinkAncestor
      · exact Or.inl rfl
      · exact Or.inr ⟨_, _, rfl, rfl⟩
  · exact Or.inl rfl

/-! ## The transfer loop -/

structure FetchStats where
  downloadedBytes : UInt64
  filesDownloaded : UInt32
  filesDeleted : UInt32
  filesSymlinked : UInt32
  filesSkipped : UInt32
  filesFailed : UInt32
  filesWarned : UInt32
  warningPaths : List Text
  totalSizeHint : Option ℕ
deriving DecidableEq, Repr

/-- The calls of `execute` that change the mirror. -/
inductive FsOp
  /-- A finished download takes its place. -/
  | rename (dest : Path)
  /-- A manifest, written beside `dest`, takes its place. -/
  | publish (dest : Path) (body : Bytes)
  | removeFile (path : Path)
  | removeDir (path : Path)
  | symlink (dest : Path) (target : Text)
deriving DecidableEq, Repr

structure Fetcher where
  threads : ℕ
  warnOnForbiddenFiles : Bool
  threads_pos : 0 < threads

def Fetcher.withThreads (f : Fetcher) (threads : ℕ) : Fetcher :=
  { f with threads := max threads 1, threads_pos := by omega }

/-- The transfer loop between two events. -/
structure Transfers where
  stats : FetchStats
  remaining : List (Text × Path)
  inFlight : List (Text × Path)
  cancelled : Bool
  ops : List FsOp

def Transfers.start (f : Fetcher) (plan : Plan) : Transfers where
  stats := ⟨0, 0, 0, 0, 0, if plan.incomplete then 1 else 0, 0, [], plan.totalSizeHint⟩
  remaining := plan.downloads.drop f.threads
  inFlight := plan.downloads.take f.threads
  cancelled := false
  ops := []

/-- How a download task ends. -/
inductive TaskEnd
  | panicked
  | finished (a : Attempt)
deriving DecidableEq, Repr

inductive TransferEvent
  | progress
  | cancelled
  | joined (task : ℕ) (result : TaskEnd)
deriving DecidableEq, Repr

/-- The errors that are only warned about. -/
def Fetcher.isWarning (f : Fetcher) (dest : Path) (e : FetchError) : Bool :=
  !isCriticalMetadata dest &&
    (decide (e = .httpStatus 404 ∨ e = .httpStatus 410) ||
      (f.warnOnForbiddenFiles && decide (e = .httpStatus 403)))

def FetchStats.warn (s : FetchStats) (dest : Path) : FetchStats :=
  { s with
    filesSkipped := s.filesSkipped + 1
    filesWarned := s.filesWarned + 1
    warningPaths :=
      if s.warningPaths.length < 100 then s.warningPaths ++ [dest.display] else s.warningPaths }

def FetchStats.fail (s : FetchStats) : FetchStats :=
  { s with filesSkipped := s.filesSkipped + 1, filesFailed := s.filesFailed + 1 }

/-- The `match joined` of the loop. -/
def Transfers.settle (f : Fetcher) (dest : Path) (t : Transfers) : TaskEnd → Transfers
  | .panicked => if t.cancelled then t else { t with stats := t.stats.fail }
  | .finished a =>
    match fetchToPartial dest a with
    | .ok bytes =>
      { t with
        ops := t.ops ++ [.rename dest]
        stats := { t.stats with
          downloadedBytes := t.stats.downloadedBytes + .ofNat bytes
          filesDownloaded := t.stats.filesDownloaded + 1 } }
    | .error .cancelled => { t with cancelled := true }
    | .error e =>
      if f.isWarning dest e then { t with stats := t.stats.warn dest }
      else { t with stats := t.stats.fail }

/-- The next download starts unless the sync was cancelled. -/
def Transfers.refill (t : Transfers) : Transfers :=
  if t.cancelled then t
  else match t.remaining with
    | [] => t
    | d :: rest => { t with remaining := rest, inFlight := t.inFlight ++ [d] }

/-- One round of the loop; `none` when the loop has ended or the event cannot happen. -/
def Transfers.step (f : Fetcher) (t : Transfers) (event : TransferEvent) : Option Transfers :=
  if t.inFlight.isEmpty then none
  else match event with
    | .progress => some t
    | .cancelled => if t.cancelled then none else some { t with cancelled := true }
    | .joined task result => t.inFlight[task]?.map fun d =>
      (({ t with inFlight := t.inFlight.eraseIdx task } : Transfers).settle f d.2 result).refill

/-! ## After the transfers -/

structure Publishing where
  cancelled : Bool
  symlinkAncestor : Bool
  createDirError : Option Text
  writeError : Option Text
  renameError : Option Text
deriving DecidableEq, Repr

structure FileRemoval where
  cancelled : Bool
  error : Option Text
deriving DecidableEq, Repr

inductive RemoveDirError
  | notFound
  | directoryNotEmpty
  | other (message : Text)
deriving DecidableEq, Repr

structure DirRemoval where
  cancelled : Bool
  symlinkAncestor : Bool
  error : Option RemoveDirError
deriving DecidableEq, Repr

structure Linking where
  cancelled : Bool
  destExists : Bool
  createDirError : Option Text
  symlinkError : Option Text
deriving DecidableEq, Repr

/-- The cancel token and the file system as the steps after the transfers find them. -/
structure World where
  cancelledAtStart : Bool
  publishing : ℕ → Publishing
  fileRemoval : ℕ → FileRemoval
  dirRemoval : ℕ → DirRemoval
  linking : ℕ → Linking

abbrev Stage := Prog FetchStats FsOp FetchError

def publishManifest (p : Publishing) (dest : Path) (body : Bytes) : Stage :=
  if p.cancelled then .stop .cancelled
  else if p.symlinkAncestor then .stop (.io "manifest path contains symlink".toList)
  else match p.createDirError <|> p.writeError <|> p.renameError with
    | some message => .stop (.io message)
    | none => Prog.andThen (.perform (.publish dest body)) (.modify fun s => { s with
        filesDownloaded := s.filesDownloaded + 1
        downloadedBytes := s.downloadedBytes + .ofNat body.length })

def removeFile (r : FileRemoval) (path : Path) : Stage :=
  if r.cancelled then .stop .cancelled
  else Prog.andThen (.perform (.removeFile path)) (.modify fun s =>
    match r.error with
    | some _ => s.fail
    | none => { s with filesDeleted := s.filesDeleted + 1 })

/-- Never recursively: a directory that is not empty stays. -/
def removeDir (r : DirRemoval) (path : Path) : Stage :=
  if r.cancelled then .stop .cancelled
  else if r.symlinkAncestor then .skip
  else Prog.andThen (.perform (.removeDir path)) (.modify fun s =>
    match r.error with
    | none | some .notFound | some .directoryNotEmpty => s
    | some (.other _) => { s with filesFailed := s.filesFailed + 1 })

/-- Whatever is already at `dest` is left alone. -/
def ensureSymlink (l : Linking) (dest : Path) (target : Text) : Stage :=
  if l.cancelled then .stop .cancelled
  else if l.destExists then .skip
  else match l.createDirError <|> l.symlinkError with
    | some _ => .modify FetchStats.fail
    | none => Prog.andThen (.perform (.symlink dest target)) (.modify fun s =>
        { s with filesSymlinked := s.filesSymlinked + 1 })

/-- No download failed and none was warned about. -/
def FetchStats.clean (s : FetchStats) : Bool := decide (s.filesFailed = 0 ∧ s.filesWarned = 0)

def afterTransfers (plan : Plan) (w : World) : Stage :=
  (Prog.guarded FetchStats.clean
      (Prog.forEach (fun i m => publishManifest (w.publishing i) m.1 m.2) 0 plan.manifests)).andThen
    ((Prog.guarded FetchStats.clean
        ((Prog.forEach (fun i => removeFile (w.fileRemoval i)) 0 plan.deletes).andThen
          (Prog.forEach (fun i => removeDir (w.dirRemoval i)) 0 plan.deleteDirs))).andThen
      (Prog.forEach (fun i l => ensureSymlink (w.linking i) l.1 l.2) 0 plan.symlinks))

/-- `Fetcher::execute`: what it did, and its result; `none` unless the events are those of a whole
transfer loop. -/
def execute (f : Fetcher) (plan : Plan) (w : World) (events : List TransferEvent) :
    Option (List FsOp × Except FetchError FetchStats) :=
  if w.cancelledAtStart then some ([], .error .cancelled)
  else (Runs.exec (Transfers.step f) (.start f plan) events).bind fun t =>
    if ¬t.inFlight.isEmpty then none
    else if t.cancelled then some (t.ops, .error .cancelled)
    else match afterTransfers plan w ⟨t.stats, t.ops⟩ with
      | (x, none) => some (x.ops, .ok x.state)
      | (x, some e) => some (x.ops, .error e)

end Synora.Mirror
