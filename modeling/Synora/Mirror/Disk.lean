import Synora.Lib.FileTree
import Synora.Mirror.Execute

namespace Synora.Mirror
open Strings Utf8 Effects FileTree

/-! # The sync on disk

`execute` once more, call by call: what it meets is what the calls before it have left behind. -/

/-! ## Paths below the storage directory -/

/-- The part of a planned path behind the storage directory. -/
def Path.below (storage p : Path) : Path :=
  p.drop (if storage.getLast? = some (.text []) then storage.length - 1 else storage.length)

def OsName.seg (n : OsName) : Seg OsName :=
  if n = .text [] ∨ n = .text ".".toList then .here
  else if n = .text "..".toList then .up
  else .name n

/-- The path as the kernel reads it. -/
def Path.segs (p : Path) : List (Seg OsName) := p.map OsName.seg

/-- The directories between the storage directory and a path below it, from the top. -/
def Path.parents (rel : Path) : List Path :=
  (List.range rel.normal.length).tail.map rel.normal.take

/-- `dest.partial`. What `display` gives for a path that ends in a slash is extended behind the
slash. -/
def partialPath (rel : Path) : Path :=
  rel.dropLast ++ [.text (((rel.getLast?.map OsName.display).getD []) ++ ".partial".toList)]

/-- `Path::file_stem` of a name that is no `..` -/
def fileStem (name : Text) : Text :=
  let parts := name.splitOn '.'
  if parts.dropLast.all List.isEmpty then name else ['.'].intercalate parts.dropLast

/-- `Path::with_extension`, for a path that ends in a name -/
def Path.withExtension (ext : Text) (rel : Path) : Path :=
  rel.dropLast ++
    [.text (fileStem ((rel.getLast?.map OsName.display).getD []) ++ ".".toList ++ ext)]

/-! ## The file system -/

structure Disk where
  tree : FileTree.Tree OsName
  /-- Where the storage directory is. -/
  root : Place OsName
  /-- A directory above the storage directory is a link. -/
  linkedAbove : Bool
  /-- The storage directory itself is named by a link. -/
  linkedRoot : Bool
  /-- The directories in which no entry can be made, removed or replaced. -/
  locked : Place OsName → Bool

namespace Disk

variable (d : Disk)

/-- `symlink_metadata` -/
def symlinkMetadata (rel : Path) : Option (Inode OsName) := d.tree.lstat d.root rel.segs

def hasSymlinkAncestor (rel : Path) : Bool :=
  d.linkedAbove || (!rel.normal.isEmpty && d.linkedRoot) ||
    rel.parents.any fun q => isLink (d.symlinkMetadata q)

def locate (rel : Path) : Option (Place OsName × OsName) :=
  (d.tree.locate d.root rel.segs).filter fun p => !d.locked p.1

def make (i : Inode OsName) (rel : Path) : Option Disk := do
  let (dir, name) ← d.locate rel
  let tree ← d.tree.make i dir name
  pure { d with tree }

/-- `File::create`: an existing file is emptied, and a link at the end of the path is followed. -/
def createFile (rel : Path) : Option Disk := do
  let (dir, name) ← d.tree.openAt (Tree.maxLinks + 1) d.root rel.segs
  match d.tree.node (dir ++ [name]) with
  | some .dir => none
  | some _ => pure d
  | none =>
    if d.locked dir then none
    else
      let tree ← d.tree.make .file dir name
      pure { d with tree }

def removeFile (rel : Path) : Option Disk := do
  let (dir, name) ← d.locate rel
  let tree ← d.tree.unlink (dir ++ [name])
  pure { d with tree }

def removeDir (rel : Path) : Option Disk := do
  let (dir, name) ← d.locate rel
  let tree ← d.tree.rmdir (dir ++ [name])
  pure { d with tree }

def rename (src dest : Path) : Option Disk := do
  let (dir, name) ← d.locate src
  let (dir', name') ← d.locate dest
  let tree ← d.tree.rename (dir ++ [name]) dir' name'
  pure { d with tree }

/-- The directory that holds `rel` is there. -/
def parentIsDir (rel : Path) : Bool :=
  (d.tree.dirAt Tree.maxLinks d.root (Path.segs rel.normal.dropLast)).isSome

/-- A directory between the storage directory and `rel` is a link. -/
def through (rel : Path) : Bool := rel.parents.any fun q => isLink (d.tree.node (d.root ++ q))

end Disk

inductive Call
  | createDir | createFile | rename | removeFile | removeDir | symlink
deriving DecidableEq, Repr

/-- A call that has changed the file system. -/
structure Effect where
  call : Call
  path : Path
  /-- The parents of the path went through a link. -/
  through : Bool
deriving DecidableEq, Repr

structure Scene where
  disk : Disk
  effects : List Effect

/-- A call that fails leaves everything as it is. -/
def Scene.call (s : Scene) (c : Call) (paths : List Path) (f : Disk → Option Disk) : Scene × Bool :=
  match f s.disk with
  | none => (s, false)
  | some disk => (⟨disk, s.effects ++ paths.map fun p => ⟨c, p, s.disk.through p⟩⟩, true)

/-- A call, unless an error outside the model prevents it. -/
def Scene.tryCall (s : Scene) (fails : Bool) (c : Call) (paths : List Path)
    (f : Disk → Option Disk) : Scene × Bool :=
  if fails then (s, false) else s.call c paths f

def Scene.createDir (s : Scene) (rel : Path) : Scene :=
  (s.call .createDir [rel] fun d => d.make .dir rel).1

/-- `create_dir_all(dest.parent())`, when the first `made` directories can be made. -/
def Scene.createDirAll (s : Scene) (rel : Path) (made : ℕ) : Scene :=
  (rel.parents.take made).foldl Scene.createDir s

/-! ## A download -/

inductive Phase
  | requesting
  | makingDirs (rest : List Path)
  | clearing
  | opening
  | receiving
  | renaming
  | discarding
  | over
deriving DecidableEq, Repr

structure Task where
  phase : Phase
  /-- What the task has met so far. -/
  attempt : Attempt
deriving DecidableEq, Repr

def Task.new : Task := ⟨.requesting, ⟨false, .cancelled, false, none, none, [], false, none⟩⟩

inductive TaskEvent
  | answered (cancelled : Bool) (response : Response)
  | createDir (fails : Bool) (message : Text)
  | cleared
  | opened (fails : Bool) (message : Text)
  | received (chunks : List Chunk) (cancelled : Bool)
  | renamed (fails : Bool) (message : Text)
  | discarded
deriving DecidableEq, Repr

/-- `fetch_to_partial`, up to its next call. -/
def Task.step (rel : Path) (s : Scene) (t : Task) (event : TaskEvent) : Option (Scene × Task) :=
  let a := t.attempt
  match t.phase, event with
  | .requesting, .answered cancelled response =>
    let a := { a with
      cancelledBefore := cancelled, response := response
      symlinkAncestor := s.disk.hasSymlinkAncestor rel }
    if cancelled || decide (response.check ≠ .ok ()) || a.symlinkAncestor then
      some (s, ⟨.over, a⟩)
    else some (s, ⟨.makingDirs rel.parents, a⟩)
  | .makingDirs (q :: rest), .createDir fails message =>
    if fails then some (s, ⟨.over, { a with createDirError := some message }⟩)
    else some (s.createDir q, ⟨.makingDirs rest, a⟩)
  | .makingDirs [], .createDir _ message =>
    if s.disk.parentIsDir rel then some (s, ⟨.clearing, a⟩)
    else some (s, ⟨.over, { a with createDirError := some message }⟩)
  | .clearing, .cleared =>
    some ((s.call .removeFile [partialPath rel] fun d => d.removeFile (partialPath rel)).1,
      ⟨.opening, a⟩)
  | .opening, .opened fails message =>
    match s.tryCall fails .createFile [partialPath rel] fun d => d.createFile (partialPath rel) with
    | (s, true) => some (s, ⟨.receiving, a⟩)
    | (s, false) => some (s, ⟨.over, { a with createFileError := some message }⟩)
  | .receiving, .received chunks cancelled =>
    let a := { a with chunks := chunks, cancelledAfter := cancelled }
    match receive 0 chunks with
    | .error _ => some (s, ⟨.discarding, a⟩)
    | .ok _ => some (s, ⟨if cancelled then .discarding else .renaming, a⟩)
  | .renaming, .renamed fails message =>
    match s.tryCall fails .rename [partialPath rel, rel]
        fun d => d.rename (partialPath rel) rel with
    | (s, true) => some (s, ⟨.over, a⟩)
    | (s, false) => some (s, ⟨.discarding, { a with renameError := some message }⟩)
  | .discarding, .discarded =>
    some ((s.call .removeFile [partialPath rel] fun d => d.removeFile (partialPath rel)).1,
      ⟨.over, a⟩)
  | _, _ => none

/-! ## After the transfers -/

/-- Errors that the model does not explain. -/
structure Faults where
  cancelled : Bool
  /-- How many directories `create_dir_all` can make. -/
  made : ℕ
  createDir : Option Text
  create : Option Text
  write : Option Text
  last : Option Text
deriving DecidableEq, Repr

def Scene.publish (s : Scene) (rel : Path) (e : Faults) : Scene × Publishing :=
  let linked := s.disk.hasSymlinkAncestor rel
  if e.cancelled || linked then (s, ⟨e.cancelled, linked, none, none, none⟩)
  else
    let s := s.createDirAll rel e.made
    let met (createDir write rename : Option Text) : Publishing :=
      ⟨false, false, createDir, write, rename⟩
    if e.createDir.isSome || !s.disk.parentIsDir rel then
      (s, met (some (e.createDir.getD [])) none none)
    else
      let temporary := rel.withExtension "xml.partial".toList
      match s.tryCall e.create.isSome .createFile [temporary] fun d => d.createFile temporary with
      | (s, false) => (s, met none (some (e.create.getD [])) none)
      | (s, true) =>
        if e.write.isSome then (s, met none e.write none)
        else
          match s.tryCall e.last.isSome .rename [temporary, rel]
              fun d => d.rename temporary rel with
          | (s, false) => (s, met none none (some (e.last.getD [])))
          | (s, true) => (s, met none none none)

def Scene.deleteFile (s : Scene) (rel : Path) (e : Faults) : Scene × FileRemoval :=
  if e.cancelled then (s, ⟨true, none⟩)
  else match s.tryCall e.last.isSome .removeFile [rel] fun d => d.removeFile rel with
    | (s, true) => (s, ⟨false, none⟩)
    | (s, false) => (s, ⟨false, some (e.last.getD [])⟩)

def Scene.deleteDir (s : Scene) (rel : Path) (e : Faults) : Scene × DirRemoval :=
  let linked := s.disk.hasSymlinkAncestor rel
  if e.cancelled || linked then (s, ⟨e.cancelled, linked, none⟩)
  else match s.tryCall e.last.isSome .removeDir [rel] fun d => d.removeDir rel with
    | (s, true) => (s, ⟨false, false, none⟩)
    | (s, false) =>
      let error : RemoveDirError := match s.disk.symlinkMetadata rel with
        | none => .notFound
        | some .dir => if (s.disk.locate rel).isSome then .directoryNotEmpty else .other []
        | some _ => .other []
      (s, ⟨false, false, some ((e.last.map .other).getD error)⟩)

/-- What a text that a link is made of leads to. -/
def linkTo (target : Text) : Link OsName :=
  ⟨(Path.ofText target).isAbsolute, (Path.ofText target).segs⟩

def Scene.link (s : Scene) (rel : Path) (target : Text) (e : Faults) : Scene × Linking :=
  if e.cancelled then (s, ⟨true, false, none, none⟩)
  else if (s.disk.symlinkMetadata rel).isSome then (s, ⟨false, true, none, none⟩)
  else
    let s := s.createDirAll rel e.made
    if e.createDir.isSome || !s.disk.parentIsDir rel then
      (s, ⟨false, false, some (e.createDir.getD []), none⟩)
    else
      match s.tryCall e.last.isSome .symlink [rel]
          fun d => d.make (.symlink (linkTo target)) rel with
      | (s, true) => (s, ⟨false, false, none, none⟩)
      | (s, false) => (s, ⟨false, false, none, some (e.last.getD [])⟩)

/-! ## The whole run -/

inductive Stages
  | transferring (t : Transfers) (tasks : List Task)
  | publishing (x : Traced FetchStats FsOp) (rest : List (Path × Bytes))
  | deleting (x : Traced FetchStats FsOp) (files dirs : List Path)
  | linking (x : Traced FetchStats FsOp) (rest : List (Path × Text))
  | ended (result : Except FetchError FetchStats)

structure Sync where
  scene : Scene
  stage : Stages

inductive SyncEvent
  | progress
  | cancelled
  | task (i : ℕ) (event : TaskEvent)
  | panicked (i : ℕ)
  | joined (i : ℕ)
  /-- The next item of the stage. -/
  | item (faults : Faults)
  /-- The stage is over. -/
  | next
deriving DecidableEq, Repr

def Sync.start (f : Fetcher) (plan : Plan) (disk : Disk) (cancelledAtStart : Bool) : Sync where
  scene := ⟨disk, []⟩
  stage :=
    if cancelledAtStart then .ended (.error .cancelled)
    else .transferring (.start f plan) ((Transfers.start f plan).inFlight.map fun _ => .new)

/-- The transfer loop has gone round; what it has spawned is a new task. -/
def Sync.transferred (s : Scene) (tasks : List Task) (t : Transfers) : Sync :=
  ⟨s, .transferring t (tasks ++ List.replicate (t.inFlight.length - tasks.length) .new)⟩

/-- The stage goes on unless its last item has stopped the sync. -/
def Sync.after (s : Scene) (r : Traced FetchStats FsOp × Option FetchError)
    (rest : Traced FetchStats FsOp → Stages) : Sync :=
  match r with
  | (x, none) => ⟨s, rest x⟩
  | (_, some e) => ⟨s, .ended (.error e)⟩

/-- One step of `execute`. -/
def Sync.step (storage : Path) (f : Fetcher) (plan : Plan) (s : Sync) (event : SyncEvent) :
    Option Sync :=
  match s.stage, event with
  | .transferring t tasks, .progress =>
    (t.step f .progress).map fun t => .transferred s.scene tasks t
  | .transferring t tasks, .cancelled =>
    (t.step f .cancelled).map fun t => .transferred s.scene tasks t
  | .transferring t tasks, .panicked i =>
    (t.step f (.joined i .panicked)).map fun t => .transferred s.scene (tasks.eraseIdx i) t
  | .transferring t tasks, .joined i => do
    let task ← tasks[i]?
    if task.phase = .over then
      (t.step f (.joined i (.finished task.attempt))).map fun t =>
        .transferred s.scene (tasks.eraseIdx i) t
    else none
  | .transferring t tasks, .task i event => do
    let task ← tasks[i]?
    let d ← t.inFlight[i]?
    let (scene, task) ← task.step (Path.below storage d.2) s.scene event
    pure ⟨scene, .transferring t (tasks.set i task)⟩
  | .transferring t _, .next =>
    if ¬t.inFlight.isEmpty then none
    else if t.cancelled then some ⟨s.scene, .ended (.error .cancelled)⟩
    else some ⟨s.scene, .publishing ⟨t.stats, t.ops⟩ (if t.stats.clean then plan.manifests else [])⟩
  | .publishing x (m :: rest), .item e =>
    let (scene, p) := s.scene.publish (Path.below storage m.1) e
    some (.after scene (publishManifest p m.1 m.2 x) fun x => .publishing x rest)
  | .publishing x [], .next =>
    some ⟨s.scene, .deleting x (if x.state.clean then plan.deletes else [])
      (if x.state.clean then plan.deleteDirs else [])⟩
  | .deleting x (p :: files) dirs, .item e =>
    let (scene, r) := s.scene.deleteFile (Path.below storage p) e
    some (.after scene (removeFile r p x) fun x => .deleting x files dirs)
  | .deleting x [] (p :: dirs), .item e =>
    let (scene, r) := s.scene.deleteDir (Path.below storage p) e
    some (.after scene (removeDir r p x) fun x => .deleting x [] dirs)
  | .deleting x [] [], .next => some ⟨s.scene, .linking x plan.symlinks⟩
  | .linking x (l :: rest), .item e =>
    let (scene, r) := s.scene.link (Path.below storage l.1) l.2 e
    some (.after scene (ensureSymlink r l.1 l.2 x) fun x => .linking x rest)
  | .linking x [], .next => some ⟨s.scene, .ended (.ok x.state)⟩
  | _, _ => none

end Synora.Mirror
