import Synora.Mirror.LocalTree

namespace Synora.Mirror
open Strings Utf8

def maxEntries : ℕ := 1000000

def maxDepth : ℕ := 16

inductive FetchError
  | http (message : Text)
  | httpStatus (code : ℕ)
  | io (message : Text)
  | cancelled
deriving DecidableEq, Repr

/-- A planned sync. -/
structure Plan where
  downloads : List (Text × Path)
  deletes : List Path
  deleteDirs : List Path
  symlinks : List (Path × Text)
  manifests : List (Path × Bytes)
  sizeSum : ℕ
  sizeUnknown : Bool
  totalSizeHint : Option ℕ
  incomplete : Bool
deriving DecidableEq, Repr

def Plan.default : Plan := ⟨[], [], [], [], [], 0, false, none, false⟩

structure DirectoryWork where
  url : Text
  rel : Text
  depth : ℕ
  root : Bool
deriving DecidableEq, Repr

/-- Join a URL and a listing-relative path with exactly one slash. -/
def join (base path : Text) : Text :=
  trimEnd isSlash base ++ "/".toList ++ trimStart isSlash path

def joinSlash (base path : Text) : Text :=
  let url := join base path
  if "/".toList.isSuffixOf url then url else url ++ "/".toList

/-- Entry paths stay inside the mirror: relative only, no `..` segment. -/
def isSafeRel (path : Text) : Bool :=
  !path.isEmpty && !decide (path = ".".toList) && !"/".toList.isPrefixOf path &&
    !decide ("..".toList ∈ segments path)

/-! ## RPM manifests -/

def Xml.hasTagName (name : Text) : Xml → Bool
  | .element tag _ _ => decide (tag = name)
  | .text _ => false

def Xml.children : Xml → List Xml
  | .element _ _ children => children
  | .text _ => []

def Xml.attribute (name : Text) : Xml → Option Text
  | .element _ attributes _ =>
    (attributes.find? fun a => decide (a.1 = name)).map Prod.snd
  | .text _ => none

/-- The text of the first child. -/
def Xml.textContent : Xml → Option Text
  | .element _ _ (.text content :: _) => some content
  | _ => none

/-- The entry of one `<data>` element. -/
def rpmDataEntry (data : Xml) : Except FetchError Entry := do
  let location := data.children.find? (Xml.hasTagName "location".toList)
  let href ← match location.bind (Xml.attribute "href".toList) with
    | some href => .ok href
    | none => .error (.http "RPM location missing".toList)
  let name ← match (stripPrefix "repodata/".toList href).filter fun p =>
      !decide ('/' ∈ p) && isSafeRel p with
    | some name => .ok name
    | none => .error (.http "unsafe RPM metadata path".toList)
  if name = "repomd.xml".toList then .error (.http "recursive RPM manifest".toList)
  else
    let size := (data.children.find? (Xml.hasTagName "size".toList)).bind fun n =>
      n.textContent.bind parseU64
    .ok ⟨name, size, none, .file, none⟩

def rpmManifestEntries (ext : Externals) (body : Bytes) : Except FetchError (List Entry) :=
  match (fromUtf8 body).bind ext.parseXml with
  | none => .error (.http [])
  | some root =>
    if ¬root.hasTagName "repomd".toList then .error (.http "invalid RPM manifest".toList)
    else do
      let datas := root.children.filter (Xml.hasTagName "data".toList)
      let entries ← datas.mapM rpmDataEntry
      if ¬(datas.any fun d => decide (d.attribute "type".toList = some "primary".toList)) ∨
          entries.isEmpty then .error (.http "RPM primary metadata missing".toList)
      else .ok entries

/-! ## The crawl -/

/-- `symlink_metadata` as far as `local_matches` reads it. -/
structure Metadata where
  isFile : Bool
  len : ℕ
  modified : Option DateTime
deriving DecidableEq, Repr

/-- The fetcher, the arguments of `plan_inner` and what it reads of the file system. -/
structure Env where
  ext : Externals
  parser : IndexParser
  storage : Path
  excludes : List ExcludePattern
  threads : ℕ
  delete : Bool
  metadata : Path → Option Metadata
  root : Node

def localMatches (env : Env) (dest : Path) (entry : Entry) : Bool :=
  match env.metadata dest with
  | none => false
  | some m =>
    -- whatever stands there and is no regular file is left as it is
    if !m.isFile then true
    else match entry.size with
      | some size => decide (size = m.len)
      | none => decide (entry.modified.isSome ∧ entry.modified = m.modified)

/-- A listing that was fetched and handed to the parser. -/
structure Listing where
  work : DirectoryWork
  body : Bytes
deriving DecidableEq, Repr

def DirectoryWork.isManifest (w : DirectoryWork) : Bool :=
  "/repodata".toList.isSuffixOf (trimEnd isSlash w.url)

def Listing.entries (env : Env) (l : Listing) : Except FetchError (List Entry) :=
  if l.work.isManifest then rpmManifestEntries env.ext l.body
  else .ok (env.parser.parse env.ext l.body)

/-- The storage-relative path of an entry. -/
def relOf (w : DirectoryWork) (e : Entry) : Text :=
  if w.rel.isEmpty then e.path else w.rel ++ "/".toList ++ e.path

def keyOf (w : DirectoryWork) (e : Entry) : Text := trimEnd isSlash (relOf w e)

def manifestKey (w : DirectoryWork) : Text :=
  if w.rel.isEmpty then "repomd.xml".toList
  else trimEnd isSlash w.rel ++ "/repomd.xml".toList

structure Crawl where
  plan : Plan
  remote : List Text
  pending : List DirectoryWork
  /-- The listing tasks in flight. -/
  listings : List DirectoryWork
  seen : ℕ
  listingFailed : Bool
  entryCapReached : Bool
  /-- Every listing whose entries were read, in order. -/
  consumed : List Listing
deriving DecidableEq, Repr

def Crawl.start (baseUrl : Text) (depth : ℕ) : Crawl :=
  ⟨.default, [], [⟨baseUrl, [], min depth maxDepth, true⟩], [], 0, false, false, []⟩

/-- What a new entry adds to the plan and to the queue. -/
def Crawl.enqueue (env : Env) (w : DirectoryWork) (e : Entry) (c : Crawl) : Crawl :=
  match e.kind with
  | .dir =>
    if w.depth = 0 then { c with plan := { c.plan with incomplete := true } }
    else { c with pending := c.pending ++ [⟨joinSlash w.url e.path, keyOf w e, w.depth - 1, false⟩] }
  | .file =>
    let plan := match e.size with
      | some size => { c.plan with sizeSum := (c.plan.sizeSum + size) % 2 ^ 64 }
      | none => { c.plan with sizeUnknown := true }
    let dest := env.storage.join (Path.ofText (relOf w e))
    if localMatches env dest e then { c with plan }
    else { c with plan := { plan with downloads := plan.downloads ++ [(join w.url e.path, dest)] } }
  | .symlink =>
    let target := match e.symlinkTarget with
      | some target => if isSafeRel target then target else trimEnd isSlash e.path
      | none => trimEnd isSlash e.path
    let dest := env.storage.join (Path.ofText (keyOf w e))
    { c with plan := { c.plan with symlinks := c.plan.symlinks ++ [(dest, target)] } }

/-- The body of the entry loop, below the cap. -/
def Crawl.visit (env : Env) (w : DirectoryWork) (c : Crawl) (e : Entry) : Crawl :=
  -- an unsafe entry is dropped without a trace: it is not even counted
  if !isSafeRel e.path then c
  else if isExcluded env.ext env.excludes (keyOf w e) then c
  else if keyOf w e ∈ c.remote then { c with seen := c.seen + 1 }
  else Crawl.enqueue env w e
    { c with seen := c.seen + 1, remote := c.remote ++ [keyOf w e] }

def Crawl.visitAll (env : Env) (w : DirectoryWork) (c : Crawl) : List Entry → Crawl
  | [] => c
  | e :: es =>
    if maxEntries ≤ c.seen then
      -- the tasks in flight are aborted
      { c with
        plan := { c.plan with incomplete := true }
        pending := [], listings := [], entryCapReached := true }
    else Crawl.visitAll env w (c.visit env w e) es

/-- A consumed listing; the manifest of an RPM repository is remembered as it was fetched. -/
def Crawl.consume (env : Env) (c : Crawl) (l : Listing) : Except FetchError Crawl := do
  let entries ← l.entries env
  let c := { c with consumed := c.consumed ++ [l] }
  if l.work.isManifest then
    let key := manifestKey l.work
    .ok (Crawl.visitAll env l.work { c with
      remote := c.remote ++ [key]
      plan := { c.plan with
        manifests := c.plan.manifests ++ [(env.storage.join (Path.ofText key), l.body)] } } entries)
  else .ok (c.visitAll env l.work entries)

/-- How a listing task ends. -/
inductive Joined
  | panicked
  | failed (e : FetchError)
  | fetched (body : Bytes)
deriving DecidableEq, Repr

inductive Event
  | cancelled
  | joined (task : ℕ) (result : Joined)
deriving DecidableEq, Repr

def Crawl.fail (c : Crawl) : Crawl :=
  { c with plan := { c.plan with incomplete := true }, listingFailed := true }

/-- One round of the loop after the `select!`; `none` when there is no such task. -/
def Crawl.onEvent (env : Env) (c : Crawl) : Event → Option (Except FetchError Crawl)
  | .cancelled => some (.error .cancelled)
  | .joined task result =>
    c.listings[task]?.map fun work =>
      let c := { c with listings := c.listings.eraseIdx task }
      match result with
      | .panicked => .ok c.fail
      | .failed .cancelled => .error .cancelled
      -- a subdirectory that fails only spoils the deletes
      | .failed e => if work.root then .error e else .ok c.fail
      | .fetched body => c.consume env ⟨work, body⟩

/-- `listings` is filled from the queue up to the concurrency limit. -/
def Crawl.fill (env : Env) (c : Crawl) : Crawl :=
  let free := max 1 (min env.threads 64) - c.listings.length
  { c with
    listings := c.listings ++ c.pending.take free
    pending := c.pending.drop free }

/-- The planning loop, driven by the order in which its tasks end; `none` unless the events are
those of a whole run. -/
def Crawl.run (env : Env) (c : Crawl) : List Event → Option (Except FetchError Crawl)
  | [] => if (c.fill env).listings.isEmpty then some (.ok (c.fill env)) else none
  | event :: events =>
    if (c.fill env).listings.isEmpty then none
    else match (c.fill env).onEvent env event with
      | none => none
      | some (.error e) => some (.error e)
      | some (.ok c) =>
        if ¬c.entryCapReached then Crawl.run env c events
        else if events.isEmpty then some (.ok c) else none

/-- What `plan_inner` does after its loop. -/
def Crawl.finish (env : Env) (c : Crawl) : Except FetchError Plan :=
  let hint := if c.plan.sizeUnknown then none else some c.plan.sizeSum
  if env.delete ∧ c.listingFailed then
    .error (.http
      "subdirectory listing failed; refusing delete to avoid wiping the mirror".toList)
  else if env.delete ∧ ¬c.plan.incomplete then
    match walk (isExcluded env.ext env.excludes) env.root with
    | none => .error (.io [])
    | some w =>
      let extras := localExtras env.storage c.remote w
      .ok { c.plan with
        deletes := extras.1, deleteDirs := extras.2, totalSizeHint := hint }
  else .ok { c.plan with totalSizeHint := hint }

/-- `plan_inner`, with the crawl it has made. -/
def planInner (env : Env) (baseUrl : Text) (depth : ℕ) (events : List Event) :
    Option (Except FetchError (Crawl × Plan)) :=
  (Crawl.run env (.start baseUrl depth) events).map fun r => do
    let c ← r
    let plan ← c.finish env
    pure (c, plan)

end Synora.Mirror
