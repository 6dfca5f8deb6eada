import Mathlib.Data.List.Lex
import Mathlib.Data.List.Sort
import Mathlib.Data.Prod.Lex
import Synora.Config.Expand
import Synora.Lib.Table
import Synora.Storage.Locks

namespace Synora.Config
open Strings Mirror Storage

/-! # The files of a configuration -/

def maxIncludeDepth : ℕ := 32

def maxConfigFiles : ℕ := 1024

/-! ## Documents -/

/-- `toml_edit::Item`: an inline table is a value. -/
inductive Item
  | value (v : Toml.Value)
  | table (entries : List (Text × Item))
  | arrayOfTables (tables : List (List (Text × Item)))

abbrev Doc := List (Text × Item)

def Item.asTable : Item → Option Doc
  | .table entries => some entries
  | _ => none

def Item.asArray : Item → Option (List Toml.Value)
  | .value v => v.asArray
  | _ => none

def Item.asArrayOfTables : Item → Option (List Doc)
  | .arrayOfTables tables => some tables
  | _ => none

namespace Doc

def insert (k : Text) (v : Item) (d : Doc) : Doc :=
  Table.upsert Prod.fst (k, v) (fun e => (e.1, v)) d

def remove (k : Text) (d : Doc) : Doc := d.filter fun e => decide (e.1 ≠ k)

end Doc

mutual

/-- What an entry of the later file becomes where the earlier one has `old`. -/
def mergeItem (old : Item) : Item → Item
  | .table src =>
    match old.asTable with
    | some dst => .table (mergeTable dst src)
    | none => .table src
  | .value v => .value v
  | .arrayOfTables tables => .arrayOfTables tables

def mergeTable (dst : Doc) : Doc → Doc
  | [] => dst
  | (k, v) :: src =>
    mergeTable (Doc.insert k (match dst.lookup k with
      | some old => mergeItem old v
      | none => v) dst) src

end

def mergeDoc (dst : Option Doc) (src : Doc) : Doc :=
  match dst with
  | none => src
  | some d => mergeTable d src

/-! ## What the loader finds -/

/-- A document as it is parsed, with the lines of its `[[jobs]]` tables, of its `name` and of its
`include`. -/
structure Parsed where
  doc : Doc
  jobSpans : List ℕ
  nameSpan : Option ℕ
  includeSpan : Option ℕ

/-- The environment, the file system and the TOML crates. -/
structure Host where
  env : Text → Option Text
  /-- The text of a file, up to the first byte over the limit. -/
  read : Path → Option Text
  present : Path → Bool
  canonicalize : Path → Option Path
  glob : Text → Except Text (List (Except Text Path))
  /-- An error with its line. -/
  parse : Text → Except ℕ Parsed
  /-- The errors of `serde`, with their messages. -/
  jobOfTable : Doc → Except Text JobDoc
  jobOfDocument : Doc → Except Text JobDoc
  root : Doc → Except Text RootDoc

structure CachedDocument where
  raw : Text
  expanded : Text
  doc : Doc
  jobLines : List ℕ
  includeLine : ℕ

def jobLineNumbers (p : Parsed) : List ℕ :=
  (if ((p.doc.lookup "jobs".toList).bind Item.asArrayOfTables).isSome then p.jobSpans else []) ++
    if (p.doc.lookup "provider".toList).isSome then [p.nameSpan.getD 1] else []

/-- `safe_parse_error` -/
def safeParseError (message : Text) : String :=
  let field (pre : Text) : Option String := (splitOnce pre message).bind fun rest =>
    let name := rest.2.takeWhile fun c => decide (c ≠ '`')
    if byteLen name < 128 ∧ ∀ c ∈ name, c.isAlphanum ∨ c = '_' then
      some (String.ofList (pre ++ name ++ ['`']))
    else none
  ((field "unknown field `".toList).or (field "missing field `".toList)).getD
    "invalid configuration value (source omitted to protect secrets)"

section
variable (host : Host)

def readDocument (path : Path) (file : String) : Except ConfigError CachedDocument :=
  match host.read path with
  | none => .error ⟨file, 0, "cannot read config file"⟩
  | some raw =>
    if maxConfigBytes < byteLen raw then .error ⟨file, 0, "configuration exceeds 16 MiB"⟩
    else match expandEnv host.env file raw with
      | .error e => .error e
      | .ok expanded =>
        match host.parse expanded with
        | .error line =>
          .error ⟨file, line, "TOML syntax error (source omitted to protect secrets)"⟩
        | .ok p => .ok ⟨raw, expanded, p.doc, jobLineNumbers p, p.includeSpan.getD 0⟩

/-- `extract_include`, with the document that is left. -/
def extractInclude (doc : Doc) (file : String) (line : ℕ) :
    Except ConfigError (List Text × Doc) :=
  match doc.lookup "include".toList with
  | none => .ok ([], doc)
  | some item =>
    match item.asArray with
    | none => .error ⟨file, line, "`include` must be an array of paths"⟩
    | some items =>
      match items.mapM Toml.Value.asStr with
      | none => .error ⟨file, line, "`include` entries must be strings"⟩
      | some patterns => .ok (patterns, doc.remove "include".toList)

/-- The `[[jobs]]` tables from the index `idx` on. -/
def extractTables (file : String) (line : ℕ) (jobLines : List ℕ) :
    ℕ → List Doc → Except ConfigError (List JobEntry)
  | _, [] => .ok []
  | idx, t :: tables =>
    let jobLine := jobLines[idx]?.getD line
    match host.jobOfTable t with
    | .error e => .error ⟨file, jobLine, safeParseError e⟩
    | .ok doc => (extractTables file line jobLines (idx + 1) tables).map (⟨doc, file, jobLine⟩ :: ·)

/-- The first half of `extract_jobs`. -/
def extractArray (doc : Doc) (file : String) (jobLines : List ℕ) :
    Except ConfigError (List JobEntry × Doc) :=
  match doc.lookup "jobs".toList with
  | none => .ok ([], doc)
  | some item =>
    let line := jobLines.head?.getD 0
    match item.asArrayOfTables with
    | none => .error ⟨file, line, "`jobs` must be an array of tables"⟩
    | some tables =>
      (extractTables host file line jobLines 0 tables).map (·, doc.remove "jobs".toList)

/-- `extract_jobs`, with the document that is left. -/
def extractJobs (doc : Doc) (file : String) (jobLines : List ℕ) :
    Except ConfigError (List JobEntry × Doc) :=
  match extractArray host doc file jobLines with
  | .error e => .error e
  | .ok (jobs, doc) =>
    if (doc.lookup "provider".toList).isSome then
      let line := jobLines.getLast?.getD 1
      match host.jobOfDocument doc with
      | .error e => .error ⟨file, line, safeParseError e⟩
      | .ok job => .ok (jobs ++ [⟨job, file, line⟩], [])
    else .ok (jobs, doc)

/-! ## Paths -/

inductive Component
  | rootDir
  | curDir
  | parentDir
  | normal (name : OsName)
deriving DecidableEq

/-- `path.components()`, by which paths are compared. -/
def componentsOf (p : Path) : List Component :=
  (if Path.isAbsolute p then [.rootDir]
    else if p.head? = some (.text ".".toList) then [.curDir] else []) ++
  p.normal.map fun n => if n = .text "..".toList then .parentDir else .normal n

/-- The order of `Component`. -/
def Component.rank : Component → ℕ × List ℕ
  | .rootDir => (0, [])
  | .curDir => (1, [])
  | .parentDir => (2, [])
  | .normal (.text t) => (3, (Utf8.encode t).map UInt8.toNat)
  | .normal (.other b) => (3, b.map UInt8.toNat)

def pathOrder (p q : Path) : Prop :=
  ((componentsOf p).map fun c => toLex c.rank) ≤ (componentsOf q).map fun c => toLex c.rank

instance : DecidableRel pathOrder := fun _ _ => inferInstanceAs (Decidable (_ ≤ _))

/-- The files a pattern matches; more than the limit are refused when the first of them comes up. -/
def collectGlob (pattern : Text) (file : String) :
    List Path → List (Except Text Path) → Except ConfigError (List Path)
  | out, [] => .ok out
  | _, .error e :: _ =>
    .error ⟨file, 0, String.ofList ("include pattern `".toList ++ pattern ++ "`: ".toList ++ e)⟩
  | out, .ok p :: entries =>
    if maxConfigFiles ≤ out.length then .error ⟨file, 0, "include pattern exceeds 1024 files"⟩
    else collectGlob pattern file (out ++ [p]) entries

def resolveInclude (pattern : Text) (base : Path) (file : String) :
    Except ConfigError (List Path) :=
  let full := if Path.isAbsolute (Path.ofText pattern) then Path.ofText pattern
    else base.join (Path.ofText pattern)
  if '*' ∈ pattern ∨ '?' ∈ pattern ∨ '[' ∈ pattern then
    match full.mapM OsName.toStr with
    | none =>
      .error ⟨file, 0, String.ofList ("include pattern is not valid UTF-8: ".toList ++ pattern)⟩
    | some segs =>
      match host.glob (unsegments segs) with
      | .error e => .error ⟨file, 0, String.ofList
          ("bad include pattern `".toList ++ pattern ++ "`: ".toList ++ e)⟩
      | .ok entries =>
        match collectGlob pattern file [] entries with
        | .error e => .error e
        | .ok [] => .error ⟨file, 0, String.ofList
            ("include pattern `".toList ++ pattern ++ "` matched no files".toList)⟩
        | .ok out => .ok (out.insertionSort pathOrder)
  else if host.present full then .ok [full]
  else .error ⟨file, 0, String.ofList ("included file not found: ".toList ++ display full)⟩

/-! ## Loading -/

/-- A file that has been loaded, with its place in the nesting. -/
structure Visit where
  path : Path
  depth : ℕ
  size : ℕ
deriving DecidableEq

/-- `LoadState` with the merged document; `visits` is a record for the proofs. -/
structure LoadState where
  files : ℕ
  bytes : ℕ
  stack : List Path
  jobs : List JobEntry
  connectionOnly : Bool
  merged : Option Doc
  visits : List Visit

def LoadState.start (connectionOnly : Bool) : LoadState := ⟨0, 0, [], [], connectionOnly, none, []⟩

/-- `state.stack.contains(path)` -/
def LoadState.onStack (s : LoadState) (path : Path) : Prop :=
  ∃ p ∈ s.stack, componentsOf p = componentsOf path

instance (s : LoadState) (path : Path) : Decidable (s.onStack path) :=
  inferInstanceAs (Decidable (∃ p ∈ s.stack, _))

/-- `usize::saturating_add` -/
def saturatingAdd (a b : ℕ) : ℕ := min (a + b) (2 ^ 64 - 1)

/-- The jobs of a document and the rest of it; a client only drops the jobs. -/
def takeJobs (connectionOnly : Bool) (doc : Doc) (file : String) (jobLines : List ℕ) :
    Except ConfigError (List JobEntry × Doc) :=
  if connectionOnly then
    let doc := doc.remove "jobs".toList
    .ok ([], if (doc.lookup "provider".toList).isSome then [] else doc)
  else extractJobs host doc file jobLines

/-- `load_file` up to its includes, with what it includes. -/
def enter (path : Path) (depth : ℕ) (s : LoadState) : Except ConfigError (LoadState × List Text) :=
  let file := String.ofList (display path)
  if maxIncludeDepth < depth then .error ⟨file, 0, "include nesting too deep (cycle?)"⟩
  else if s.onStack path then
    .error ⟨file, 0, String.ofList ("include cycle detected at ".toList ++ display path)⟩
  else if maxConfigFiles < s.files + 1 then
    .error ⟨file, 0, "too many included files (limit 1024)"⟩
  else match readDocument host path file with
    | .error e => .error e
    | .ok cached =>
      if maxConfigBytes < saturatingAdd s.bytes (byteLen cached.raw) then
        .error ⟨file, 0, "configuration exceeds 16 MiB"⟩
      else if maxConfigBytes < saturatingAdd s.bytes (byteLen cached.expanded) then
        .error ⟨file, 0, "expanded configuration exceeds 16 MiB"⟩
      else match extractInclude cached.doc file cached.includeLine with
        | .error e => .error e
        | .ok (patterns, doc) =>
          match takeJobs host s.connectionOnly doc file cached.jobLines with
          | .error e => .error e
          | .ok (jobs, doc) =>
            .ok ({ s with
              files := s.files + 1
              bytes := saturatingAdd s.bytes (byteLen cached.expanded)
              stack := path :: s.stack
              jobs := s.jobs ++ jobs
              merged := some (mergeDoc s.merged doc)
              visits := s.visits ++ [⟨path, depth, byteLen cached.expanded⟩] }, patterns)

/-- `for a in as { f(a)?; }`, as far as the calls come to their end. -/
def each {α S E : Type} (f : α → S → Option (Except E S)) : List α → S → Option (Except E S)
  | [], s => some (.ok s)
  | a :: as, s =>
    match f a s with
    | some (.ok s) => each f as s
    | r => r

/-- `resolve_include` as `load_file` calls it for a pattern of the file at `path`. -/
def included (path : Path) (pattern : Text) : Except ConfigError (List Path) :=
  resolveInclude host pattern ((parent path).getD (Path.ofText ".".toList))
    (String.ofList (display path))

/-- The files of one pattern. -/
def includePattern (path : Path)
    (load : Path → LoadState → Option (Except ConfigError LoadState)) (pattern : Text)
    (s : LoadState) : Option (Except ConfigError LoadState) :=
  match included host path pattern with
  | .error e => some (.error e)
  | .ok files => each load files s

/-- The loop over what a file includes. -/
def includeAll (path : Path) (load : Path → LoadState → Option (Except ConfigError LoadState)) :
    List Text → LoadState → Option (Except ConfigError LoadState) :=
  each (includePattern host path load)

/-- `load_file`; `none` where the fuel does not last to its end. -/
def loadFile : ℕ → Path → ℕ → LoadState → Option (Except ConfigError LoadState)
  | 0, _, _, _ => none
  | fuel + 1, path, depth, s =>
    match enter host path depth s with
    | .error e => some (.error e)
    | .ok (s, patterns) =>
      match includeAll host path (fun f s => loadFile fuel f (depth + 1) s) patterns s with
      | some (.ok s) => some (.ok { s with
          stack := s.stack.filter fun p => decide (componentsOf p ≠ componentsOf path) })
      | r => r

/-- `load_documents` -/
def loadDocuments (fuel : ℕ) (path : Path) (connectionOnly : Bool) :
    Option (Except ConfigError (RootDoc × List JobEntry)) :=
  match host.canonicalize path with
  | none => some (.error ⟨String.ofList (display path), 0, "cannot read config"⟩)
  | some main =>
    match loadFile host fuel main 0 (.start connectionOnly) with
    | none => none
    | some (.error e) => some (.error e)
    | some (.ok s) =>
      match host.root (s.merged.getD []) with
      | .error e => some (.error ⟨"<config>", 0, safeParseError e⟩)
      | .ok root => some (.ok (root, s.jobs))

end

end Synora.Config
