import Synora.Lib.Slice
import Synora.Lib.TomlText

namespace Synora.Config
open Strings Toml

/-! # Deleting a job from a configuration file

The text is rewritten without a TOML parser. `none` is a panic at a slice. -/

def jobsHeader : Text := "[[jobs]]".toList

def needle (jobName : Text) : Text := "name = \"".toList ++ jobName ++ "\"".toList

/-- `str::split` at a pattern that is not empty. -/
def splitAll (pat : Text) : ℕ → Text → List Text
  | 0, t => [t]
  | fuel + 1, t =>
    match splitOnce pat t with
    | none => [t]
    | some (before, rest) => before :: splitAll pat fuel rest

/-- The lines that end a deleted job: headers that are not spelled as the job's own. -/
def startsSection (line : Text) : Bool :=
  let t := trim line
  "[".toList.isPrefixOf t && !"[jobs.".toList.isPrefixOf t && !jobsHeader.isPrefixOf t

/-- The loop of `trailing_non_job`. -/
def trailingFrom (part : Text) : ℕ → ℕ → List Text → Option (Option Text)
  | _, _, [] => some none
  | i, offset, line :: ls =>
    if 0 < i ∧ startsSection line then (sliceFrom part offset).map some
    else
      let offset := offset + byteLen line
      trailingFrom part (i + 1) (if offset < byteLen part then offset + 1 else offset) ls

/-- After a deleted job block, keep a following top-level section. -/
def trailingNonJob (part : Text) : Option (Option Text) := trailingFrom part 0 0 (lines part)

/-- What is left of the parts, and whether a job was removed. -/
def rebuild (pat : Text) : List Text → Option (Text × Bool)
  | [] => some ([], false)
  | part :: parts =>
    if contains part pat then do
      let rest ← trailingNonJob part
      let (text, _) ← rebuild pat parts
      pure (rest.getD [] ++ text, true)
    else do
      let (text, removed) ← rebuild pat parts
      pure (jobsHeader ++ part ++ text, removed)

/-- The lines that `collapse_blank_lines` keeps. -/
def keptLines : ℕ → List Text → List Text
  | _, [] => []
  | blanks, line :: ls =>
    if (trim line).isEmpty then
      if blanks + 1 > 1 then keptLines (blanks + 1) ls else line :: keptLines (blanks + 1) ls
    else line :: keptLines 0 ls

def collapseBlankLines (text : Text) : Text :=
  (keptLines 0 (lines text)).flatMap (· ++ ['\n'])

def stripJobBlocks (text jobName : Text) : Option (Option Text) :=
  match splitAll jobsHeader text.length text with
  | [] | [_] => some none
  | first :: parts => do
    let (text, removed) ← rebuild (needle jobName) parts
    pure (if removed then some (collapseBlankLines (first ++ text)) else none)

/-! ## What a configuration says -/

def jobsKey : Text := "jobs".toList

/-- The statement opens a new job. -/
def isJob : Expr → Bool
  | .arrayTable path => decide (path = [jobsKey])
  | _ => false

/-- A header below `jobs`: it belongs to the last job. -/
def underJobs : Expr → Bool
  | .table path | .arrayTable path => decide (path.head? = some jobsKey)
  | _ => false

/-- Statements, sorted. -/
structure Sections where
  /-- Those of the sections that are no jobs. -/
  rest : List Expr
  /-- Those that still belong to the job before. -/
  own : List Expr
  jobs : List (List Expr)

/-- `inJob` is `none` before the first job. -/
def sections : Option Bool → List Expr → Sections
  | _, [] => ⟨[], [], []⟩
  | inJob, e :: es =>
    if isJob e then
      let p := sections (some true) es
      ⟨p.rest, [], p.own :: p.jobs⟩
    else
      let inJob := if e.isHeader then inJob.map fun _ => underJobs e else inJob
      let p := sections inJob es
      if inJob = some true then { p with own := e :: p.own } else { p with rest := e :: p.rest }

structure Document where
  /-- All sections but the jobs. -/
  rest : Table
  jobs : List Table

/-- The document that statements make up. `jobs` cannot be defined in two ways. -/
def document (r : Reader) (es : List Expr) : Option Document := do
  let p := sections none es
  let rest ← r.build p.rest
  let jobs ← p.jobs.mapM r.build
  if !jobs.isEmpty && rest.any fun entry => decide (entry.1 = jobsKey) then none
  else pure ⟨rest, jobs⟩

def denote (r : Reader) (text : Text) : Option Document := (r.read text).bind (document r)

def jobName (job : Table) : Option Text :=
  (job.find? fun entry => decide (entry.1 = "name".toList)).bind fun entry =>
    match entry.2 with
    | .string name => some name
    | _ => none

/-- The document without the jobs of that name. -/
def Document.without (d : Document) (name : Text) : Document :=
  { d with jobs := d.jobs.filter fun job => !decide (jobName job = some name) }

/-! ## Layouts that the rewriting understands -/

variable (r : Reader) (name : Text)

/-- The statements are those of a job of that name. -/
def Named (job : List Expr) : Prop := (r.build job).bind jobName = some name

instance : DecidablePred (Named r name) := fun job =>
  inferInstanceAs (Decidable ((r.build job).bind jobName = some name))

/-- A section that follows the job of that name, with the bytes that were counted behind the job:
the loop adds one byte for each line end. -/
structure Cut (own blank rest : Text) : Prop where
  job : ∃ es, r.read (jobsHeader ++ (own ++ blank)) = some es ∧
    ∃ job ∈ (sections none es).jobs, Named r name job
  closed : Closed (jobsHeader ++ (own ++ blank))
  before : ∀ line ∈ (lines (own ++ blank)).tail, startsSection line = false
  follows : ∃ line ls, lines rest = line :: ls ∧ startsSection line = true
  offset : byteLen own = ((lines (own ++ blank)).map fun line => byteLen line + 1).sum
  /-- What is kept of the job says nothing. -/
  blank : Closed blank ∧ r.readLines true (lines blank) = some []
  /-- The sections do not go on with the deleted job. -/
  rest : ∃ es, r.readLines true (lines rest) = some es ∧
    (∀ e ∈ es.takeWhile (!isJob ·), underJobs e = false) ∧
    ∀ job ∈ (sections none es).jobs, ¬Named r name job

/-- What stands between one `[[jobs]]` and the next. -/
inductive Block (text : Text) : Prop
  | stays (es : List Expr) : contains text (needle name) = false →
      r.readLines true (lines (jobsHeader ++ text)) = some es →
      (∀ job ∈ (sections none es).jobs, ¬Named r name job) → Block text
  | goes (es : List Expr) : contains text (needle name) = true →
      r.read (jobsHeader ++ text) = some es →
      (∃ job ∈ (sections none es).jobs, Named r name job) →
      (∀ line ∈ (lines text).tail, startsSection line = false) → Block text
  | cut (own blank rest : Text) : contains text (needle name) = true →
      text = own ++ (blank ++ rest) → Cut r name own blank rest → Block text

/-- The parts that the text is split into start with job headers, indented or not. -/
inductive Blocks : List Text → Prop
  | nil : Blocks []
  | last (text : Text) : Block r name text → Blocks [text]
  | cons (text indent : Text) (parts : List Text) : Block r name text →
      Closed (jobsHeader ++ text) → indent.all isIndent → Blocks parts →
      Blocks ((text ++ indent) :: parts)

/-- The text before the first job, and the jobs. -/
def Tidy (text : Text) : Prop :=
  ∃ lead indent parts es, splitAll jobsHeader text.length text = (lead ++ indent) :: parts ∧
    Closed lead ∧ indent.all isIndent ∧ r.readLines true (lines lead) = some es ∧
    (∀ job ∈ (sections none es).jobs, ¬Named r name job) ∧ Blocks r name parts

/-- No job is deleted, and none has the name. -/
def Untouched (text : Text) : Prop :=
  (∀ part ∈ (splitAll jobsHeader text.length text).tail, contains part (needle name) = false) ∧
    ∀ doc, denote r text = some doc → ∀ job ∈ doc.jobs, jobName job ≠ some name

end Synora.Config
