import Synora.Config.Schema
import Synora.Engine.Cron
import Synora.Engine.Durations
import Synora.Lib.Slice
import Synora.Storage.Snapshots

namespace Synora.Config
open Core Strings Engine Storage

/-! # Resolving a configuration -/

inductive DbKind
  | sqlite | postgres
deriving DecidableEq, Repr

structure DbConfig where
  kind : DbKind
  path : String
  url : Option String
deriving DecidableEq, Repr

structure DaemonConfig where
  maxConcurrency : ℕ
  db : DbConfig
  logDir : String
  defaultProxy : Option String
  defaultWorker : Option String
deriving DecidableEq, Repr

structure ApiToken where
  name : String
  token : String
  role : String
  permissions : List String
deriving DecidableEq, Repr

structure ApiConfig (Addr : Type) where
  metricsAuth : Bool
  listen : Addr
  tls : TlsDoc
  tokens : List ApiToken
  synoraJsonPath : String
  tunasyncJsonPath : String
  statusFormat : String
deriving DecidableEq, Repr

structure NotificationConfig where
  webhookUrl : Option Text
  alertAfterFailures : ℕ
deriving DecidableEq, Repr

/-- What `resolve_job` makes of a job table: the part the run lifecycle reads, and the rest. -/
structure ResolvedJob where
  spec : JobSpec
  worker : Option String
  upstream : Option Text
  storage : Text
  schedule : ScheduleKind
  timeout : Option ℤ
  failOnMatch : Option String
  misfirePolicy : MisfirePolicy
  timezone : String
  statistics : StatisticsMode
  family : String
  memoryLimit : Option ℕ
  snapshotPolicy : SnapshotPolicy
deriving DecidableEq, Repr

/-- `Sections` stands for the proxies, the egresses, the storages and the cgroup. -/
structure ResolvedConfig (Addr Sections : Type) where
  version : ℕ
  daemon : DaemonConfig
  api : ApiConfig Addr
  jobs : List ResolvedJob
  sections : Sections
  snapshotRetention : RetentionPolicy
  notifications : NotificationConfig
  groups : List (Text × List Text)
  minFreeBytes : Option ℕ
  extras : Toml.Table

/-- What resolving needs from outside. -/
structure Crates (Addr Sections : Type) where
  /-- `SocketAddr::from_str` -/
  socketAddr : String → Option Addr
  /-- `parse_proxies`, `parse_egress`, `parse_storage` and `parse_cgroup`, up to the first error. -/
  sections : RootDoc → Except ConfigError Sections
  /-- `Regex::new`; an error is its text. -/
  regex : String → Except String Unit
  knownTimezone : String → Bool
  /-- `Time::parse` of hours, minutes and seconds; an error is its text. -/
  clockTime : String → Except String ℤ
  /-- `backoff < 1.0` -/
  belowOne : F64 → Bool
  /-- `Display` of an `f64`. -/
  showF64 : F64 → String

/-- An error without a line, of a file that is not one. -/
def refuse {α : Type} (file message : String) : Except Failure α := .error (.error ⟨file, 0, message⟩)

def resolveDb (db : DbDoc) : Except Failure DbConfig :=
  match db.kind with
  | "sqlite" => .ok ⟨.sqlite, db.path, none⟩
  | "postgres" =>
    match db.url with
    | some url => .ok ⟨.postgres, "", some url⟩
    | none => refuse "<config>" "db.kind = \"postgres\" requires db.url"
  | other => refuse "<config>" ("invalid db.kind `" ++ other ++ "`: expected sqlite|postgres")

/-! ## Tokens -/

def tokenTooShort (token : String) : Bool := decide (byteLen token.toList < 32)

def isPlaceholder (token : String) : Bool :=
  contains (toAsciiLowercase token.toList) "change-me".toList

/-- The checks of one token against those taken so far. -/
def checkToken (tokens : List ApiToken) (t : TokenDoc) : Except Failure ApiToken :=
  let refuse (message : String) : Except Failure ApiToken :=
    refuse "<config>" ("api token `" ++ t.name ++ "`: " ++ message)
  if tokenTooShort t.token then
    refuse "token must be at least 32 bytes (e.g. `openssl rand -hex 32`)"
  else if isPlaceholder t.token then refuse "placeholder token is not allowed"
  else if tokens.any fun e => decide (e.token = t.token) then
    refuse "token value must be unique per token"
  else if tokens.any fun e => decide (e.name = t.name) then
    refuse "token name must be unique (worker identity binds to name)"
  else if t.role ∉ ["admin", "operator", "viewer"] then refuse "role must be admin|operator|viewer"
  else .ok ⟨t.name, t.token, t.role, t.permissions⟩

def resolveTokens (tokens : List ApiToken) : List TokenDoc → Except Failure (List ApiToken)
  | [] => .ok tokens
  | t :: docs => do
    let token ← checkToken tokens t
    resolveTokens (tokens ++ [token]) docs

/-! ## Jobs -/

/-- Names that are no path segment. -/
def invalidName (name : Text) : Bool :=
  decide (name = [] ∨ '/' ∈ name ∨ '\\' ∈ name ∨ Char.ofNat 0 ∈ name) ||
    contains name "..".toList

def invalidSegment (segment : Text) : Bool :=
  decide (segment = [] ∨ segment = "..".toList ∨ segment = ".".toList)

/-- Template variables expand to the job name. -/
def expandTemplate (name v : Text) : Text :=
  replace "{{name}}".toList name (replace "{{.Name}}".toList name v)

def parseWeekday (s : String) : Except String Weekday :=
  let lower := String.ofList (toAsciiLowercase s.toList)
  match lower with
  | "sunday" | "sun" => .ok .sunday
  | "monday" | "mon" => .ok .monday
  | "tuesday" | "tue" => .ok .tuesday
  | "wednesday" | "wed" => .ok .wednesday
  | "thursday" | "thu" => .ok .thursday
  | "friday" | "fri" => .ok .friday
  | "saturday" | "sat" => .ok .saturday
  | other => .error ("invalid weekday `" ++ other ++ "`: expected like `Sunday`")

/-- `parse::<u64>` -/
def parseU64 (t : Text) : Option ℕ :=
  let digits := (stripPrefix "+".toList t).getD t
  if digits.isEmpty ∨ ¬digits.all Char.isDigit then none
  else
    let n := digits.foldl (fun n c => n * 10 + digitValue c) 0
    if n < 2 ^ 64 then some n else none

/-- A memory limit in bytes; a bare number counts MiB. -/
def parseMem (m : String) : Except String ℕ :=
  let t := m.toList
  let (num, mult) : Text × ℕ :=
    match t.getLast? with
    | some 'K' => (t.dropLast, 1024)
    | some 'M' => (t.dropLast, 1024 * 1024)
    | some 'G' => (t.dropLast, 1024 ^ 3)
    | some 'T' => (t.dropLast, 1024 ^ 4)
    | _ => (t, 1024 * 1024)
  match parseU64 num with
  | some n => .ok (min (n * mult) (2 ^ 64 - 1))
  | none => .error ("invalid memory_limit `" ++ m ++ "`: expected like `4G` or `512M`")

section
variable {Addr Sections : Type} (crates : Crates Addr Sections)

/-- `parse_time_at` -/
def parseTimeAt (s : String) : Except String ℤ :=
  let withSecs := if (s.toList.splitOn ':').length = 2 then s ++ ":00" else s
  match crates.clockTime withSecs with
  | .ok t => .ok t
  | .error e => .error ("invalid time `" ++ s ++ "`: expected HH:MM[:SS] (" ++ e ++ ")")

variable (entry : JobEntry)

/-- An error at the job. -/
def JobEntry.refuse {α : Type} (message : String) : Except Failure α :=
  .error (.error ⟨entry.file, entry.line, message⟩)

/-- `if bad { return Err(..) }` -/
def JobEntry.check (bad : Bool) (message : String) : Except Failure Unit :=
  if bad then entry.refuse message else .ok ()

def JobEntry.require {α : Type} (field : Option α) (message : String) : Except Failure α :=
  match field with
  | some v => .ok v
  | none => entry.refuse message

def JobEntry.lift {α : Type} : Except String α → Except Failure α
  | .ok v => .ok v
  | .error message => entry.refuse message

/-- `parse_duration_human` at a job, with what its error is prefixed by. -/
def JobEntry.duration (context s : String) : Except Failure ℤ :=
  match parseDurationHuman s.toList with
  | some (.ok d) => .ok d
  | some (.error e) => entry.refuse (context ++ String.ofList e)
  | none => .error .panic

def scheduleKind (kind : String) : Except Failure ScheduleKind :=
  match kind with
  | "cron" => do
    let expr ← entry.require entry.doc.cron "schedule = \"cron\" requires `cron`"
    match parseCronExpr expr.toList with
    | .ok normalized => .ok (.cron (String.ofList normalized))
    | .error e => entry.refuse (String.ofList e)
  | "daily" => do
    let time ← entry.require entry.doc.time "schedule = \"daily\" requires `at`"
    return .daily (← entry.lift (parseTimeAt crates time))
  | "weekly" => do
    let weekday ← entry.require entry.doc.weekday "schedule = \"weekly\" requires `weekday`"
    let time ← entry.require entry.doc.time "schedule = \"weekly\" requires `at`"
    return .weekly (← entry.lift (parseWeekday weekday)) (← entry.lift (parseTimeAt crates time))
  | "interval" => do
    let every ← entry.require entry.doc.every "schedule = \"interval\" requires `every`"
    return .interval (← entry.duration "" every)
  | "manual" => .ok .manual
  | "startup" => .ok .startup
  | other => entry.refuse ("invalid schedule `" ++ other ++
      "`: expected cron|daily|weekly|interval|manual|startup")

/-- The fields a schedule of this kind has. -/
def scheduleFields (kind : String) : List String :=
  match kind with
  | "cron" => ["cron"]
  | "daily" => ["at"]
  | "weekly" => ["weekday", "at"]
  | "interval" => ["every"]
  | _ => []

def resolveSchedule : Except Failure ScheduleKind := do
  let kindStr ← entry.require entry.doc.schedule "missing required field `schedule`"
  let kind ← scheduleKind crates entry kindStr
  let fields := [("cron", entry.doc.cron.isSome), ("at", entry.doc.time.isSome),
    ("weekday", entry.doc.weekday.isSome), ("every", entry.doc.every.isSome)]
  match fields.find? fun f => f.2 && !decide (f.1 ∈ scheduleFields kindStr) with
  | some (field, _) =>
    entry.refuse ("field `" ++ field ++ "` is not valid for schedule = \"" ++ kindStr ++ "\"")
  | none => return kind

/-- The part of `resolve_provider` that can fail, and the kind of the provider. -/
def resolveProvider : Except Failure ProviderConfig := do
  let provider ← entry.require entry.doc.provider "missing required field `provider`"
  match provider with
  | "rsync" =>
    let _ ← entry.require entry.doc.upstream "provider = \"rsync\" requires `upstream`"
    return .rsync
  | "two-stage-rsync" =>
    let _ ← entry.require entry.doc.upstream "provider = \"two-stage-rsync\" requires `upstream`"
    let stage1Profile := entry.doc.stage1Profile.getD "debian"
    if stage1Profile ∉ ["debian", "debian-oldstyle"] then
      entry.refuse ("invalid stage1_profile `" ++ stage1Profile ++
        "`: expected debian|debian-oldstyle")
    else return .twoStageRsync
  | "git" =>
    let _ ← entry.require entry.doc.upstream
      "provider = \"git\" requires `upstream` (repository URL)"
    return .git
  | "script" =>
    let _ ← entry.require entry.doc.command "provider = \"script\" requires `command`"
    return .script
  | "docker" =>
    let _ ← entry.require entry.doc.image "provider = \"docker\" requires `image`"
    return .docker
  | "http" =>
    let parser ← entry.require entry.doc.parser "provider = \"http\" requires `parser`"
    if parser ∉ ["nginx", "apache", "caddy", "s3", "directory-listing", "fallback"] then
      entry.refuse ("unknown parser `" ++ parser ++ "`")
    else return .http
  | other => entry.refuse ("invalid provider `" ++ other ++ "`: expected rsync|script|docker|git|http")

/-- The storage path, with the template expanded. -/
def resolveStorage : Except Failure Text := do
  let raw ← entry.require entry.doc.storage "missing required field `storage`"
  let storage ← match entry.doc.mirrorSubdir with
    | some sub =>
      if (segments sub.toList).any invalidSegment then
        entry.refuse ("invalid mirror_subdir `" ++ sub ++ "` (no .. or empty segments)")
      else .ok (trimEnd isSlash raw.toList ++ '/' :: sub.toList)
    | none => .ok raw.toList
  let path := expandTemplate entry.doc.name.toList storage
  if "..".toList ∈ segments path then
    entry.refuse ("storage path `" ++ String.ofList path ++ "` must not contain `..`")
  else return path

def resolveTimeout : Except Failure (Option ℤ) :=
  match entry.doc.timeout with
  | some (.seconds s) => .ok (some (wrapI64 s))
  | some (.human s) => do return some (← entry.duration "invalid timeout: " s)
  | none => .ok none

def misfirePolicy (s : String) : Except String MisfirePolicy :=
  match s with
  | "skip" => .ok .skip
  | "run-immediately" => .ok .runImmediately
  | "run-next" => .ok .runNext
  | other => .error ("invalid misfire_policy `" ++ other ++
      "`: expected skip|run-immediately|run-next")

def onWorkerLost (s : String) : Except String OnWorkerLost :=
  match s with
  | "retry" => .ok .retry
  | "fail" => .ok .fail
  | other => .error ("invalid on_worker_lost `" ++ other ++ "`: expected retry|fail")

def statisticsMode (s : String) : Except String StatisticsMode :=
  match s with
  | "provider" => .ok .provider
  | "filesystem" => .ok .filesystem
  | other => .error ("invalid statistics `" ++ other ++ "`: expected provider|filesystem")

def addressFamily (s : String) : Except String String :=
  match s with
  | "ipv4" | "ipv6" | "any" => .ok s
  | other => .error ("invalid family `" ++ other ++ "`: expected ipv4|ipv6|any")

def snapshotPolicy (s : String) : Except String SnapshotPolicy :=
  match s with
  | "never" => .ok .never
  | "after-success" => .ok .afterSuccess
  | "before-sync" => .ok .beforeSync
  | "before-and-after" => .ok .beforeAndAfter
  | "manual" => .ok .manual
  | other => .error ("invalid snapshot policy `" ++ other ++
      "`: expected never|after-success|before-sync|before-and-after|manual")

def checkRegex : Except Failure Unit :=
  match entry.doc.failOnMatch.map crates.regex with
  | some (.error e) => entry.refuse ("invalid fail_on_match regex: " ++ e)
  | _ => .ok ()

def resolveMemoryLimit : Except Failure (Option ℕ) :=
  match entry.doc.memoryLimit with
  | some m => do return some (← entry.lift (parseMem m))
  | none => .ok none

def resolveJob : Except Failure ResolvedJob := do
  let doc := entry.doc
  let name := doc.name.toList
  entry.check (invalidName name) ("invalid job name `" ++ doc.name ++
    "`: must be non-empty, no path separators, `..`, or NUL")
  let schedule ← resolveSchedule crates entry
  let provider ← resolveProvider entry
  let storage ← resolveStorage entry
  let timeout ← resolveTimeout entry
  let retryDelay ← entry.duration "invalid retry_delay: " doc.retryDelay
  entry.check (crates.belowOne doc.retryBackoff)
    ("retry_backoff must be >= 1.0, got " ++ crates.showF64 doc.retryBackoff)
  checkRegex crates entry
  let misfirePolicy ← entry.lift (misfirePolicy doc.misfirePolicy)
  let onWorkerLost ← entry.lift (onWorkerLost doc.onWorkerLost)
  entry.check (!crates.knownTimezone doc.timezone) ("unknown timezone `" ++ doc.timezone ++ "`")
  let statistics ← entry.lift (statisticsMode doc.statistics)
  let memoryLimit ← resolveMemoryLimit entry
  let family ← entry.lift (addressFamily doc.family)
  let snapshotPolicy ← entry.lift (snapshotPolicy doc.snapshotPolicy)
  entry.check (doc.dependsOn.any fun dep => decide (dep = doc.name))
    ("job `" ++ doc.name ++ "` cannot depend on itself")
  entry.check ((segments name).any invalidSegment || ".".toList.isPrefixOf name)
    ("invalid job name `" ++ doc.name ++ "` (no `..`, `.`, or leading-dot segments)")
  return {
    spec := {
      name := doc.name, enabled := doc.enabled, provider, retry := doc.retry, retryDelay
      retryBackoff := doc.retryBackoff, successExitCodes := doc.successExitCodes, onWorkerLost
      dependsOn := doc.dependsOn, maxConcurrency := max doc.maxConcurrency 1 }
    worker := doc.worker
    upstream := doc.upstream.map fun u => expandTemplate name u.toList
    storage, schedule, timeout, failOnMatch := doc.failOnMatch, misfirePolicy
    timezone := doc.timezone, statistics, family, memoryLimit, snapshotPolicy }

end

end Synora.Config
