import Synora.Engine.Schedule
import Synora.Lib.Script

namespace Synora.Engine
open Core Db Table Script
open Storage (StatisticsMode)

/-! ## The state a reload works on -/

/-- The columns of `jobs` that mirror the definition. -/
structure JobColumns where
  name : String
  enabled : Bool
  worker : Option String
  provider : ProviderConfig
  upstream : Option String
  storagePath : String
  timeoutSecs : ℤ
  retry : ℕ
  retryDelaySecs : ℤ
  retryBackoff : F64
  successExitCodes : List ℤ
  failOnMatch : Option String
  maxConcurrency : ℕ
  onWorkerLost : OnWorkerLost
  statistics : StatisticsMode
  resources : List String
  priority : ℤ
  updatedAt : Time
deriving DecidableEq, Repr

/-- What `sync_job` writes; a missing timeout is stored as zero. -/
def JobDef.columns (job : JobDef) (now : Time) : JobColumns where
  name := job.name
  enabled := job.spec.enabled
  worker := job.worker
  provider := job.spec.provider
  upstream := job.upstream
  storagePath := job.storage
  timeoutSecs := (job.timeout.map fun t => max t 1).getD 0
  retry := job.spec.retry
  retryDelaySecs := max job.spec.retryDelay 1
  retryBackoff := job.spec.retryBackoff
  successExitCodes := job.spec.successExitCodes
  failOnMatch := job.failOnMatch
  maxConcurrency := job.spec.maxConcurrency
  onWorkerLost := job.spec.onWorkerLost
  statistics := job.statistics
  resources := job.resources
  priority := job.priority
  updatedAt := now

structure EventRow where
  jobId : Option String
  runId : Option String
  level : String
  message : String
deriving DecidableEq, Repr

/-- The row holds the JSON texts of the two definitions. -/
structure HistoryRow where
  ts : Time
  jobName : String
  before : Option JobDef
  after : JobDef
deriving DecidableEq, Repr

/-- The entries of the proxy and egress tables, as texts. -/
structure RoutingSnapshot where
  proxies : List (String × String)
  proxyGroups : List (String × String)
  egresses : List String
  egressGroups : List (String × String)
  defaultProxy : Option String
deriving DecidableEq, Repr

/-- The settings a reload cannot change, as their debug texts. -/
structure Settings where
  db : String
  maxConcurrency : String
  logDir : String
  api : String
  storages : String
  cgroup : String
  snapshotRetention : String
  minFreeBytes : String
  notifications : String
deriving DecidableEq, Repr

/-- In the order in which `reload` compares them. -/
def Settings.fields (s : Settings) : List (String × String) :=
  [("daemon.db", s.db), ("daemon.max_concurrency", s.maxConcurrency),
    ("daemon.log_dir", s.logDir), ("api", s.api), ("storage", s.storages), ("cgroup", s.cgroup),
    ("snapshot.retention", s.snapshotRetention), ("storage.min_free_bytes", s.minFreeBytes),
    ("notification", s.notifications)]

/-- The message for the first setting that differs. -/
def Settings.reject (old new : Settings) : Option String :=
  ((old.fields.zip new.fields).find? fun p => decide (p.1.2 ≠ p.2.2)).map fun p =>
    "reload rejected: `" ++ p.1.1 ++ "` is not hot-reloadable (old " ++ p.1.2 ++ ", new " ++
      p.2.2 ++ ")"

/-- A configuration that loads names every job once. -/
structure ResolvedConfig where
  settings : Settings
  jobs : List JobDef
  routing : RoutingSnapshot
  nodup : (jobs.map JobDef.name).Nodup

/-- The database and the maps of the engine. The two job tables are halves of `jobs`. -/
structure World where
  tables : Tables
  columns : List JobColumns
  schedules : List ScheduleRow
  events : List EventRow
  configHistory : List HistoryRow
  repositories : List String
  liveJobs : List JobDef
  jobLocks : List String
  routing : RoutingSnapshot
  settings : Settings

namespace World

def job (w : World) (name : String) : Option JobDef := lookup JobDef.name name w.liveJobs

def column (w : World) (name : String) : Option JobColumns := lookup JobColumns.name name w.columns

def schedule (w : World) (name : String) : Option ScheduleRow := getSchedule w.schedules name

/-! ## Statements -/

def exec (q : Stmt) (w : World) : World := { w with tables := (q.effect w.tables).2 }

def syncJob (job : JobDef) (now : Time) (w : World) : World :=
  { w with
    tables := (Stmt.effect (.syncJob job.name) w.tables).2
    columns := upsert JobColumns.name (job.columns now)
      (fun old => { job.columns now with name := old.name }) w.columns }

def storeSchedule (cal : Calendar) (job : JobDef) (now : Time) (immediate : Bool) (w : World) :
    World := { w with schedules := syncScheduleRow cal job now immediate w.schedules }

def deleteEvents (name : String) (w : World) : World :=
  { w with events := w.events.filter fun e => decide (e.jobId ≠ some name) }

def deleteHistory (name : String) (w : World) : World :=
  { w with configHistory := w.configHistory.filter fun h => decide (h.jobName ≠ name) }

def deleteSchedule (name : String) (w : World) : World :=
  { w with schedules := Engine.deleteSchedule name w.schedules }

def deleteJob (name : String) (w : World) : World :=
  { w with
    tables := (Stmt.effect (.deleteJob name) w.tables).2
    columns := w.columns.filter fun c => decide (c.name ≠ name) }

/-- The last lines of `purge_job`: a path that no other job uses is forgotten. -/
def deleteRepository (path : String) (w : World) : World :=
  if w.columns.any fun c => decide (c.storagePath = path) then w
  else { w with repositories := w.repositories.filter fun p => decide (p ≠ path) }

def insertEvent (event : EventRow) (w : World) : World :=
  { w with events := w.events ++ [event] }

def insertHistory (row : HistoryRow) (w : World) : World :=
  { w with configHistory := w.configHistory ++ [row] }

/-! ## The maps of the engine -/

def dropLive (name : String) (w : World) : World :=
  { w with
    liveJobs := w.liveJobs.filter fun j => decide (j.name ≠ name)
    jobLocks := w.jobLocks.filter fun n => decide (n ≠ name) }

def insertLive (w : World) (job : JobDef) : World :=
  { w with
    liveJobs := (w.liveJobs.filter fun j => decide (j.name ≠ job.name)) ++ [job]
    jobLocks := if job.name ∈ w.jobLocks then w.jobLocks else w.jobLocks ++ [job.name] }

def setRouting (routing : RoutingSnapshot) (w : World) : World :=
  if w.routing ≠ routing then { w with routing } else w

/-! ## The diff -/

def changedJobs (w : World) (cfg : ResolvedConfig) : List JobDef :=
  cfg.jobs.filter fun job => !(w.job job.name).any fun live => live.eq job

def removed (w : World) (cfg : ResolvedConfig) : List String :=
  (w.liveJobs.map JobDef.name).filter fun n => decide (n ∉ cfg.jobs.map JobDef.name)

end World

/-! ## Scripts -/

open World

/-- `sync_schedule_for`; `id` is the fresh generation. A clock that no `OffsetDateTime` can hold
panics. -/
def syncScheduleFor (cal : Calendar) (job : JobDef) (id : String) (now : Time) (immediate : Bool) :
    List (Op World String) :=
  [.call (exec (.setConfigGeneration job.name id)),
    .check (cal.knownZone job.timezone) ("unknown timezone `" ++ job.timezone ++ "`"),
    .assert (isTimestamp now),
    -- `get_schedule`: the row is read again where it is used, nothing happens in between
    .call (fun w => w),
    .call (storeSchedule cal job now immediate)]

/-- `forget_job_current`, with `purge_job` in it; `path` is the stored path of the job. The cancel
token of a running run is not modelled. -/
def forgetJobCurrent (name : String) (path : Option String) : List (Op World String) :=
  [.check (isJobName name) "invalid job name",
    .attempt (exec (.updateRun (.setCancellingByJob name))),
    .memory (dropLive name),
    .call (fun w => w),
    .call (exec (.deleteLogs name)),
    .call (deleteEvents name),
    .call (deleteHistory name),
    .call (exec (.deleteRuns name)),
    .call (World.deleteSchedule name),
    .call (World.deleteJob name)] ++
  match path with
  | none => []
  | some path => [.call (fun w => w), .attempt (deleteRepository path)]

/-- What one reload takes from outside: the file, the clock, fresh ids and failing calls. -/
structure Reload where
  loaded : Except String ResolvedConfig
  now : Time
  ids : String → String
  /-- The clock as `sync_job` reads it. -/
  stamps : String → Time
  fails : ℕ → Option String

/-- The pass over one changed job. The comparison is not repeated: no line of the loop touches the
live map. -/
def applyChanged (cal : Calendar) (r : Reload) (job : JobDef) : List (Op World String) :=
  .call (exec (.updateRun (.cancelChanged job.name r.now))) ::
    .call (World.syncJob job (r.stamps job.name)) ::
    syncScheduleFor cal job (r.ids job.name) r.now false

def forgetRemoved (w : World) (name : String) : List (Op World String) :=
  forgetJobCurrent name ((w.column name).map JobColumns.storagePath)

def reloadMessage (w : World) (cfg : ResolvedConfig) : String :=
  let changed := w.changedJobs cfg
  let added := (changed.filter fun job => (w.job job.name).isNone).length
  let removed := (w.removed cfg).length
  "config reloaded: " ++ toString added ++ " added, " ++ toString (changed.length - added) ++
    " modified, " ++ toString removed ++ " removed (" ++ toString (changed.length + removed) ++
    " job(s) applied)"

/-- The end of the apply phase: the maps, the history, the routing and the event. -/
def publish (r : Reload) (cfg : ResolvedConfig) (w : World) : List (Op World String) :=
  .memory (fun v => (w.changedJobs cfg).foldl insertLive v) ::
    (w.changedJobs cfg).map (fun job =>
      .attempt (insertHistory ⟨r.now, job.name, w.job job.name, job⟩)) ++
    [.memory (setRouting cfg.routing),
      .attempt (insertEvent ⟨none, none, "INFO", reloadMessage w cfg⟩)]

/-- The apply phase of `reload`, from the world `w` the diff is taken in. -/
def reloadScript (cal : Calendar) (r : Reload) (cfg : ResolvedConfig) (w : World) :
    List (Op World String) :=
  (w.changedJobs cfg).flatMap (applyChanged cal r) ++
    ((w.removed cfg).flatMap (forgetRemoved w) ++ publish r cfg w)

/-- `none` is a panic. -/
def reload (cal : Calendar) (r : Reload) (w : World) : Option (Except String ℕ) × World :=
  match r.loaded with
  | .error e => (some (.error e), w)
  | .ok cfg =>
    match w.settings.reject cfg.settings with
    | some e => (some (.error e), w)
    | none =>
      match run r.fails 0 (reloadScript cal r cfg w) w with
      | (.ok, w') => (some (.ok ((w.changedJobs cfg).length + (w.removed cfg).length)), w')
      | (.err e, w') => (some (.error e), w')
      | (.panicked, w') => (none, w')

/-- A reload that answers `Ok` has run every line. -/
theorem reload_ok {cal : Calendar} {r : Reload} {w w' : World} {n : ℕ}
    (h : reload cal r w = (some (.ok n), w')) :
    ∃ cfg, r.loaded = .ok cfg ∧ run r.fails 0 (reloadScript cal r cfg w) w = (.ok, w') := by
  rw [reload] at h
  cases hl : r.loaded with
  | error e => simp [hl] at h
  | ok cfg =>
    refine ⟨cfg, rfl, ?_⟩
    cases hs : w.settings.reject cfg.settings with
    | some e => simp [hl, hs] at h
    | none =>
      rcases hr : run r.fails 0 (reloadScript cal r cfg w) w with ⟨verdict, v⟩
      cases verdict <;> simp_all

/-- A reload changes nothing, or what its script changes. -/
theorem reload_world (cal : Calendar) (r : Reload) (w : World) :
    (reload cal r w).2 = w ∨ ∃ cfg, r.loaded = .ok cfg ∧
      (reload cal r w).2 = (run r.fails 0 (reloadScript cal r cfg w) w).2 := by
  rw [reload]
  cases r.loaded with
  | error e => exact Or.inl rfl
  | ok cfg =>
    dsimp only
    cases w.settings.reject cfg.settings with
    | some e => exact Or.inl rfl
    | none =>
      refine Or.inr ⟨cfg, rfl, ?_⟩
      rcases run r.fails 0 (reloadScript cal r cfg w) w with ⟨verdict, v⟩
      cases verdict <;> rfl

end Synora.Engine
