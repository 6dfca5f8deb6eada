import Synora.Config.Resolve

namespace Synora.Config
open Core Strings Engine Storage

/-! # `ConfigLoader::load` -/

section
variable {Addr Sections : Type} (crates : Crates Addr Sections)

/-- A job without a worker of its own is bound to the default one. -/
def ResolvedJob.bindWorker (job : ResolvedJob) (defaultWorker : Option String) : ResolvedJob :=
  if trim (job.worker.getD "").toList = [] then { job with worker := defaultWorker } else job

/-- The loop over the jobs; `seen` tells where each name was first defined. -/
def resolveJobs (defaultWorker : Option String) (seen : List (String × String × ℕ)) :
    List JobEntry → Except Failure (List ResolvedJob)
  | [] => .ok []
  | entry :: entries =>
    match seen.lookup entry.doc.name with
    | some (prevFile, prevLine) =>
      entry.refuse ("duplicate job `" ++ entry.doc.name ++ "` (first defined at " ++ prevFile ++
        ":" ++ toString prevLine ++ ")")
    | none => do
      let job ← resolveJob crates entry
      let jobs ← resolveJobs defaultWorker ((job.spec.name, entry.file, entry.line) :: seen) entries
      return job.bindWorker defaultWorker :: jobs

/-! ## Sections without a type -/

def extraTable (root : RootDoc) (key : Text) : Option Toml.Table :=
  (root.extras.lookup key).bind Toml.Value.asTable

/-- The section `[notifications.webhook]`. -/
def webhookSection (root : RootDoc) : Option Toml.Table := do
  let notifications ← extraTable root "notifications".toList
  (← notifications.lookup "webhook".toList).asTable

def parseNotifications (root : RootDoc) : NotificationConfig :=
  ((webhookSection root).map fun t =>
    { webhookUrl := (t.lookup "url".toList).bind Toml.Value.asStr
      alertAfterFailures :=
        asU32 (((t.lookup "alert_after_failures".toList).bind Toml.Value.asInteger).getD 1) :
      NotificationConfig }).getD ⟨none, 0⟩

def parseGroups (root : RootDoc) : List (Text × List Text) :=
  ((extraTable root "groups".toList).map fun t => t.filterMap fun g => do
    let jobs ← (← (← g.2.asTable).lookup "jobs".toList).asArray
    return (g.1, jobs.filterMap Toml.Value.asStr)).getD []

/-- The string under `free_bytes` of `[min_storage]`. -/
def freeBytesText (root : RootDoc) : Option Text := do
  let t ← extraTable root "min_storage".toList
  (← t.lookup "free_bytes".toList).asStr

def parseMinFree (root : RootDoc) : Except Failure (Option ℕ) :=
  match freeBytesText root with
  | none => .ok none
  | some s =>
    match parseDurationHuman s with
    | some (.ok d) => .ok (some (max d 0).toNat)
    | some (.error _) => .ok none
    | none => .error .panic

/-! ## Resolving and overriding -/

def nonempty (s : String) : Option String :=
  let t := trim s.toList
  if t = [] then none else some (String.ofList t)

def lift {α : Type} : Except ConfigError α → Except Failure α
  | .ok v => .ok v
  | .error e => .error (.error e)

def resolveListen (api : ApiDoc) : Except Failure Addr :=
  match crates.socketAddr api.listen with
  | some listen => .ok listen
  | none => refuse "<config>" ("invalid api.listen `" ++ api.listen ++ "`")

def checkTls (tls : TlsDoc) : Except Failure Unit :=
  if tls.cert.isSome ≠ tls.key.isSome then
    refuse "<config>" "api.tls: `cert` and `key` must both be set"
  else .ok ()

def resolve (root : RootDoc) (jobs : List JobEntry) :
    Except Failure (ResolvedConfig Addr Sections) := do
  let db ← resolveDb root.daemon.db
  let daemon : DaemonConfig :=
    { maxConcurrency := max root.daemon.maxConcurrency 1, db, logDir := root.daemon.logDir
      defaultProxy := root.daemon.defaultProxy
      defaultWorker := root.daemon.defaultWorker.bind nonempty }
  let listen ← resolveListen crates root.api
  checkTls root.api.tls
  let tokens ← resolveTokens [] root.api.tokens
  let resolved ← resolveJobs crates daemon.defaultWorker [] jobs
  let sections ← lift (crates.sections root)
  let minFreeBytes ← parseMinFree root
  return {
    version := root.version.getD 1, daemon
    api := {
      metricsAuth := root.api.metricsAuth, listen, tls := root.api.tls, tokens
      synoraJsonPath := root.api.synoraJsonPath, tunasyncJsonPath := root.api.tunasyncJsonPath
      statusFormat := root.api.statusFormat }
    jobs := resolved, sections, snapshotRetention := parseRetention root.extras
    notifications := parseNotifications root, groups := parseGroups root, minFreeBytes
    extras := root.extras }

/-- `if let Some(v) = value { .. }`, for a setting that is overridden. -/
def overriding (value : Option String)
    (set : String → ResolvedConfig Addr Sections → Except Failure (ResolvedConfig Addr Sections))
    (cfg : ResolvedConfig Addr Sections) : Except Failure (ResolvedConfig Addr Sections) :=
  match value with
  | some v => set v cfg
  | none => .ok cfg

/-- The listen address, with the error when there is none in the text. -/
def overrideListen (file message v : String) (cfg : ResolvedConfig Addr Sections) :
    Except Failure (ResolvedConfig Addr Sections) :=
  match crates.socketAddr v with
  | some listen => .ok { cfg with api.listen := listen }
  | none => refuse file message

def overrideDbUrl (v : String) (cfg : ResolvedConfig Addr Sections) :
    Except Failure (ResolvedConfig Addr Sections) :=
  .ok { cfg with daemon.db.kind := .postgres, daemon.db.url := some v }

def overrideMaxConcurrency (v : String) (cfg : ResolvedConfig Addr Sections) :
    Except Failure (ResolvedConfig Addr Sections) :=
  match parseU32 v.toList with
  | some n => .ok { cfg with daemon.maxConcurrency := n }
  | none => refuse "<environment>" ("SYNORA_MAX_CONCURRENCY `" ++ v ++ "` is not a number")

/-- The token of the environment; none of the checks of `resolve` is made. -/
def overrideToken (v : String) (cfg : ResolvedConfig Addr Sections) :
    Except Failure (ResolvedConfig Addr Sections) :=
  .ok { cfg with api.tokens := cfg.api.tokens ++ [⟨"env", v, "admin", []⟩] }

/-- The fixed whitelist of environment overrides; `env` is `std::env::var`. -/
def applyEnvOverrides (env : String → Option String) (cfg : ResolvedConfig Addr Sections) :
    Except Failure (ResolvedConfig Addr Sections) := do
  let cfg ← overriding (env "SYNORA_MAX_CONCURRENCY") overrideMaxConcurrency cfg
  let cfg ← overriding (env "SYNORA_API_LISTEN") (fun v => overrideListen crates "<environment>"
    ("SYNORA_API_LISTEN `" ++ v ++ "` is not a valid address") v) cfg
  let cfg ← overriding (env "SYNORA_DB_URL") overrideDbUrl cfg
  overriding (env "SYNORA_TOKEN") overrideToken cfg

structure CliOverrides where
  dbKind : Option String
  dbPath : Option String
  dbUrl : Option String
  apiListen : Option String
deriving DecidableEq, Repr

def overrideDbKind (v : String) (cfg : ResolvedConfig Addr Sections) :
    Except Failure (ResolvedConfig Addr Sections) :=
  match v with
  | "sqlite" => .ok { cfg with daemon.db.kind := .sqlite }
  | "postgres" => .ok { cfg with daemon.db.kind := .postgres }
  | other => refuse "<cli>" ("invalid --db-kind `" ++ other ++ "`: expected sqlite|postgres")

def overrideDbPath (v : String) (cfg : ResolvedConfig Addr Sections) :
    Except Failure (ResolvedConfig Addr Sections) :=
  .ok { cfg with daemon.db.path := v }

def applyCliOverrides (overrides : CliOverrides) (cfg : ResolvedConfig Addr Sections) :
    Except Failure (ResolvedConfig Addr Sections) := do
  let cfg ← overriding overrides.dbKind overrideDbKind cfg
  let cfg ← overriding overrides.dbPath overrideDbPath cfg
  let cfg ← overriding overrides.dbUrl overrideDbUrl cfg
  overriding overrides.apiListen (fun v => overrideListen crates "<cli>"
    ("invalid --api-listen `" ++ v ++ "`") v) cfg

/-- What `load_documents` comes back with: the merged document, and the jobs of all its files. -/
abbrev Documents := Except ConfigError (RootDoc × List JobEntry)

def load (documents : Documents) (env : String → Option String) (overrides : CliOverrides) :
    Except Failure (ResolvedConfig Addr Sections) := do
  let (root, jobs) ← lift documents
  let cfg ← resolve crates root jobs
  let cfg ← applyEnvOverrides crates env cfg
  applyCliOverrides crates overrides cfg

end

/-! ## What a load is made of -/

theorem bind_eq_ok {α β : Type} {x : Except Failure α} {f : α → Except Failure β} {b : β} :
    x >>= f = .ok b ↔ ∃ a, x = .ok a ∧ f a = .ok b := by
  cases x with
  | error e => exact iff_of_false nofun (by rintro ⟨a, ⟨⟩, -⟩)
  | ok a =>
    constructor
    · exact fun h => ⟨a, rfl, h⟩
    · rintro ⟨a', h, hb⟩
      cases h
      exact hb

section
variable {Addr Sections : Type} {crates : Crates Addr Sections}
  {cfg cfg' : ResolvedConfig Addr Sections}

/-- The parts of a configuration that no override but that of the token touches. -/
structure Keeps (cfg cfg' : ResolvedConfig Addr Sections) : Prop where
  jobs : cfg'.jobs = cfg.jobs
  snapshotRetention : cfg'.snapshotRetention = cfg.snapshotRetention
  notifications : cfg'.notifications = cfg.notifications
  minFreeBytes : cfg'.minFreeBytes = cfg.minFreeBytes
  tokens : cfg'.api.tokens = cfg.api.tokens

theorem Keeps.refl (cfg : ResolvedConfig Addr Sections) : Keeps cfg cfg := ⟨rfl, rfl, rfl, rfl, rfl⟩

theorem Keeps.trans {cfg'' : ResolvedConfig Addr Sections} (h : Keeps cfg cfg')
    (h' : Keeps cfg' cfg'') : Keeps cfg cfg'' where
  jobs := h'.jobs.trans h.jobs
  snapshotRetention := h'.snapshotRetention.trans h.snapshotRetention
  notifications := h'.notifications.trans h.notifications
  minFreeBytes := h'.minFreeBytes.trans h.minFreeBytes
  tokens := h'.tokens.trans h.tokens

theorem overriding_keeps {value : Option String}
    {set : String → ResolvedConfig Addr Sections → Except Failure (ResolvedConfig Addr Sections)}
    (hset : ∀ v, set v cfg = .ok cfg' → Keeps cfg cfg')
    (h : overriding value set cfg = .ok cfg') : Keeps cfg cfg' := by
  cases value with
  | none =>
    cases h
    exact .refl cfg
  | some v => exact hset v h

theorem overrideListen_keeps {file message v : String}
    (h : overrideListen crates file message v cfg = .ok cfg') : Keeps cfg cfg' := by
  unfold overrideListen at h
  split at h
  · cases h
    exact ⟨rfl, rfl, rfl, rfl, rfl⟩
  · cases h

theorem overrideDbUrl_keeps {v : String} (h : overrideDbUrl v cfg = .ok cfg') : Keeps cfg cfg' := by
  cases h
  exact ⟨rfl, rfl, rfl, rfl, rfl⟩

theorem overrideDbPath_keeps {v : String} (h : overrideDbPath v cfg = .ok cfg') :
    Keeps cfg cfg' := by
  cases h
  exact ⟨rfl, rfl, rfl, rfl, rfl⟩

theorem overrideMaxConcurrency_keeps {v : String} (h : overrideMaxConcurrency v cfg = .ok cfg') :
    Keeps cfg cfg' := by
  unfold overrideMaxConcurrency at h
  split at h
  · cases h
    exact ⟨rfl, rfl, rfl, rfl, rfl⟩
  · cases h

theorem overrideDbKind_keeps {v : String} (h : overrideDbKind v cfg = .ok cfg') :
    Keeps cfg cfg' := by
  unfold overrideDbKind at h
  split at h
  · cases h
    exact ⟨rfl, rfl, rfl, rfl, rfl⟩
  · cases h
    exact ⟨rfl, rfl, rfl, rfl, rfl⟩
  · cases h

theorem applyCliOverrides_keeps {overrides : CliOverrides}
    (h : applyCliOverrides crates overrides cfg = .ok cfg') : Keeps cfg cfg' := by
  unfold applyCliOverrides at h
  obtain ⟨cfg₁, h₁, h⟩ := bind_eq_ok.mp h
  obtain ⟨cfg₂, h₂, h⟩ := bind_eq_ok.mp h
  obtain ⟨cfg₃, h₃, h₄⟩ := bind_eq_ok.mp h
  exact (((overriding_keeps (fun _ => overrideDbKind_keeps) h₁).trans
    (overriding_keeps (fun _ => overrideDbPath_keeps) h₂)).trans
    (overriding_keeps (fun _ => overrideDbUrl_keeps) h₃)).trans
    (overriding_keeps (fun _ => overrideListen_keeps) h₄)

/-- The token of the environment. -/
def envTokens (env : String → Option String) : List ApiToken :=
  ((env "SYNORA_TOKEN").map fun v => ⟨"env", v, "admin", []⟩).toList

theorem applyEnvOverrides_ok {env : String → Option String}
    (h : applyEnvOverrides crates env cfg = .ok cfg') :
    ∃ cfg₃, Keeps cfg cfg₃ ∧
      cfg' = { cfg₃ with api.tokens := cfg₃.api.tokens ++ envTokens env } := by
  unfold applyEnvOverrides at h
  obtain ⟨cfg₁, h₁, h⟩ := bind_eq_ok.mp h
  obtain ⟨cfg₂, h₂, h⟩ := bind_eq_ok.mp h
  obtain ⟨cfg₃, h₃, h₄⟩ := bind_eq_ok.mp h
  refine ⟨cfg₃, ((overriding_keeps (fun _ => overrideMaxConcurrency_keeps) h₁).trans
    (overriding_keeps (fun _ => overrideListen_keeps) h₂)).trans
    (overriding_keeps (fun _ => overrideDbUrl_keeps) h₃), ?_⟩
  unfold overriding at h₄
  unfold envTokens
  cases htoken : env "SYNORA_TOKEN" with
  | none =>
    rw [htoken] at h₄
    cases h₄
    simp
  | some v =>
    rw [htoken] at h₄
    cases h₄
    rfl

/-- What a configuration holds of its documents. -/
structure Resolved (crates : Crates Addr Sections) (root : RootDoc) (jobs : List JobEntry)
    (tokens : List ApiToken) (cfg : ResolvedConfig Addr Sections) : Prop where
  tokens : resolveTokens [] root.api.tokens = .ok tokens
  jobs : resolveJobs crates (root.daemon.defaultWorker.bind nonempty) [] jobs = .ok cfg.jobs
  snapshotRetention : cfg.snapshotRetention = parseRetention root.extras
  notifications : cfg.notifications = parseNotifications root
  minFreeBytes : parseMinFree root = .ok cfg.minFreeBytes

theorem resolve_ok {root : RootDoc} {jobs : List JobEntry} (h : resolve crates root jobs = .ok cfg) :
    Resolved crates root jobs cfg.api.tokens cfg := by
  unfold resolve at h
  obtain ⟨db, -, h⟩ := bind_eq_ok.mp h
  obtain ⟨listen, -, h⟩ := bind_eq_ok.mp h
  obtain ⟨-, -, h⟩ := bind_eq_ok.mp h
  obtain ⟨tokens, htokens, h⟩ := bind_eq_ok.mp h
  obtain ⟨resolved, hresolved, h⟩ := bind_eq_ok.mp h
  obtain ⟨sections, -, h⟩ := bind_eq_ok.mp h
  obtain ⟨minFreeBytes, hmin, h⟩ := bind_eq_ok.mp h
  cases h
  exact ⟨htokens, hresolved, rfl, rfl, hmin⟩

/-- A loaded configuration is that of its documents, with the token of the environment added. -/
theorem load_ok {documents : Documents} {env : String → Option String} {overrides : CliOverrides}
    {root : RootDoc} {jobs : List JobEntry} (hdocs : documents = .ok (root, jobs))
    (h : load crates documents env overrides = .ok cfg) :
    ∃ tokens, Resolved crates root jobs tokens cfg ∧ cfg.api.tokens = tokens ++ envTokens env := by
  subst hdocs
  unfold load at h
  obtain ⟨p, hp, h⟩ := bind_eq_ok.mp h
  cases hp
  obtain ⟨cfg₁, h₁, h⟩ := bind_eq_ok.mp h
  obtain ⟨cfg₂, h₂, h₃⟩ := bind_eq_ok.mp h
  have hres := resolve_ok h₁
  obtain ⟨cfg', henv, rfl⟩ := applyEnvOverrides_ok h₂
  have hcli := applyCliOverrides_keeps h₃
  refine ⟨cfg₁.api.tokens, ⟨hres.tokens, ?_, ?_, ?_, ?_⟩, ?_⟩
  · rw [hcli.jobs, henv.jobs, hres.jobs]
  · rw [hcli.snapshotRetention, henv.snapshotRetention, hres.snapshotRetention]
  · rw [hcli.notifications, henv.notifications, hres.notifications]
  · rw [hcli.minFreeBytes, henv.minFreeBytes, hres.minFreeBytes]
  · rw [hcli.tokens, henv.tokens]

end

/-! Documents with the defaults in every section with a type, and crates that refuse nothing. -/

def plainCrates : Crates Unit Unit :=
  ⟨fun _ => some (), fun _ => .ok (), fun _ => .ok (), fun _ => true, fun _ => .ok 0,
    fun _ => false, fun _ => "2"⟩

def plainRoot (extras : Toml.Table) : RootDoc :=
  ⟨none, ⟨16, .default, "/var/log/synora", none, none⟩, .default, extras⟩

def noOverrides : CliOverrides := ⟨none, none, none, none⟩

end Synora.Config
