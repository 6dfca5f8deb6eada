import Synora.Core.JobState
import Synora.Lib.Toml

namespace Synora.Config
open Core

/-! # The documents of a configuration -/

/-- `file:line: message` -/
structure ConfigError where
  file : String
  line : ℕ
  message : String
deriving DecidableEq, Repr

/-- A configuration is refused, or the loader panics. -/
inductive Failure
  | error (e : ConfigError)
  | panic
deriving DecidableEq, Repr

inductive TomlDuration
  | seconds (s : ℕ)
  | human (s : String)
deriving DecidableEq, Repr

structure DbDoc where
  kind : String
  path : String
  url : Option String
deriving DecidableEq, Repr

def DbDoc.default : DbDoc := ⟨"sqlite", "data/synora.db", none⟩

structure DaemonDoc where
  maxConcurrency : ℕ
  db : DbDoc
  logDir : String
  defaultProxy : Option String
  defaultWorker : Option String
deriving DecidableEq, Repr

structure TlsDoc where
  cert : Option String
  key : Option String
  clientCa : Option String
deriving DecidableEq, Repr

structure TokenDoc where
  name : String
  token : String
  role : String
  permissions : List String
deriving DecidableEq, Repr

structure ApiDoc where
  metricsAuth : Bool
  listen : String
  tls : TlsDoc
  tokens : List TokenDoc
  synoraJsonPath : String
  tunasyncJsonPath : String
  statusFormat : String
deriving DecidableEq, Repr

def ApiDoc.default : ApiDoc :=
  ⟨true, "127.0.0.1:8100", ⟨none, none, none⟩, [], "/synora.json", "/tunasync.json", "both"⟩

/-- Everything but the jobs; `extras` are the sections without a type. -/
structure RootDoc where
  version : Option ℕ
  daemon : DaemonDoc
  api : ApiDoc
  extras : Toml.Table

/-- `RootDoc::default`; derived, so `daemon` is not what an absent section stands for. -/
def RootDoc.default : RootDoc := ⟨none, ⟨0, .default, "", none, none⟩, .default, []⟩

/-- What the loader reads of a job table. -/
structure JobDoc where
  name : String
  enabled : Bool
  worker : Option String
  provider : Option String
  stage1Profile : Option String
  command : Option String
  image : Option String
  parser : Option String
  upstream : Option String
  storage : Option String
  mirrorSubdir : Option String
  family : String
  timeout : Option TomlDuration
  retry : ℕ
  retryDelay : String
  retryBackoff : F64
  successExitCodes : List ℤ
  failOnMatch : Option String
  maxConcurrency : ℕ
  misfirePolicy : String
  onWorkerLost : String
  timezone : String
  statistics : String
  schedule : Option String
  cron : Option String
  time : Option String
  weekday : Option String
  every : Option String
  snapshotPolicy : String
  memoryLimit : Option String
  dependsOn : List String
deriving DecidableEq, Repr

/-- The job table of this name with every other field absent; 2.0 is the default backoff. -/
def JobDoc.default (name : String) : JobDoc where
  name
  enabled := true
  worker := none
  provider := none
  stage1Profile := none
  command := none
  image := none
  parser := none
  upstream := none
  storage := none
  mirrorSubdir := none
  family := "any"
  timeout := none
  retry := 3
  retryDelay := "5m"
  retryBackoff := 0x4000000000000000
  successExitCodes := [24]
  failOnMatch := none
  maxConcurrency := 1
  misfirePolicy := "skip"
  onWorkerLost := "fail"
  timezone := "UTC"
  statistics := "provider"
  schedule := none
  cron := none
  time := none
  weekday := none
  every := none
  snapshotPolicy := "never"
  memoryLimit := none
  dependsOn := []

/-- One job extracted from a file. -/
structure JobEntry where
  doc : JobDoc
  file : String
  line : ℕ
deriving DecidableEq, Repr

end Synora.Config
