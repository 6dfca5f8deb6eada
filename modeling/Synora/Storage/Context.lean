import Synora.Mirror.LocalTree

namespace Synora.Storage
open Strings Mirror

/-! ## Where the data of a job lives -/

inductive StatisticsMode
  | provider | filesystem
deriving DecidableEq, Repr

inductive SnapshotPolicy
  | never | afterSuccess | beforeSync | beforeAndAfter | manual
deriving DecidableEq, Repr

/-- The part of a job definition that says where its data lives. -/
structure MirrorSpec where
  name : Text
  storage : Path
  storageName : Option Text
  statistics : StatisticsMode
  snapshotPolicy : SnapshotPolicy
deriving DecidableEq, Repr

inductive StorageKind
  | dir
  | zfs (pool dataset : Text)
  | btrfs (subvol : Text)
deriving DecidableEq, Repr

/-- A `[storage.<name>]` section. -/
structure StorageConfig where
  kind : StorageKind
  mountpoint : Option Path
deriving DecidableEq, Repr

/-- The sections, in the order in which the map hands them out. -/
structure RunStorageCtx where
  storages : List (Text × StorageConfig)
deriving DecidableEq, Repr

namespace RunStorageCtx

/-- The section a job names, else the one whose mountpoint is spelled like its storage path. -/
def storageFor (ctx : RunStorageCtx) (job : MirrorSpec) : Option StorageConfig :=
  match job.storageName.bind fun name => ctx.storages.lookup name with
  | some c => some c
  | none =>
    (ctx.storages.find? fun e => decide (e.2.mountpoint = some job.storage)).map Prod.snd

/-- The storage path of a job on this machine. -/
def resolveStoragePath (ctx : RunStorageCtx) (job : MirrorSpec) : Path :=
  match ctx.storageFor job with
  | some c =>
    if job.storageName.isSome then
      let base := c.mountpoint.getD (Path.ofText "/srv/mirror".toList)
      if job.storage = Path.ofText [] then base.join (Path.ofText job.name)
      else if Path.isAbsolute job.storage then
        -- a path of no components at all is the empty path
        base.join (if job.storage.normal = [] then Path.ofText [] else job.storage.normal)
      else base.join job.storage
    else job.storage
  | none => job.storage

end RunStorageCtx

/-- `resolve_local_job`, as far as the path goes. -/
def localStorage (ctx : Option RunStorageCtx) (job : MirrorSpec) : Path :=
  (ctx.map fun ctx => ctx.resolveStoragePath job).getD job.storage

/-! ## Measuring -/

/-- What `measure_repo_size` and `walk_size` find on the machine. -/
structure Measures where
  measureRepoSize : Path → Option UInt64
  walkSize : Path → UInt64

/-- `value as i64` on a `u64`. -/
def asI64 (v : UInt64) : ℤ := v.toInt64.toInt

theorem asI64_injective {v w : UInt64} (h : asI64 v = asI64 w) : v = w := by
  have hsigned : v.toInt64 = w.toInt64 := Int64.toInt_inj.mp h
  rw [← UInt64.toUInt64_toInt64 v, hsigned, UInt64.toUInt64_toInt64]

/-- What the file system says about `path`. -/
def measured (m : Measures) (statistics : StatisticsMode) (path : Path) : Option UInt64 :=
  (m.measureRepoSize path).or (match statistics with
    | .filesystem => some (m.walkSize path)
    | .provider => none)

/-- The provider's own number comes first. -/
def sizeAfter (m : Measures) (statistics : StatisticsMode) (path : Path)
    (sizeHint : Option UInt64) : Option ℤ :=
  (sizeHint.or (measured m statistics path)).map asI64

theorem sizeAfter_eq_iff {m : Measures} {statistics : StatisticsMode} {p q : Path}
    {sizeHint : Option UInt64} :
    sizeAfter m statistics p sizeHint = sizeAfter m statistics q sizeHint ↔
      (sizeHint = none → measured m statistics p = measured m statistics q) := by
  cases sizeHint with
  | some v => simp [sizeAfter]
  | none =>
    simp only [sizeAfter, Option.none_or, forall_const]
    exact (Option.map_injective fun _ _ h => asI64_injective h).eq_iff

end Synora.Storage
