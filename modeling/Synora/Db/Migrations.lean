import Mathlib.Data.List.Sort
import Mathlib.Logic.Function.Basic
import Synora.Lib.Runs
import Synora.Mirror.Listing

namespace Synora.Db
open Strings Mirror

/-! # Migrations -/

/-- A numbered SQL text. -/
structure Migration where
  version : ℕ
  sql : Text
deriving DecidableEq

/-- A file of the migrations directory. -/
def Migration.ofFile (name sql : Text) : Option Migration :=
  (parseU64 ((name.splitOn '_').headD [])).bind fun version =>
    if ".sql".toList.isSuffixOf name then some ⟨version, sql⟩ else none

/-- The files of the directory, else the embedded set, by number. -/
def pendingMigrations (embedded : List Migration) (dir : Option (List (Text × Text))) :
    List Migration :=
  let found := (dir.map fun files =>
    files.filterMap fun f => Migration.ofFile f.1 f.2).getD embedded
  found.insertionSort fun m m' => m.version ≤ m'.version

def splitStatements (sql : Text) : List Text :=
  let cleaned := (lines sql).flatMap fun line =>
    ((splitOnce "--".toList line).map Prod.fst).getD line ++ ['\n']
  ((cleaned.splitOn ';').map trim).filter fun s => !s.isEmpty

/-- What is sent to PostgreSQL between `BEGIN` and the insert of the version. -/
def pgBody (sql : Text) : Text :=
  replace "INTEGER".toList "BIGINT".toList (replace
    "INTEGER PRIMARY KEY AUTOINCREMENT".toList "BIGSERIAL PRIMARY KEY".toList
    (";\n".toList.intercalate (splitStatements sql)))

/-- What the statements do to the schema; `none` where one is refused. -/
inductive Backend (S : Type*)
  | sqlite (execute : Text → S → Option S)
  | pg (simple : Text → S → Option S)

namespace Backend
variable {S : Type*}

/-- The column `version`: an `i64`, in PostgreSQL an `INTEGER` of four bytes. -/
def key : Backend S → Migration → Option ℤ
  | sqlite _, m => some ((m.version : ℤ).bmod (2 ^ 64))
  | pg _, m => if m.version < 2 ^ 31 then some m.version else none

def apply : Backend S → Migration → S → Option S
  | sqlite execute, m, s => (splitStatements m.sql).foldlM (fun s stmt => execute stmt s) s
  | pg simple, m, s => simple (pgBody m.sql) s

end Backend

/-- `history` is a record for the proofs: what has been committed. -/
structure Database (S : Type*) where
  schema : S
  versions : List ℤ
  history : List Migration

inductive RunPhase
  | idle
  /-- Before the query for the first of these. -/
  | query (todo : List Migration) (applied : List ℕ)
  /-- Before the transaction of `m`. -/
  | transaction (m : Migration) (todo : List Migration) (applied : List ℕ)
  | returned (applied : List ℕ)
  | failed

structure Migrators (ι S : Type*) where
  db : Database S
  phase : ι → RunPhase

inductive MigratorAction (ι : Type*)
  | begin (i : ι)
  /-- The next operation on the database. -/
  | proceed (i : ι)
  /-- A lost connection, or the end of the process. -/
  | fail (i : ι)

section
variable {ι S : Type*} [DecidableEq ι] (backend : Backend S) (pending : ι → List Migration)

def Migrators.move (s : Migrators ι S) (i : ι) (p : RunPhase) : Migrators ι S :=
  { s with phase := Function.update s.phase i p }

/-- The transaction of a migration: its statements and the row of its version, or nothing. -/
def Database.commit (db : Database S) (m : Migration) : Option (Database S) :=
  match backend.key m, backend.apply m db.schema with
  | some key, some schema =>
    if key ∈ db.versions then none
    else some ⟨schema, db.versions ++ [key], db.history ++ [m]⟩
  | _, _ => none

/-- `Migrator::run` of several processes on one database. -/
def Migrators.step (s : Migrators ι S) : MigratorAction ι → Option (Migrators ι S)
  | .begin i =>
    match s.phase i with
    | .query _ _ | .transaction _ _ _ => none
    | _ => some (s.move i (.query (pending i) []))
  | .proceed i =>
    match s.phase i with
    | .query [] applied => some (s.move i (.returned applied))
    | .query (m :: todo) applied =>
      match backend.key m with
      | none => some (s.move i .failed)
      | some key =>
        if key ∈ s.db.versions then some (s.move i (.query todo applied))
        else some (s.move i (.transaction m todo applied))
    | .transaction m todo applied =>
      match s.db.commit backend m with
      | none => some (s.move i .failed)
      | some db => some { s.move i (.query todo (applied ++ [m.version])) with db }
    | _ => none
  | .fail i => some (s.move i .failed)

end

/-! ## What a step does -/

section
variable {ι S : Type*} [DecidableEq ι] {backend : Backend S} {pending : ι → List Migration}
  {start : Database S} {s s' : Migrators ι S} {a : MigratorAction ι} {db db' : Database S}
  {m : Migration} {done todo : List Migration} {applied : List ℕ}

theorem commit_eq_some (h : db.commit backend m = some db') : ∃ key schema,
    backend.key m = some key ∧ key ∉ db.versions ∧ backend.apply m db.schema = some schema ∧
      db' = ⟨schema, db.versions ++ [key], db.history ++ [m]⟩ := by
  unfold Database.commit at h
  split at h
  · rename_i key schema hkey happly
    split_ifs at h with hmem
    cases h
    exact ⟨key, schema, hkey, hmem, happly, rfl⟩
  · cases h

/-- These migrations of a process are recorded, and it has committed those it reports. -/
structure Done (backend : Backend S) (db : Database S) (done : List Migration)
    (applied : List ℕ) : Prop where
  recorded : ∀ m ∈ done, ∃ key ∈ db.versions, backend.key m = some key
  order : applied.Sublist (done.map Migration.version)
  committed : ∀ v ∈ applied, ∃ m ∈ db.history, m.version = v

/-- Where a process is in its list. -/
def Progress (backend : Backend S) (db : Database S) (pending : List Migration) :
    RunPhase → Prop
  | .idle => True
  | .query todo applied => ∃ done, pending = done ++ todo ∧ Done backend db done applied
  | .transaction m todo applied =>
    ∃ done, pending = done ++ m :: todo ∧ Done backend db done applied
  | .returned applied => Done backend db pending applied
  | .failed => True

/-- The database is the start replayed with what has been committed, under keys of its own. -/
structure Ledger (backend : Backend S) (start db : Database S) : Prop where
  keys : db.versions.map some = start.versions.map some ++ db.history.map backend.key
  nodup : db.versions.Nodup
  replay : db.history.foldlM (fun s m => backend.apply m s) start.schema = some db.schema

theorem Done.mono (h : Done backend db done applied)
    (hversions : ∀ key ∈ db.versions, key ∈ db'.versions)
    (hhistory : ∀ m ∈ db.history, m ∈ db'.history) : Done backend db' done applied where
  recorded m hm := by
    obtain ⟨key, hkey, heq⟩ := h.recorded m hm
    exact ⟨key, hversions key hkey, heq⟩
  order := h.order
  committed v hv := by
    obtain ⟨m, hm, heq⟩ := h.committed v hv
    exact ⟨m, hhistory m hm, heq⟩

theorem Done.append (h : Done backend db done applied) {key : ℤ} (hkey : backend.key m = some key)
    (hmem : key ∈ db.versions) : Done backend db (done ++ [m]) applied where
  recorded := by
    intro x hx
    obtain hx | hx := List.mem_append.mp hx
    · exact h.recorded x hx
    · exact ⟨key, hmem, List.mem_singleton.mp hx ▸ hkey⟩
  order := by
    rw [List.map_append]
    exact h.order.trans (List.sublist_append_left _ _)
  committed := h.committed

theorem Progress.mono {pending : List Migration} {p : RunPhase}
    (h : Progress backend db pending p) (hversions : ∀ key ∈ db.versions, key ∈ db'.versions)
    (hhistory : ∀ m ∈ db.history, m ∈ db'.history) : Progress backend db' pending p := by
  cases p with
  | idle => trivial
  | failed => trivial
  | returned applied => exact Done.mono h hversions hhistory
  | query todo applied =>
    obtain ⟨done, hsplit, hdone⟩ := h
    exact ⟨done, hsplit, hdone.mono hversions hhistory⟩
  | transaction m todo applied =>
    obtain ⟨done, hsplit, hdone⟩ := h
    exact ⟨done, hsplit, hdone.mono hversions hhistory⟩

theorem Ledger.commit (h : Ledger backend start db) (hc : db.commit backend m = some db') :
    Ledger backend start db' := by
  obtain ⟨key, schema, hkey, hnew, happly, rfl⟩ := commit_eq_some hc
  refine ⟨?_, ?_, ?_⟩
  · rw [List.map_append, List.map_append, h.keys, List.map_singleton, List.map_singleton, hkey,
      List.append_assoc]
  · exact List.nodup_append.mpr ⟨h.nodup, List.nodup_singleton key, fun x hx y hy hxy =>
      hnew (List.mem_singleton.mp hy ▸ hxy ▸ hx)⟩
  · rw [List.foldlM_append, h.replay]
    simp [happly]

/-- Every step leaves the database as it is, or commits the migration that its process has come
to. -/
theorem step_cases (hprogress : ∀ i, Progress backend s.db (pending i) (s.phase i))
    (h : s.step backend pending a = some s') :
    (∀ i, Progress backend s'.db (pending i) (s'.phase i)) ∧ (s'.db = s.db ∨
      ∃ i m todo applied, s.phase i = .transaction m todo applied ∧
        s.db.commit backend m = some s'.db) := by
  have hmoved (i : ι) (p : RunPhase) (hp : Progress backend s.db (pending i) p) :
      ∀ j, Progress backend s.db (pending j) ((s.move i p).phase j) := by
    intro j
    by_cases hj : j = i
    · subst hj
      simpa [Migrators.move] using hp
    · simpa [Migrators.move, hj] using hprogress j
  cases a with
  | fail i =>
    cases h
    exact ⟨hmoved i .failed trivial, .inl rfl⟩
  | begin i =>
    have hstart : Progress backend s.db (pending i) (.query (pending i) []) :=
      ⟨[], rfl, List.forall_mem_nil _, List.nil_sublist _, List.forall_mem_nil _⟩
    rw [Migrators.step] at h
    split at h <;> cases h
    exact ⟨hmoved i _ hstart, .inl rfl⟩
  | proceed i =>
    have hi := hprogress i
    rw [Migrators.step] at h
    split at h
    · rename_i applied hphase
      rw [hphase] at hi
      cases h
      obtain ⟨done, hsplit, hdone⟩ := hi
      rw [List.append_nil] at hsplit
      exact ⟨hmoved i (.returned applied) (hsplit ▸ hdone), .inl rfl⟩
    · rename_i m todo applied hphase
      rw [hphase] at hi
      obtain ⟨done, hsplit, hdone⟩ := hi
      cases hkey : backend.key m with
      | none =>
        rw [hkey] at h
        cases h
        exact ⟨hmoved i .failed trivial, .inl rfl⟩
      | some key =>
        rw [hkey] at h
        dsimp only at h
        split_ifs at h with hmem <;> cases h
        · have hnext := hdone.append hkey hmem
          refine ⟨hmoved i (.query todo applied) ⟨done ++ [m], ?_, hnext⟩, .inl rfl⟩
          rw [hsplit, List.append_assoc, List.singleton_append]
        · exact ⟨hmoved i (.transaction m todo applied) ⟨done, hsplit, hdone⟩, .inl rfl⟩
    · rename_i m todo applied hphase
      rw [hphase] at hi
      obtain ⟨done, hsplit, hdone⟩ := hi
      cases hcommit : s.db.commit backend m with
      | none =>
        rw [hcommit] at h
        cases h
        exact ⟨hmoved i .failed trivial, .inl rfl⟩
      | some db =>
        rw [hcommit] at h
        cases h
        refine ⟨fun j => ?_, .inr ⟨i, m, todo, applied, hphase, hcommit⟩⟩
        obtain ⟨key, schema, hkey, -, -, rfl⟩ := commit_eq_some hcommit
        have hversions : ∀ k ∈ s.db.versions, k ∈ s.db.versions ++ [key] :=
          fun k hk => List.mem_append_left _ hk
        have hhistory : ∀ x ∈ s.db.history, x ∈ s.db.history ++ [m] :=
          fun x hx => List.mem_append_left _ hx
        by_cases hj : j = i
        · subst hj
          have hdone' : Done backend ⟨schema, s.db.versions ++ [key], s.db.history ++ [m]⟩
              (done ++ [m]) applied :=
            (hdone.mono hversions hhistory).append hkey (by simp)
          simp only [Migrators.move, Function.update_self]
          refine ⟨done ++ [m], by rw [hsplit, List.append_assoc, List.singleton_append],
            hdone'.recorded, ?_, ?_⟩
          · rw [List.map_append, List.map_singleton]
            exact hdone.order.append (List.Sublist.refl _)
          · intro v hv
            obtain hv | hv := List.mem_append.mp hv
            · exact hdone'.committed v hv
            · exact ⟨m, by simp, (List.mem_singleton.mp hv).symm⟩
        · simpa [Migrators.move, hj] using (hprogress j).mono hversions hhistory
    · cases h

/-! ## Runs -/

variable {actions : List (MigratorAction ι)}

theorem start_ledger (hnodup : start.versions.Nodup) (hfresh : start.history = []) :
    Ledger backend start start := by
  refine ⟨?_, hnodup, ?_⟩
  · rw [hfresh, List.map_nil, List.append_nil]
  · rw [hfresh]
    rfl

theorem migrators_invariant (hnodup : start.versions.Nodup) (hfresh : start.history = [])
    (h : Runs.exec (Migrators.step backend pending) ⟨start, fun _ => .idle⟩ actions = some s) :
    Ledger backend start s.db ∧ ∀ i, Progress backend s.db (pending i) (s.phase i) := by
  refine Runs.exec_invariant _ (fun s => Ledger backend start s.db ∧
    ∀ i, Progress backend s.db (pending i) (s.phase i)) ?_
    ⟨start_ledger hnodup hfresh, fun i => ?_⟩ h
  · rintro t a u ⟨hledger, hprogress⟩ hstep
    obtain ⟨hprogress', hsame | ⟨i, m, todo, applied, -, hcommit⟩⟩ := step_cases hprogress hstep
    · exact ⟨hsame ▸ hledger, hprogress'⟩
    · exact ⟨hledger.commit hcommit, hprogress'⟩
  · exact trivial

/-- A database that takes down its statements. -/
def recorder : Backend (List Text) := .sqlite fun stmt schema => some (schema ++ [stmt])

def twoTables : List Migration :=
  [⟨1, "CREATE TABLE jobs;".toList⟩, ⟨2, "CREATE TABLE runs;".toList⟩]

/-- Both processes find the first migration missing; the second one commits the rest. -/
def race : Option (Migrators Bool (List Text)) :=
  Runs.exec (Migrators.step recorder fun _ => twoTables) ⟨⟨[], [], []⟩, fun _ => .idle⟩
    [.begin true, .begin false, .proceed true, .proceed false, .proceed true, .proceed false,
      .begin false, .proceed false, .proceed false, .proceed false, .fail true, .proceed false]

/-- A process commits the first migration of the common list that is not committed. -/
theorem history_commit {plan : List Migration} (hdistinct : (plan.map backend.key).Nodup)
    (hledger : Ledger backend start db) (hfresh : start.versions = [])
    (hhistory : db.history <+: plan) (hsplit : plan = done ++ m :: todo)
    (hdone : Done backend db done applied) (hcommit : db.commit backend m = some db') :
    db'.history <+: plan := by
  obtain ⟨key, schema, hkey, hnew, -, rfl⟩ := commit_eq_some hcommit
  have hkeys : db.versions.map some = db.history.map backend.key := by
    rw [hledger.keys, hfresh, List.map_nil, List.nil_append]
  have hrecorded (k : ℤ) : k ∈ db.versions ↔ some k ∈ db.history.map backend.key := by
    rw [← hkeys, List.mem_map_of_injective (Option.some_injective _)]
  obtain ⟨rest, hrest⟩ := hhistory
  have hhere : db.history = done := by
    obtain ⟨late, hlate, hrest'⟩ | ⟨early, hearly, hm⟩ :=
      List.append_eq_append_iff.mp (hrest.trans hsplit)
    · cases late with
      | nil => rw [hlate, List.append_nil]
      | cons x late =>
        -- what is recorded but not committed would have the key of a committed one
        obtain ⟨k, hk, hxk⟩ := hdone.recorded x (hlate ▸ by simp)
        rw [← hrest, hrest', List.map_append, List.nodup_append] at hdistinct
        exact absurd rfl (hdistinct.2.2 _ ((hrecorded k).mp hk) _ (by simp [hxk]))
    · cases early with
      | nil => rw [hearly, List.append_nil]
      | cons x early =>
        obtain rfl : m = x := (List.cons.inj hm).1
        refine absurd ((hrecorded key).mpr ?_) hnew
        rw [hearly]
        simp [hkey]
  refine ⟨todo, ?_⟩
  rw [hsplit, hhere, List.append_assoc, List.singleton_append]

/-- Processes of one version, on a new database: at any moment the first migrations of the common
list have been committed, in their order; and when one process has returned, all of them have. -/
theorem migrations_in_order (backend : Backend S) (plan : List Migration)
    (hdistinct : (plan.map backend.key).Nodup) (schema : S) (actions : List (MigratorAction ι))
    (s : Migrators ι S)
    (h : Runs.exec (Migrators.step backend fun _ => plan) ⟨⟨schema, [], []⟩, fun _ => .idle⟩
      actions = some s) :
    (∃ n, s.db.versions.map some = (plan.take n).map backend.key ∧
      (plan.take n).foldlM (fun schema m => backend.apply m schema) schema = some s.db.schema) ∧
    ∀ i applied, s.phase i = .returned applied →
      s.db.versions.map some = plan.map backend.key ∧
        plan.foldlM (fun schema m => backend.apply m schema) schema = some s.db.schema := by
  have hinv : Ledger backend ⟨schema, [], []⟩ s.db ∧
      (∀ i, Progress backend s.db plan (s.phase i)) ∧ s.db.history <+: plan := by
    refine Runs.exec_invariant _ (fun s => Ledger backend ⟨schema, [], []⟩ s.db ∧
      (∀ i, Progress backend s.db plan (s.phase i)) ∧ s.db.history <+: plan) ?_
      ⟨start_ledger List.nodup_nil rfl, fun i => ?_, List.nil_prefix⟩ h
    · rintro t a u ⟨hledger, hprogress, hhistory⟩ hstep
      obtain ⟨hprogress', hsame | ⟨i, m, todo, applied, hphase, hcommit⟩⟩ :=
        step_cases hprogress hstep
      · exact ⟨hsame ▸ hledger, hprogress', hsame ▸ hhistory⟩
      · have hi := hprogress i
        rw [hphase] at hi
        obtain ⟨done, hsplit, hdone⟩ := hi
        exact ⟨hledger.commit hcommit, hprogress',
          history_commit hdistinct hledger rfl hhistory hsplit hdone hcommit⟩
    · exact trivial
  obtain ⟨hledger, hprogress, hhistory⟩ := hinv
  have hkeys : s.db.versions.map some = s.db.history.map backend.key := by
    rw [hledger.keys, List.map_nil, List.nil_append]
  have htake : plan.take s.db.history.length = s.db.history := (List.prefix_iff_eq_take.mp
    hhistory).symm
  refine ⟨⟨s.db.history.length, by rw [htake, hkeys], by rw [htake]; exact hledger.replay⟩, ?_⟩
  intro i applied hi
  have hdone := hprogress i
  rw [hi] at hdone
  have hall : s.db.history = plan := by
    obtain ⟨rest, hrest⟩ := hhistory
    cases rest with
    | nil => rw [← hrest, List.append_nil]
    | cons x rest =>
      obtain ⟨k, hk, hxk⟩ := hdone.recorded x (hrest ▸ by simp)
      have hmem : some k ∈ s.db.history.map backend.key := by
        rw [← hkeys]
        exact List.mem_map_of_mem hk
      rw [← hrest, List.map_append, List.nodup_append] at hdistinct
      exact absurd rfl (hdistinct.2.2 _ hmem _ (by simp [hxk]))
  rw [hkeys, hall]
  exact ⟨rfl, hall ▸ hledger.replay⟩

theorem migrations_in_order_race : race.isSome ∧ ∀ s, race = some s →
    ∃ n, s.db.versions.map some = (twoTables.take n).map recorder.key := by
  refine ⟨rfl, fun s hs => ?_⟩
  obtain ⟨⟨n, hn, -⟩, -⟩ := migrations_in_order recorder twoTables (by decide) [] _ s hs
  exact ⟨n, hn⟩

end

end Synora.Db
