import Synora.Config.Load
import Synora.Standalone.Rounds

namespace Synora.Config
open Core Dependency Standalone

/-! # Dependencies between jobs -/

/-- The jobs of the documents, by name. -/
def entryNames (jobs : List JobEntry) : List String := jobs.map fun entry => entry.doc.name

/-- What the first job of this name depends on. -/
def entryDependencies (jobs : List JobEntry) (name : String) : List String :=
  ((jobs.find? fun entry => decide (entry.doc.name = name)).map fun entry =>
    entry.doc.dependsOn).getD []

def specs {Addr Sections : Type} (cfg : ResolvedConfig Addr Sections) : List JobSpec :=
  cfg.jobs.map ResolvedJob.spec

def specNames {Addr Sections : Type} (cfg : ResolvedConfig Addr Sections) : List String :=
  (specs cfg).map JobSpec.name

section
variable {Addr Sections : Type} {crates : Crates Addr Sections}

/-- What a resolved job keeps of its document. -/
structure OfEntry (entry : JobEntry) (job : ResolvedJob) : Prop where
  name : job.spec.name = entry.doc.name
  dependsOn : job.spec.dependsOn = entry.doc.dependsOn

theorem resolveJob_ok {entry : JobEntry} {job : ResolvedJob}
    (h : resolveJob crates entry = .ok job) : OfEntry entry job := by
  unfold resolveJob at h
  obtain ⟨-, -, h⟩ := bind_eq_ok.mp h
  obtain ⟨schedule, -, h⟩ := bind_eq_ok.mp h
  obtain ⟨provider, -, h⟩ := bind_eq_ok.mp h
  obtain ⟨storage, -, h⟩ := bind_eq_ok.mp h
  obtain ⟨timeout, -, h⟩ := bind_eq_ok.mp h
  obtain ⟨retryDelay, -, h⟩ := bind_eq_ok.mp h
  obtain ⟨-, -, h⟩ := bind_eq_ok.mp h
  obtain ⟨-, -, h⟩ := bind_eq_ok.mp h
  obtain ⟨misfirePolicy, -, h⟩ := bind_eq_ok.mp h
  obtain ⟨onWorkerLost, -, h⟩ := bind_eq_ok.mp h
  obtain ⟨-, -, h⟩ := bind_eq_ok.mp h
  obtain ⟨statistics, -, h⟩ := bind_eq_ok.mp h
  obtain ⟨memoryLimit, -, h⟩ := bind_eq_ok.mp h
  obtain ⟨family, -, h⟩ := bind_eq_ok.mp h
  obtain ⟨snapshotPolicy, -, h⟩ := bind_eq_ok.mp h
  obtain ⟨-, -, h⟩ := bind_eq_ok.mp h
  obtain ⟨-, -, h⟩ := bind_eq_ok.mp h
  cases h
  exact ⟨rfl, rfl⟩

theorem bindWorker_spec (job : ResolvedJob) (worker : Option String) :
    (job.bindWorker worker).spec = job.spec := by
  unfold ResolvedJob.bindWorker
  split <;> rfl

/-- The jobs come out in the order of the documents, and no name comes twice. -/
theorem resolveJobs_ok {worker : Option String} {seen : List (String × String × ℕ)}
    {entries : List JobEntry} {jobs : List ResolvedJob}
    (h : resolveJobs crates worker seen entries = .ok jobs) :
    List.Forall₂ OfEntry entries jobs ∧ (entryNames entries).Nodup ∧
      ∀ name ∈ entryNames entries, seen.lookup name = none := by
  induction entries generalizing seen jobs with
  | nil =>
    cases h
    exact ⟨.nil, List.nodup_nil, by simp [entryNames]⟩
  | cons entry entries ih =>
    unfold resolveJobs at h
    cases hseen : seen.lookup entry.doc.name with
    | some prev =>
      rw [hseen] at h
      cases h
    | none =>
      rw [hseen] at h
      obtain ⟨job, hjob, h⟩ := bind_eq_ok.mp h
      obtain ⟨rest, hrest, h⟩ := bind_eq_ok.mp h
      cases h
      have hof := resolveJob_ok hjob
      obtain ⟨hall, hnodup, hnew⟩ := ih hrest
      have hother : ∀ name ∈ entryNames entries,
          name ≠ entry.doc.name ∧ seen.lookup name = none := by
        intro name hname
        have hlookup := hnew name hname
        rw [hof.name, List.lookup_cons] at hlookup
        cases heq : name == entry.doc.name with
        | true =>
          rw [heq] at hlookup
          cases hlookup
        | false =>
          rw [heq] at hlookup
          exact ⟨by simpa using heq, hlookup⟩
      refine ⟨.cons ?_ hall, List.nodup_cons.mpr ⟨?_, hnodup⟩, ?_⟩
      · exact ⟨by rw [bindWorker_spec, hof.name], by rw [bindWorker_spec, hof.dependsOn]⟩
      · exact fun hmem => (hother _ hmem).1 rfl
      · intro name hname
        rcases List.mem_cons.mp hname with rfl | hname
        · exact hseen
        · exact (hother name hname).2

theorem names_of_forall₂ {entries : List JobEntry} {jobs : List ResolvedJob}
    (h : List.Forall₂ OfEntry entries jobs) :
    (jobs.map ResolvedJob.spec).map JobSpec.name = entryNames entries := by
  induction h with
  | nil => rfl
  | cons hof _ ih => exact congrArg₂ List.cons hof.name ih

theorem dependencies_of_forall₂ {entries : List JobEntry} {jobs : List ResolvedJob}
    (h : List.Forall₂ OfEntry entries jobs) :
    dependenciesOf (jobs.map ResolvedJob.spec) = entryDependencies entries := by
  funext name
  unfold dependenciesOf entryDependencies
  induction h with
  | nil => rfl
  | cons hof _ ih =>
    rw [List.map_cons, List.find?_cons, List.find?_cons, hof.name]
    split
    · rw [Option.map_some, Option.map_some, hof.dependsOn]
    · exact ih

end

/-- The dependencies of a loaded configuration are closed, without a cycle and can be run exactly
when, of the jobs in the documents, peeling off those that depend on nothing left leaves none. -/
theorem dependencies_iff {Addr Sections : Type} (crates : Crates Addr Sections)
    (scaleDelay : ℕ → F64 → ℕ → ℕ) (documents : Documents) (env : String → Option String)
    (overrides : CliOverrides) (root : RootDoc) (jobs : List JobEntry)
    (hdocs : documents = .ok (root, jobs)) (cfg : ResolvedConfig Addr Sections)
    (h : load crates documents env overrides = .ok cfg) :
    (Closed (dependenciesOf (specs cfg)) (specNames cfg) ∧
        Acyclic (dependenciesOf (specs cfg)) (specNames cfg) ∧ Runnable scaleDelay (specs cfg)) ↔
      Settles (entryDependencies jobs) (entryNames jobs) := by
  obtain ⟨tokens, hres, htokens⟩ := load_ok hdocs h
  obtain ⟨hall, hnodup, -⟩ := resolveJobs_ok hres.jobs
  have hnames : specNames cfg = entryNames jobs := names_of_forall₂ hall
  have hdeps : dependenciesOf (specs cfg) = entryDependencies jobs := dependencies_of_forall₂ hall
  rw [← hdeps, ← hnames]
  rw [← hnames] at hnodup
  constructor
  · rintro ⟨hclosed, hacyclic, -⟩
    exact settles_iff.mpr ⟨hclosed, hacyclic⟩
  · intro hsettles
    obtain ⟨hclosed, hacyclic⟩ := settles_iff.mp hsettles
    exact ⟨hclosed, hacyclic, runnable_of_settles hnodup hsettles⟩

/-! Jobs that run a script when asked to. -/

def scriptEntry (name : String) (dependsOn : List String) : JobEntry :=
  ⟨{ JobDoc.default name with
      provider := some "script", command := some "true", storage := some "/srv/mirror"
      schedule := some "manual", dependsOn }, "synora.toml", 1⟩

/-- A job and the one it depends on, which comes later in the documents, can be run. -/
theorem dependencies_iff_pair : ∃ cfg, load plainCrates
      (.ok (plainRoot [], [scriptEntry "b" ["a"], scriptEntry "a" []])) (fun _ => none)
        noOverrides = .ok cfg ∧
    Runnable (fun d _ _ => d) (specs cfg) := by
  refine ⟨_, rfl, ((dependencies_iff plainCrates (fun d _ _ => d)
    (.ok (plainRoot [], [scriptEntry "b" ["a"], scriptEntry "a" []])) (fun _ => none) noOverrides
    (plainRoot []) [scriptEntry "b" ["a"], scriptEntry "a" []] rfl _ rfl).mpr ?_).2.2⟩
  decide

/-- Two jobs that depend on each other are accepted; with no history, a dispatch skips them. -/
theorem cycle_loads : ∃ cfg, load plainCrates
      (.ok (plainRoot [], [scriptEntry "a" ["b"], scriptEntry "b" ["a"]])) (fun _ => none)
        noOverrides = .ok cfg ∧
    ¬Acyclic (dependenciesOf (specs cfg)) (specNames cfg) ∧
    Engine.dispatchCurrent .empty (specs cfg) "a" false = .skip "b" ∧
    Engine.dispatchCurrent .empty (specs cfg) "b" false = .skip "a" := by
  refine ⟨_, rfl, fun h => ?_, by decide, by decide⟩
  exact h "a" (.tail (b := "b") (.single ⟨by decide, by decide⟩) ⟨by decide, by decide⟩)

end Synora.Config
