import Synora.Engine.ReloadFrame

namespace Synora.Engine
open Core Db Table Script World

variable {cal : Calendar} {r : Reload} {cfg : ResolvedConfig} {w w' : World} {name : String}

/-- The maps and tables a rejected reload should not have touched. -/
structure World.Same (w w' : World) : Prop where
  liveJobs : w'.liveJobs = w.liveJobs
  jobLocks : w'.jobLocks = w.jobLocks
  routing : w'.routing = w.routing
  jobs : w'.tables.jobs = w.tables.jobs
  columns : w'.columns = w.columns
  schedules : w'.schedules = w.schedules
  jobRuns : w'.tables.jobRuns = w.tables.jobRuns

theorem World.Same.refl (w : World) : w.Same w := ⟨rfl, rfl, rfl, rfl, rfl, rfl, rfl⟩

/-- Some run of the job waits for its turn. -/
def World.Waiting (w : World) (name : String) : Prop :=
  ∃ x ∈ w.tables.jobRuns, x.jobId = name ∧ (x.status = .queued ∨ x.status = .retrying)

/-- The row of the job is the one `sync_job` would write. -/
def World.Written (w : World) (job : JobDef) (now : Time) : Prop :=
  (w.tables.job job.name).isSome ∧ (w.column job.name).isSome ∧
    ∀ c ∈ w.columns, c.name = job.name → c = job.columns now

/-- Generations are new. -/
def Reload.Fresh (r : Reload) (w : World) : Prop :=
  ∀ name, ∀ row ∈ w.tables.jobs, row.configGeneration ≠ r.ids name

/-! ## The first lines of the loop over the changed jobs -/

theorem same_cancelChanged (now : Time) :
    w.Same (exec (.updateRun (.cancelChanged name now)) w) ↔ ¬w.Waiting name := by
  have hruns : (exec (.updateRun (.cancelChanged name now)) w).tables.jobRuns =
      w.tables.jobRuns ↔ ¬w.Waiting name := by
    refine update_eq_self_iff.trans ?_
    simp only [World.Waiting, not_exists, not_and]
    refine forall₂_congr fun x _ => ?_
    simp only [RunStmt.update, cancelChanged, decide_eq_true_eq, and_imp]
    refine forall_congr' fun _ => ?_
    constructor
    · rintro h (hq | hq)
      all_goals
        have hs := congrArg RunRow.status (h (by simp [hq]))
        simp [hq] at hs
    · exact fun h hq => absurd hq h
  constructor
  · exact fun h => hruns.mp h.jobRuns
  · exact fun h => ⟨rfl, rfl, rfl, rfl, rfl, rfl, hruns.mpr h⟩

theorem syncJob_eq_iff {job : JobDef} {now : Time} :
    (World.syncJob job now w).tables.jobs = w.tables.jobs ∧
      (World.syncJob job now w).columns = w.columns ↔ w.Written job now := by
  have hjobs : (World.syncJob job now w).tables.jobs = w.tables.jobs ↔
      (w.tables.job job.name).isSome := by
    simp only [World.syncJob, Stmt.effect, Db.syncJob]
    by_cases h : (w.tables.job job.name).isSome <;> simp [h]
  have hcols : (World.syncJob job now w).columns = w.columns ↔
      (w.column job.name).isSome ∧ ∀ c ∈ w.columns, c.name = job.name → c = job.columns now := by
    simp only [World.syncJob, upsert]
    by_cases h : (lookup JobColumns.name job.name w.columns).isSome
    · have hl : (w.column job.name).isSome := h
      have hn : (job.columns now).name = job.name := rfl
      rw [hn, if_pos h, update_eq_self_iff]
      simp only [hl, true_and, decide_eq_true_eq]
      refine forall₂_congr fun c _ => forall_congr' fun hc => ?_
      constructor
      · intro he
        rw [← he, hc]
        rfl
      · intro he
        rw [he]
    · have hl : (w.column job.name).isSome = false := Bool.eq_false_iff.mpr h
      have hn : (job.columns now).name = job.name := rfl
      rw [hn, if_neg h]
      simp [hl]
  rw [hjobs, hcols]
  rfl

theorem same_syncJob {job : JobDef} (now stamp : Time) :
    w.Same (World.syncJob job stamp (exec (.updateRun (.cancelChanged job.name now)) w)) ↔
      ¬w.Waiting job.name ∧ w.Written job stamp := by
  have hruns (v : World) : (World.syncJob job stamp v).tables.jobRuns = v.tables.jobRuns := by
    simp only [World.syncJob, Stmt.effect, Db.syncJob]
    split <;> rfl
  have hsync : (World.syncJob job stamp (exec (.updateRun (.cancelChanged job.name now)) w)).tables.jobs
      = (World.syncJob job stamp w).tables.jobs := by
    simp only [World.syncJob, Stmt.effect, Db.syncJob]
    change (if (w.tables.job job.name).isSome then _ else _ : Effect).2.jobs = _
    split <;> rfl
  rw [← same_cancelChanged now, ← syncJob_eq_iff]
  constructor
  · intro h
    refine ⟨⟨rfl, rfl, rfl, rfl, rfl, rfl, (hruns _).symm.trans h.jobRuns⟩, ?_, h.columns⟩
    exact hsync.symm.trans h.jobs
  · rintro ⟨hc, hjobs, hcols⟩
    exact ⟨rfl, rfl, rfl, hsync.trans hjobs, hcols, rfl, (hruns _).trans hc.jobRuns⟩

/-! ## After a new generation there is no way back -/

/-- The job has the generation `id`. -/
def World.Generation (name id : String) (w : World) : Prop :=
  ∃ row, w.tables.job name = some row ∧ row.configGeneration = id

theorem Reload.Fresh.not_same {name' : String} (hf : r.Fresh w)
    (h : w'.Generation name (r.ids name')) : ¬w.Same w' := by
  intro hs
  obtain ⟨row, hr, hg⟩ := h
  rw [Tables.job, hs.jobs] at hr
  exact hf name' row (lookup_eq_some_mem hr).1 hg

theorem ForeignTo.generation {ops : List (Op World String)} {id : String}
    (h : ForeignTo name ops) : ∀ op ∈ ops, op.Keeps (World.Generation name id) :=
  h.keeps fun v => ∃ row, v.row = some row ∧ row.configGeneration = id

theorem generation_set {id : String} (h : (w.tables.job name).isSome) :
    (exec (.setConfigGeneration name id) w).Generation name id := by
  obtain ⟨row, hr⟩ := Option.isSome_iff_exists.mp h
  have hj : (exec (.setConfigGeneration name id) w).tables.job name =
      if name = name then (w.tables.job name).map fun j => { j with configGeneration := id }
      else w.tables.job name := lookup_update_key w.tables.jobs (by intro _; rfl) name
  rw [if_pos rfl, hr] at hj
  exact ⟨_, hj, rfl⟩

theorem job_syncJob (job : JobDef) (now : Time) (w : World) :
    ((World.syncJob job now w).tables.job job.name).isSome := by
  simp only [World.syncJob, Stmt.effect, Db.syncJob]
  split
  · assumption
  · have hl : lookup JobRow.name job.name (w.tables.jobs ++ [⟨job.name, .pending, ""⟩]) =
        (w.tables.job job.name).or (some ⟨job.name, .pending, ""⟩) := by
      rw [lookup_append]
      simp [lookup, Tables.job]
    simp [Tables.job, hl]

/-- The lines behind a changed job's new generation, up to the end of the script. -/
def afterGeneration (cal : Calendar) (r : Reload) (cfg : ResolvedConfig) (w : World) (job : JobDef)
    (rest : List JobDef) : List (Op World String) :=
  (syncScheduleFor cal job (r.ids job.name) r.now false).tail ++
    (rest.flatMap (applyChanged cal r) ++
      ((w.removed cfg).flatMap (forgetRemoved w) ++ publish r cfg w))

theorem reloadScript_changed {job : JobDef} {rest : List JobDef}
    (h : w.changedJobs cfg = job :: rest) :
    reloadScript cal r cfg w =
      .call (exec (.updateRun (.cancelChanged job.name r.now))) ::
        .call (World.syncJob job (r.stamps job.name)) ::
        .call (exec (.setConfigGeneration job.name (r.ids job.name))) ::
        afterGeneration cal r cfg w job rest := by
  rw [reloadScript, h, List.flatMap_cons, List.append_assoc]
  rfl

/-- None of them gives the job another generation. -/
theorem afterGeneration_keeps {job : JobDef} {rest : List JobDef} {id : String}
    (h : w.changedJobs cfg = job :: rest) :
    ∀ op ∈ afterGeneration cal r cfg w job rest, op.Keeps (World.Generation job.name id) := by
  have hnd := nodup_changedJobs w cfg
  rw [h, List.map_cons, List.nodup_cons] at hnd
  have hjob : job ∈ w.changedJobs cfg := h ▸ List.mem_cons_self
  have hrest : ForeignTo job.name (rest.flatMap (applyChanged cal r)) :=
    foreignTo_flatMap fun _ ho =>
      foreignTo_applyChanged (ne_of_mem_of_not_mem (List.mem_map_of_mem ho) hnd.1).symm
  have hremoved : ForeignTo job.name ((w.removed cfg).flatMap (forgetRemoved w)) :=
    foreignTo_removed fun hr =>
      (mem_removed.mp hr).2 (List.mem_map_of_mem (mem_changedJobs.mp hjob).1)
  intro op hop
  simp only [afterGeneration, syncScheduleFor, List.tail_cons, List.mem_append, List.mem_cons,
    List.not_mem_nil, or_false] at hop
  obtain (rfl | rfl | rfl | rfl) | hop | hop | hop := hop
  · trivial
  · trivial
  · exact fun _ hu => hu
  · exact fun _ hu => hu
  · exact hrest.generation op hop
  · exact hremoved.generation op hop
  · exact publish_keeps_rows (I := fun t _ => ∃ row, t.job job.name = some row ∧
      row.configGeneration = id) op hop

theorem assert_mem_afterGeneration {job : JobDef} {rest : List JobDef} {p : Bool}
    (h : .assert p ∈ afterGeneration cal r cfg w job rest) : p = isTimestamp r.now := by
  simp only [afterGeneration, syncScheduleFor, List.tail_cons, List.mem_append, List.mem_cons,
    List.not_mem_nil, or_false, reduceCtorEq, false_or, Op.assert.injEq, List.mem_flatMap,
    applyChanged, forgetRemoved, forgetJobCurrent, publish, List.cons_append, List.mem_map,
    and_false, exists_false] at h
  obtain h | ⟨other, -, h⟩ | ⟨other, -, h⟩ := h
  · exact h
  · exact h
  · split at h <;> simp at h

/-! ## After the first removed job there is no way back either -/

/-- The lines behind the one that takes a removed job out of the live map. -/
def afterDrop (r : Reload) (cfg : ResolvedConfig) (w : World) (name : String)
    (rest : List String) : List (Op World String) :=
  (forgetRemoved w name).drop 3 ++ (rest.flatMap (forgetRemoved w) ++ publish r cfg w)

theorem reloadScript_removed {rest : List String} (hc : w.changedJobs cfg = [])
    (h : w.removed cfg = name :: rest) :
    reloadScript cal r cfg w =
      .check (isJobName name) "invalid job name" ::
        .attempt (exec (.updateRun (.setCancellingByJob name))) :: .memory (dropLive name) ::
        afterDrop r cfg w name rest := by
  rw [reloadScript, hc, h, List.flatMap_cons, List.append_assoc]
  rfl

theorem forgetRemoved_keeps_none (v : World) (other : String) :
    ∀ op ∈ forgetRemoved v other, op.Keeps fun u => u.job name = none := by
  refine forgetJobCurrent_keeps_live (I := fun jobs => lookup JobDef.name name jobs = none) ?_ _
  intro jobs hnone
  rw [lookup_delete, hnone, ite_self]

theorem afterDrop_keeps {rest : List String} (hc : w.changedJobs cfg = []) :
    ∀ op ∈ afterDrop r cfg w name rest, op.Keeps fun u => u.job name = none := by
  intro op hop
  simp only [afterDrop, List.mem_append, List.mem_flatMap] at hop
  obtain hop | ⟨other, -, hop⟩ | hop := hop
  · exact forgetRemoved_keeps_none w name op (List.mem_of_mem_drop hop)
  · exact forgetRemoved_keeps_none w other op hop
  · refine publish_keeps (fun u hu => ?_) (fun _ _ _ hu => hu) (fun _ hu => hu) (fun _ _ hu => hu)
      op hop
    rwa [hc]

theorem assert_not_mem_afterDrop {rest : List String} {p : Bool} :
    .assert p ∉ afterDrop r cfg w name rest := by
  intro h
  simp only [afterDrop, forgetRemoved, forgetJobCurrent, List.cons_append, List.nil_append,
    List.drop_succ_cons, List.drop_zero, List.mem_append, List.mem_cons, reduceCtorEq, false_or,
    List.mem_flatMap, publish, List.mem_map, and_false, exists_false, List.not_mem_nil,
    or_false] at h
  obtain h | ⟨other, -, h⟩ := h
  all_goals split at h <;> simp at h

/-! ## When an error leaves everything as it was -/

/-- The condition on the lines of the script. Nothing fails; or, at the first changed job, its first
statement does, or one of the next two with nothing written before it; or the clock makes the code
panic; or the first name to remove is no job name. -/
def Reload.HarmlessFor (cal : Calendar) (r : Reload) (cfg : ResolvedConfig) (w : World) : Prop :=
  Passes r.fails 0 (reloadScript cal r cfg w) ∨
    match w.changedJobs cfg, w.removed cfg with
    | job :: _, _ =>
      (r.fails 0).isSome ∨
        ((r.fails 1).isSome ∧ ¬w.Waiting job.name) ∨
        ((r.fails 2).isSome ∧ ¬w.Waiting job.name ∧ w.Written job (r.stamps job.name)) ∨
        (r.fails 1 = none ∧ r.fails 2 = none ∧ cal.knownZone job.timezone ∧
          isTimestamp r.now = false)
    | [], name :: _ => isJobName name = false
    | [], [] => False

/-- A file that does not load, or that changes a fixed setting, is rejected before any write. -/
def Reload.Harmless (cal : Calendar) (r : Reload) (w : World) : Prop :=
  ∀ cfg, r.loaded = .ok cfg → w.settings.reject cfg.settings = none → r.HarmlessFor cal cfg w

/-- An error of the script has changed nothing. -/
def Unhurt (fails : ℕ → Option String) (n : ℕ) (ops : List (Op World String)) (w v : World) :
    Prop := ∀ e, (run fails n ops v).1 = .err e → w.Same (run fails n ops v).2

/-- Where every error comes too late, only success is left. -/
theorem unhurt_iff_passes {fails : ℕ → Option String} {n : ℕ} {ops : List (Op World String)}
    {v : World} (hp : ∀ p, .assert p ∈ ops → p = true)
    (hs : ¬w.Same (run fails n ops v).2) : Unhurt fails n ops w v ↔ Passes fails n ops := by
  rw [← run_ok_iff (w := v)]
  constructor
  · intro h
    have hend : (∃ e, (run fails n ops v).1 = .err e) ∨ (run fails n ops v).1 = .ok :=
      run_err_or_ok hp
    obtain ⟨e, he⟩ | hok := hend
    · exact absurd (h e he) hs
    · exact hok
  · intro hok e he
    rw [hok] at he
    cases he

/-- Once the first changed job has its generation, an error leaves a trace. -/
theorem unhurt_late {job : JobDef} {rest : List JobDef} {v : World} {n : ℕ} (hf : r.Fresh w)
    (h : w.changedJobs cfg = job :: rest) (hv : v.Generation job.name (r.ids job.name)) :
    Unhurt r.fails n (afterGeneration cal r cfg w job rest) w v ↔
      Passes r.fails n (afterGeneration cal r cfg w job rest) ∨
        (cal.knownZone job.timezone ∧ isTimestamp r.now = false) := by
  have hlate : ¬w.Same (run r.fails n (afterGeneration cal r cfg w job rest) v).2 :=
    hf.not_same (run_keeps (afterGeneration_keeps h) hv)
  cases ht : isTimestamp r.now with
  | true =>
    have hp : ∀ p, .assert p ∈ afterGeneration cal r cfg w job rest → p = true :=
      fun p hp => (assert_mem_afterGeneration hp).trans ht
    simp [unhurt_iff_passes hp hlate]
  | false =>
    cases hz : cal.knownZone job.timezone with
    | true => simp [Unhurt, afterGeneration, syncScheduleFor, run, hz, ht]
    | false =>
      simp only [afterGeneration, syncScheduleFor, List.tail_cons, List.cons_append, run, hz,
        Bool.false_eq_true, if_false] at hlate
      simp [Unhurt, afterGeneration, syncScheduleFor, Passes, Op.Passes, hz, hlate]

/-- The first changed job: what fails among its first three statements, and what fails later. -/
theorem unhurt_changed {job : JobDef} {rest : List JobDef} (hf : r.Fresh w)
    (h : w.changedJobs cfg = job :: rest) :
    Unhurt r.fails 0 (reloadScript cal r cfg w) w w ↔
      Passes r.fails 0 (reloadScript cal r cfg w) ∨ (r.fails 0).isSome ∨
        ((r.fails 1).isSome ∧ ¬w.Waiting job.name) ∨
        ((r.fails 2).isSome ∧ ¬w.Waiting job.name ∧ w.Written job (r.stamps job.name)) ∨
        (r.fails 1 = none ∧ r.fails 2 = none ∧ cal.knownZone job.timezone ∧
          isTimestamp r.now = false) := by
  rw [reloadScript_changed h]
  cases h0 : r.fails 0 with
  | some e =>
    have hs := World.Same.refl w
    simp [Unhurt, run, h0, hs]
  | none =>
    cases h1 : r.fails 1 with
    | some e =>
      have hs : w.Same (exec (.updateRun (.cancelChanged job.name r.now)) w) ↔
          ¬w.Waiting job.name := same_cancelChanged r.now
      have hu : Unhurt r.fails 0 (.call (exec (.updateRun (.cancelChanged job.name r.now))) ::
          .call (World.syncJob job (r.stamps job.name)) ::
          .call (exec (.setConfigGeneration job.name (r.ids job.name))) ::
          afterGeneration cal r cfg w job rest) w w ↔ ¬w.Waiting job.name := by
        simp [Unhurt, run, h0, h1, hs]
      rw [hu]
      constructor
      · exact fun hn => Or.inr (Or.inr (Or.inl ⟨rfl, hn⟩))
      · rintro (⟨-, hp, -⟩ | hz | ⟨-, hn⟩ | ⟨-, hn, -⟩ | ⟨hn, -⟩)
        · simp [Op.Passes, h1] at hp
        · simp at hz
        · exact hn
        · exact hn
        · cases hn
    | none =>
      cases h2 : r.fails 2 with
      | some e =>
        have hs : w.Same (World.syncJob job (r.stamps job.name)
            (exec (.updateRun (.cancelChanged job.name r.now)) w)) ↔
            ¬w.Waiting job.name ∧ w.Written job (r.stamps job.name) :=
          same_syncJob r.now (r.stamps job.name)
        simp [Unhurt, run, Passes, Op.Passes, h0, h1, h2, hs]
      | none =>
        have hgen : World.Generation job.name (r.ids job.name)
            (exec (.setConfigGeneration job.name (r.ids job.name))
              (World.syncJob job (r.stamps job.name)
                (exec (.updateRun (.cancelChanged job.name r.now)) w))) :=
          generation_set (job_syncJob job _ _)
        have hlate : Unhurt r.fails 3 (afterGeneration cal r cfg w job rest) w _ ↔ _ :=
          unhurt_late hf h hgen
        simp only [Unhurt] at hlate
        simp [Unhurt, run, Passes, Op.Passes, h0, h1, h2, hlate]

/-- No job changes: the first name to remove decides. -/
theorem unhurt_removed {rest : List String} (hc : w.changedJobs cfg = [])
    (h : w.removed cfg = name :: rest) :
    Unhurt r.fails 0 (reloadScript cal r cfg w) w w ↔
      Passes r.fails 0 (reloadScript cal r cfg w) ∨ isJobName name = false := by
  have hlive : name ∈ w.liveJobs.map JobDef.name :=
    (mem_removed.mp (h ▸ List.mem_cons_self : name ∈ w.removed cfg)).1
  rw [reloadScript_removed hc h]
  cases hn : isJobName name with
  | false =>
    have hs := World.Same.refl w
    simp [Unhurt, run, hs]
  | true =>
    have hgone (v : World) : ¬w.Same (run r.fails 3 (afterDrop r cfg w name rest)
        (dropLive name v)).2 := by
      intro hs
      have hnone : (dropLive name v).job name = none :=
        (lookup_delete v.liveJobs name).trans (if_pos rfl)
      have hend : (run r.fails 3 (afterDrop r cfg w name rest) (dropLive name v)).2.job name =
          none := run_keeps (afterDrop_keeps hc) hnone
      rw [World.job, hs.liveJobs] at hend
      obtain ⟨live, hl, rfl⟩ := List.mem_map.mp hlive
      have hno := List.find?_eq_none.mp hend live hl
      simp at hno
    have hpass (v : World) : Unhurt r.fails 3 (afterDrop r cfg w name rest) w (dropLive name v) ↔
        Passes r.fails 3 (afterDrop r cfg w name rest) :=
      unhurt_iff_passes (fun p hp => absurd hp assert_not_mem_afterDrop) (hgone v)
    simp only [Unhurt] at hpass
    simp [Unhurt, run, Passes, Op.Passes, hpass]

theorem unhurt_iff (hf : r.Fresh w) :
    Unhurt r.fails 0 (reloadScript cal r cfg w) w w ↔ r.HarmlessFor cal cfg w := by
  rw [Reload.HarmlessFor]
  cases hc : w.changedJobs cfg with
  | cons job rest => exact unhurt_changed hf hc
  | nil =>
    cases hr : w.removed cfg with
    | cons name rest => exact unhurt_removed hc hr
    | nil =>
      have hp : Passes r.fails 0 (reloadScript cal r cfg w) := by
        simp [reloadScript, publish, hc, hr, Passes, Op.Passes]
      have hok := (run_ok_iff (w := w)).mpr hp
      simp [Unhurt, hok, hp]

/-- A reload that answers `Err` leaves the maps and the tables alone exactly under this
condition. -/
theorem reload_all_or_nothing_iff (hf : r.Fresh w) :
    (∀ e w', reload cal r w = (some (.error e), w') → w.Same w') ↔ r.Harmless cal w := by
  have hs := World.Same.refl w
  cases hl : r.loaded with
  | error e => simp [reload, Reload.Harmless, hl, hs]
  | ok cfg =>
    cases hj : w.settings.reject cfg.settings with
    | some e => simp [reload, Reload.Harmless, hl, hj, hs]
    | none =>
      have hu : (∀ e w', reload cal r w = (some (.error e), w') → w.Same w') ↔
          Unhurt r.fails 0 (reloadScript cal r cfg w) w w := by
        simp only [reload, hl, hj, Unhurt]
        rcases run r.fails 0 (reloadScript cal r cfg w) w with ⟨verdict, v⟩
        cases verdict <;> simp
      rw [hu, unhurt_iff hf]
      simp [Reload.Harmless, hl, hj]

/-- Only the line `k` fails. -/
def failsAt (k n : ℕ) : Option String := if n = k then some "database is locked" else none

theorem reload_all_or_nothing_threeMirrors : ∃ e w',
    reload utcOnly (reloadNext (failsAt 0)) threeMirrors = (some (.error e), w') ∧
      threeMirrors.Same w' := by
  have hfresh : (reloadNext (failsAt 0)).Fresh threeMirrors := by
    intro name row hrow hid
    have hgen : row.configGeneration.toList.head? = some 'g' := by
      have hall : ∀ x ∈ threeMirrors.tables.jobs, x.configGeneration.toList.head? = some 'g' := by
        decide +kernel
      exact hall row hrow
    rw [hid] at hgen
    simp [reloadNext, String.toList_append] at hgen
  obtain ⟨e, he⟩ : ∃ e, (reload utcOnly (reloadNext (failsAt 0)) threeMirrors).1 =
      some (.error e) := ⟨_, rfl⟩
  refine ⟨e, _, Prod.ext he rfl, (reload_all_or_nothing_iff hfresh).mpr (fun cfg hc _ => Or.inr ?_)
    e _ (Prod.ext he rfl)⟩
  obtain rfl : nextConfig = cfg := Except.ok.inj hc
  obtain ⟨job, rest, hch⟩ : ∃ job rest, threeMirrors.changedJobs nextConfig = job :: rest :=
    ⟨hourly "arch" "proxy", [hourly "new" ""], by decide +kernel⟩
  rw [hch]
  exact Or.inl rfl

/-- The queued run of `arch` is cancelled although the definition is not stored. -/
theorem failed_reload_cancels_run :
    ¬∀ e w', reload utcOnly (reloadNext (failsAt 1)) threeMirrors = (some (.error e), w') →
      threeMirrors.Same w' := by
  intro h
  have hs := h "database is locked" (reload utcOnly (reloadNext (failsAt 1)) threeMirrors).2
    (Prod.ext (by decide +kernel) rfl)
  have hruns : (reload utcOnly (reloadNext (failsAt 1)) threeMirrors).2.tables.jobRuns ≠
      threeMirrors.tables.jobRuns := by decide +kernel
  exact hruns hs.jobRuns

end Synora.Engine
