import Synora.Core.Metrics
import Synora.Lib.Runs

namespace Synora.Core
open Strings

/-! # The series of one job -/

variable {V : Type*}

/-- The gauge of one job, with the series it stands in. -/
abbrev JobGauge (V : Type*) := Option (Key × V)

/-- The gauge `name` of `job`, where a write sets it. -/
def Write.sets (name job : Text) : Write V → JobGauge V
  | .setJobGauge n j labels value =>
    if n = name ∧ j = job then some (keyOf n labels, value) else none
  | _ => none

/-- A write removes the gauge `name` of `job`. -/
def Write.drops (name job : Text) : Write V → Key × V → Bool
  | .removeJobMetric n j, _ => decide (name = n) && decide (j = job)
  | .removeJobWorkerMetric n j worker, x =>
    decide (name = n) && decide (j = job) && x.1.hasLabel "worker".toList worker
  | .removeWorkerMetrics names worker, x =>
    names.contains name && x.1.hasLabel "worker".toList worker
  | .removeJob j, _ => decide (j = job)
  | .setGauge .., _ => false
  | .setJobGauge .., _ => false
  | .incCounter .., _ => false

def Write.jobGauge (name job : Text) (w : Write V) (g : JobGauge V) : JobGauge V :=
  (w.sets name job).or (g.filter fun x => !w.drops name job x)

/-- The gauge after these writes. -/
def jobGaugeAfter (name job : Text) (writes : List (Write V)) : JobGauge V :=
  writes.foldl (fun g w => w.jobGauge name job g) none

/-- The metric is set for one job at a time, and by nothing else. -/
def Write.ForJobs (name : Text) : Write V → Prop
  | .setGauge n _ _ => n ≠ name
  | .incCounter n _ _ => n ≠ name
  | .setJobGauge n job labels _ => n = name → ∀ j, ("job".toList, j) ∈ labels ↔ j = job
  | _ => True

namespace Metrics

/-- The series of a metric that carry a job. -/
def jobSeries (m : Metrics V) (name job : Text) : List (Key × Entry V) :=
  m.entries.filter fun e => decide (e.1.name = name) && e.1.hasLabel "job".toList job

end Metrics

/-- The series is one of the metric, and of this job only. -/
def Key.Of (key : Key) (name job : Text) : Prop :=
  key.name = name ∧ ∀ j, key.hasLabel "job".toList j ↔ j = job

def gaugeEntry (x : Key × V) : Key × Entry V := (x.1, ⟨.gauge, x.2⟩)

section
variable {f64 : Values V} {m : Metrics V} {name job : Text} {g : JobGauge V} {w : Write V}
  {labels : List (Text × Text)}

theorem hasLabel_keyOf (n : Text) (labels : List (Text × Text)) (label value : Text) :
    (keyOf n labels).hasLabel label value = decide ((label, value) ∈ labels) := by
  rw [Key.hasLabel, List.contains_eq_mem]
  exact decide_eq_decide.mpr (List.mem_insertionSort (ByPair id))

theorem keyOf_of (h : ∀ j, ("job".toList, j) ∈ labels ↔ j = job) : (keyOf name labels).Of name job :=
  ⟨rfl, fun j => by rw [hasLabel_keyOf, decide_eq_true_iff, h]⟩

theorem jobSeries_retain (h : m.jobSeries name job = g.toList.map gaugeEntry) (p : Key → Bool) :
    (m.retain p).jobSeries name job = (g.filter fun x => p x.1).toList.map gaugeEntry := by
  have hcomm : (m.retain p).jobSeries name job = (m.jobSeries name job).filter fun e => p e.1 := by
    unfold Metrics.jobSeries Metrics.retain
    rw [List.filter_filter, List.filter_filter]
    exact List.filter_congr fun e _ => Bool.and_comm _ _
  rw [hcomm, h]
  cases g with
  | none => rfl
  | some x => cases hp : p x.1 <;> simp [gaugeEntry, Option.filter, hp]

/-- A series of another metric, or of another job, does not show. -/
theorem jobSeries_insert {key : Key} (entry : Entry V)
    (h : key.name ≠ name ∨ key.hasLabel "job".toList job = false) :
    (m.insert key entry).jobSeries name job = m.jobSeries name job := by
  unfold Metrics.jobSeries Metrics.insert Metrics.retain
  have hkey : (decide (key.name = name) && key.hasLabel "job".toList job) = false := by
    obtain h | h := h
    · rw [decide_eq_false h, Bool.false_and]
    · rw [h, Bool.and_false]
  rw [List.filter_append, List.filter_singleton, hkey, List.filter_filter, Bool.cond_false,
    List.append_nil]
  refine List.filter_congr fun e _ => ?_
  by_cases he : e.1 = key
  · rw [he, hkey, Bool.false_and]
  · simp [he]

theorem Key.Of.hasLabel_job {key : Key} (h : key.Of name job) (j : Text) :
    key.hasLabel "job".toList j = decide (j = job) := by
  rw [Bool.eq_iff_iff, h.2, decide_eq_true_iff]

/-- Series that are removed are removed from the gauge. -/
theorem jobSeries_removal {p : Key → Bool} (hg : ∀ x ∈ g, x.1.Of name job)
    (h : m.jobSeries name job = g.toList.map gaugeEntry) (hsets : w.sets name job = none)
    (hdrops : ∀ x : Key × V, x.1.Of name job → p x.1 = !w.drops name job x) :
    (m.retain p).jobSeries name job = (w.jobGauge name job g).toList.map gaugeEntry := by
  have hfilter : (g.filter fun x => p x.1) = g.filter fun x => !w.drops name job x := by
    cases g with
    | none => rfl
    | some x => rw [Option.filter, Option.filter, hdrops x (hg x rfl)]
  rw [jobSeries_retain h, Write.jobGauge, hsets, Option.none_or, hfilter]

/-- A write that neither sets nor drops the gauge keeps it. -/
theorem jobGauge_kept (hsets : w.sets name job = none)
    (hdrops : ∀ x, w.drops name job x = false) : w.jobGauge name job g = g := by
  rw [Write.jobGauge, hsets, Option.none_or]
  cases g with
  | none => rfl
  | some x => rw [Option.filter, hdrops, Bool.not_false, if_pos rfl]

/-- A write does to the registry what it does to the gauge of the job. -/
theorem jobSeries_write (hw : w.ForJobs name) (hg : ∀ x ∈ g, x.1.Of name job)
    (h : m.jobSeries name job = g.toList.map gaugeEntry) :
    (m.write f64 w).jobSeries name job = (w.jobGauge name job g).toList.map gaugeEntry := by
  cases w with
  | setGauge n labels value =>
    rw [Write.ForJobs] at hw
    rw [jobGauge_kept rfl fun _ => rfl]
    exact (jobSeries_insert _ (.inl hw)).trans h
  | incCounter n labels delta =>
    rw [Write.ForJobs] at hw
    rw [jobGauge_kept rfl fun _ => rfl]
    exact (jobSeries_insert _ (.inl hw)).trans h
  | removeJobMetric n j =>
    refine jobSeries_removal hg h rfl fun x hx => ?_
    rw [hx.1, hx.hasLabel_job, Write.drops]
  | removeJobWorkerMetric n j worker =>
    refine jobSeries_removal hg h rfl fun x hx => ?_
    rw [hx.1, hx.hasLabel_job, Write.drops]
  | removeWorkerMetrics names worker =>
    refine jobSeries_removal hg h rfl fun x hx => ?_
    rw [hx.1, Write.drops]
  | removeJob j =>
    refine jobSeries_removal hg h rfl fun x hx => ?_
    rw [hx.hasLabel_job, Write.drops]
  | setJobGauge n j labels value =>
    rw [Write.ForJobs] at hw
    by_cases hboth : n = name ∧ j = job
    · obtain ⟨rfl, rfl⟩ := hboth
      rw [Write.jobGauge, Write.sets, if_pos ⟨rfl, rfl⟩, Option.some_or]
      exact m.setJobGauge_series n j value ((hw rfl j).mpr rfl)
    · -- what it removes and what it sets is not of this metric, or not of this job
      have hother : (keyOf n labels).name ≠ name ∨
          (keyOf n labels).hasLabel "job".toList job = false := by
        by_cases hn : n = name
        · right
          rw [(keyOf_of (hw hn)).hasLabel_job]
          exact decide_eq_false fun hj => hboth ⟨hn, hj.symm⟩
        · exact .inl hn
      have hsets : (Write.setJobGauge n j labels value).sets name job = none := by
        rw [Write.sets, if_neg hboth]
      refine (jobSeries_insert _ hother).trans (jobSeries_removal hg h hsets fun x hx => ?_)
      rw [hx.1, hx.hasLabel_job, Write.drops, Bool.not_false, Bool.not_eq_true',
        Bool.and_eq_false_iff, decide_eq_false_iff_not, decide_eq_false_iff_not]
      exact not_and_or.mp fun ⟨hn, hj⟩ => hboth ⟨hn.symm, hj⟩

theorem jobGauge_of (hw : w.ForJobs name) (hg : ∀ x ∈ g, x.1.Of name job) :
    ∀ x ∈ w.jobGauge name job g, x.1.Of name job := by
  intro x hx
  obtain hsets | ⟨-, hrest⟩ := Option.or_eq_some_iff.mp hx
  · cases w with
    | setJobGauge n j labels value =>
      rw [Write.sets] at hsets
      split_ifs at hsets with hboth
      obtain ⟨rfl, rfl⟩ := hboth
      cases hsets
      exact keyOf_of (hw rfl)
    | _ => cases hsets
  · exact hg x (Option.filter_eq_some_iff.mp hrest).1

end

/-- After any writes, a metric that is only set for one job at a time has at most one series for
each job: that of the last call that set it and that no later call has removed. -/
theorem job_gauge_tracks (f64 : Values V) (name : Text) (writes : List (Write V))
    (h : ∀ w ∈ writes, w.ForJobs name) (job : Text) :
    (Metrics.after f64 writes).jobSeries name job =
      (jobGaugeAfter name job writes).toList.map gaugeEntry := by
  have hall : (∀ x ∈ jobGaugeAfter name job writes, x.1.Of name job) ∧
      (Metrics.after f64 writes).jobSeries name job =
        (jobGaugeAfter name job writes).toList.map gaugeEntry := by
    induction writes using List.reverseRecOn with
    | nil => exact ⟨by simp [jobGaugeAfter], rfl⟩
    | append_singleton writes w ih =>
      obtain ⟨hof, hseries⟩ := ih fun x hx => h x (List.mem_append_left _ hx)
      have hw := h w (by simp)
      rw [jobGaugeAfter, Metrics.after, List.foldl_append, List.foldl_append]
      exact ⟨jobGauge_of hw hof, jobSeries_write hw hof hseries⟩
  exact hall.2

/-- The labels of the callers of `set_job_gauge`. -/
def jobWorker (job worker : Text) : List (Text × Text) :=
  [("job".toList, job), ("worker".toList, worker)]

theorem setJobGauge_forJobs (name n job worker : Text) (value : V) :
    (Write.setJobGauge n job (jobWorker job worker) value).ForJobs name := by
  intro _ j
  have hne : "job".toList ≠ "worker".toList := by decide
  simp only [jobWorker, List.mem_cons, Prod.mk.injEq, true_and, hne, false_and, List.not_mem_nil,
    or_false]

/-! ## One series -/

/-- A write removes the series. -/
def Write.clears (key : Key) : Write V → Bool
  | .setGauge .. => false
  | .incCounter .. => false
  | .setJobGauge n j _ _ => decide (key.name = n) && key.hasLabel "job".toList j
  | .removeJobMetric n j => decide (key.name = n) && key.hasLabel "job".toList j
  | .removeJobWorkerMetric n j worker => decide (key.name = n) && key.hasLabel "job".toList j &&
    key.hasLabel "worker".toList worker
  | .removeWorkerMetrics names worker => names.contains key.name &&
    key.hasLabel "worker".toList worker
  | .removeJob j => key.hasLabel "job".toList j

section
variable {f64 : Values V} {m : Metrics V} {key : Key} {w : Write V}

namespace Metrics

theorem get_retain (m : Metrics V) (key : Key) (p : Key → Bool) :
    (m.retain p).get key = if p key then m.get key else none := by
  unfold get retain
  dsimp only
  induction m.entries with
  | nil => simp
  | cons e es ih =>
    by_cases hkey : e.1 = key <;> by_cases hp : p e.1 <;> simp_all

theorem get_insert (key' : Key) (entry : Entry V) :
    (m.insert key' entry).get key = if key' = key then some entry else m.get key := by
  have hretain := get_retain m key fun k => decide (k ≠ key')
  unfold get at hretain ⊢
  rw [insert, List.find?_append, Option.map_or, hretain]
  by_cases h : key' = key
  · simp [h]
  · have hne : decide (key ≠ key') = true := decide_eq_true (Ne.symm h)
    rw [if_pos hne, if_neg h, List.find?_singleton, decide_eq_false h]
    exact Option.or_none

end Metrics

/-- A write to another series changes this one at most by removing it. -/
theorem get_write_of_ne (h : w.key ≠ some key) :
    (m.write f64 w).get key = if w.clears key then none else m.get key := by
  have hset : ∀ {m' : Metrics V} {key' : Key} {entry : Entry V}, w.key = some key' →
      (m'.insert key' entry).get key = m'.get key := by
    intro m' key' entry hkey
    rw [Metrics.get_insert, if_neg]
    rintro rfl
    exact h hkey
  have hremoved : ∀ p : Key → Bool, w.clears key = !p key →
      (m.retain p).get key = if w.clears key then none else m.get key := by
    intro p hp
    rw [Metrics.get_retain, hp]
    cases p key <;> rfl
  cases w with
  | setGauge n labels value => exact hset rfl
  | incCounter n labels delta => exact hset rfl
  | setJobGauge n j labels value => exact (hset rfl).trans (hremoved _ (Bool.not_not _).symm)
  | removeJobMetric n j => exact hremoved _ (Bool.not_not _).symm
  | removeJobWorkerMetric n j worker => exact hremoved _ (Bool.not_not _).symm
  | removeWorkerMetrics names worker => exact hremoved _ (Bool.not_not _).symm
  | removeJob j => exact hremoved _ (Bool.not_not _).symm

end

/-! ### A job that moves to another worker -/

/-- Numbers that print in decimal. -/
def natValues : Values ℕ := ⟨0, (· + ·), Nat.toDigits 10⟩

def movingJob : List (Write ℕ) :=
  ["local".toList, "mirror".toList].map fun worker =>
    .setJobGauge "synora_job_status".toList "ubuntu".toList (jobWorker "ubuntu".toList worker) 1

theorem job_gauge_tracks_moving :
    (Metrics.after natValues movingJob).jobSeries "synora_job_status".toList "ubuntu".toList =
      (jobGaugeAfter "synora_job_status".toList "ubuntu".toList movingJob).toList.map gaugeEntry :=
  job_gauge_tracks natValues _ movingJob
    (List.forall_mem_map.mpr fun worker _ => setJobGauge_forJobs _ _ _ worker 1) _

end Synora.Core
