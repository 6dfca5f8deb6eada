import Synora.Core.Series

namespace Synora.Manager
open Strings Core

/-! # The resource samples of the heartbeats -/

variable {V : Type*}

structure ResourceSample (V : Type*) where
  job : Text
  memoryBytes : Option V
  cpuSeconds : Option V
  cpuPercent : Option V
  bandwidthBytes : Option V

/-- A heartbeat that has passed the identity gate, with the jobs whose leases it has renewed. -/
structure SampledHeartbeat (V : Type*) where
  worker : Text
  validJobs : List Text
  resources : List (ResourceSample V)

def memoryName : Text := "synora_job_memory_bytes".toList
def cpuSecondsName : Text := "synora_job_cpu_seconds".toList
def cpuPercentName : Text := "synora_job_cpu_percent".toList
def bandwidthName : Text := "synora_job_bandwidth_bytes".toList

def sampledNames : List Text := [memoryName, cpuSecondsName, cpuPercentName, bandwidthName]

/-- What `heartbeat` writes for a sample; `usable` are the finite values from 0 to 20 GB. -/
def sampleWrites (usable : V → Bool) (worker : Text) (s : ResourceSample V) : List (Write V) :=
  let labels := jobWorker s.job worker
  (s.memoryBytes.map fun v => .setGauge memoryName labels v).toList ++
  (s.cpuSeconds.map fun v => .setGauge cpuSecondsName labels v).toList ++
  (s.cpuPercent.map fun v => .setGauge cpuPercentName labels v).toList ++
  ((s.bandwidthBytes.filter usable).map fun v =>
    .setJobGauge bandwidthName s.job labels v).toList

/-- The samples of jobs with a lease. -/
def SampledHeartbeat.accepted (hb : SampledHeartbeat V) : List (ResourceSample V) :=
  hb.resources.filter fun s => hb.validJobs.contains s.job

def heartbeatWrites (usable : V → Bool) (hb : SampledHeartbeat V) : List (Write V) :=
  .removeWorkerMetrics sampledNames hb.worker ::
    hb.accepted.flatMap (sampleWrites usable hb.worker)

/-- What happens to the registry: a heartbeat, or a write from elsewhere. -/
inductive MetricsEvent (V : Type*)
  | heartbeat (hb : SampledHeartbeat V)
  | write (w : Write V)

def MetricsEvent.writes (usable : V → Bool) : MetricsEvent V → List (Write V)
  | heartbeat hb => heartbeatWrites usable hb
  | write w => [w]

def metricsAfter (f64 : Values V) (usable : V → Bool) (events : List (MetricsEvent V)) : Metrics V :=
  events.foldl (fun m e => (e.writes usable).foldl (Metrics.write f64) m) .new

/-! ## What the heartbeats report -/

/-- The gauges that are sampled for a job on a worker. -/
inductive Sampled
  | memory | cpuSeconds | cpuPercent
deriving DecidableEq

namespace Sampled

def name : Sampled → Text
  | memory => memoryName
  | cpuSeconds => cpuSecondsName
  | cpuPercent => cpuPercentName

def field : Sampled → ResourceSample V → Option V
  | memory => ResourceSample.memoryBytes
  | cpuSeconds => ResourceSample.cpuSeconds
  | cpuPercent => ResourceSample.cpuPercent

def key (gauge : Sampled) (job worker : Text) : Key := keyOf gauge.name (jobWorker job worker)

end Sampled

/-- The value of the last sample that has one. -/
def SampledHeartbeat.value (hb : SampledHeartbeat V) (gauge : Sampled) (job : Text) : Option V :=
  ((hb.accepted.filter fun s => decide (s.job = job)).filterMap gauge.field).getLast?

/-- What an event tells of a series: its new entry, if it has one. -/
def MetricsEvent.tells (gauge : Sampled) (job worker : Text) :
    MetricsEvent V → Option (Option (Entry V))
  | heartbeat hb => if hb.worker = worker then some ((hb.value gauge job).map (⟨.gauge, ·⟩)) else none
  | write w => if w.clears (gauge.key job worker) then some none else none

/-! ## One heartbeat -/

section
variable {f64 : Values V} {usable : V → Bool} {gauge : Sampled} {job worker : Text}

theorem keyOf_jobWorker (n job worker : Text) :
    keyOf n (jobWorker job worker) = ⟨n, jobWorker job worker⟩ := by
  have hsorted : (jobWorker job worker).Pairwise (ByPair id) := by
    have hlt : "job".toList < "worker".toList := by decide
    exact List.pairwise_pair.mpr (Prod.Lex.le_iff.mpr (.inl hlt))
  rw [keyOf, hsorted.insertionSort_eq]

theorem keyOf_jobWorker_inj {n n' j w : Text} :
    keyOf n (jobWorker j w) = keyOf n' (jobWorker job worker) ↔ n = n' ∧ j = job ∧ w = worker := by
  rw [keyOf_jobWorker, keyOf_jobWorker]
  simp [jobWorker]

theorem key_hasLabel_worker (w : Text) :
    (gauge.key job worker).hasLabel "worker".toList w = decide (w = worker) := by
  have hne : "worker".toList ≠ "job".toList := by decide
  rw [Sampled.key, hasLabel_keyOf]
  simp only [jobWorker, List.mem_cons, Prod.mk.injEq, true_and, hne, false_and, List.not_mem_nil,
    or_false, false_or]

theorem gauge_ne_bandwidth (gauge : Sampled) : gauge.name ≠ bandwidthName := by
  cases gauge <;> decide

theorem gauge_mem_sampled (gauge : Sampled) : sampledNames.contains gauge.name := by
  cases gauge <;> decide

theorem gauge_name_inj {gauge' : Sampled} : gauge'.name = gauge.name ↔ gauge' = gauge := by
  cases gauge' <;> cases gauge <;> decide

/-- What one write tells of a series. -/
def tells (key : Key) : Write V → Option (Option (Entry V))
  | .setGauge n labels v => if keyOf n labels = key then some (some ⟨.gauge, v⟩) else none
  | w => if w.clears key then some none else none

theorem get_write_tells {m : Metrics V} {key : Key} {w : Write V}
    (h : (∃ n labels v, w = .setGauge n labels v) ∨ w.key ≠ some key) :
    (m.write f64 w).get key = (tells key w).getD (m.get key) := by
  have hother : w.key ≠ some key →
      (m.write f64 w).get key = (if w.clears key then some none else none).getD (m.get key) := by
    intro hne
    rw [get_write_of_ne hne]
    cases w.clears key <;> rfl
  cases w with
  | setGauge n labels v =>
    refine (Metrics.get_insert _ _).trans ?_
    rw [tells]
    split_ifs <;> rfl
  | _ => exact hother (h.resolve_left (by rintro ⟨_, _, _, ⟨⟩⟩))

/-- A write to no sampled gauge. -/
theorem tells_elsewhere {w : Write V} (h : ∀ k, w.key = some k → k.name ≠ gauge.name) :
    tells (gauge.key job worker) w =
      if w.clears (gauge.key job worker) then some none else none := by
  cases w with
  | setGauge n labels v =>
    have hne : keyOf n labels ≠ gauge.key job worker := fun he => h _ rfl (congrArg Key.name he)
    rw [tells, if_neg hne]
    rfl
  | _ => rfl

theorem filterMap_setGauge (gauge gauge' : Sampled) (job worker j w : Text) (o : Option V) :
    (o.map fun v => Write.setGauge gauge'.name (jobWorker j w) v).toList.filterMap
        (tells (gauge.key job worker)) =
      if gauge' = gauge ∧ j = job ∧ w = worker then o.toList.map fun v => some ⟨.gauge, v⟩
      else [] := by
  cases o with
  | none => simp
  | some v =>
    rw [Option.map_some, Option.toList_some, Option.toList_some, List.filterMap_cons, tells,
      Sampled.key]
    simp only [keyOf_jobWorker_inj, gauge_name_inj]
    split_ifs <;> rfl

theorem filterMap_sampleWrites (w : Text) (s : ResourceSample V) :
    (sampleWrites usable w s).filterMap (tells (gauge.key job worker)) =
      if s.job = job ∧ w = worker then (gauge.field s).toList.map fun v => some ⟨.gauge, v⟩
      else [] := by
  have hbandwidth : (((s.bandwidthBytes.filter usable).map fun v =>
      Write.setJobGauge bandwidthName s.job (jobWorker s.job w) v).toList).filterMap
        (tells (gauge.key job worker)) = [] := by
    refine List.filterMap_eq_nil_iff.mpr fun write hwrite => ?_
    obtain ⟨v, -, rfl⟩ := Option.map_eq_some_iff.mp (Option.mem_toList.mp hwrite)
    have hclears : (Write.setJobGauge bandwidthName s.job (jobWorker s.job w) v).clears
        (gauge.key job worker) = false := by
      rw [Write.clears, Bool.and_eq_false_iff]
      exact .inl (decide_eq_false (gauge_ne_bandwidth gauge))
    rw [tells_elsewhere, hclears]
    · rfl
    · rintro k hk
      cases hk
      exact (gauge_ne_bandwidth gauge).symm
  rw [sampleWrites, List.filterMap_append, List.filterMap_append, List.filterMap_append,
    hbandwidth, List.append_nil]
  have hmemory := filterMap_setGauge gauge .memory job worker s.job w s.memoryBytes
  have hseconds := filterMap_setGauge gauge .cpuSeconds job worker s.job w s.cpuSeconds
  have hpercent := filterMap_setGauge gauge .cpuPercent job worker s.job w s.cpuPercent
  simp only [Sampled.name] at hmemory hseconds hpercent
  rw [hmemory, hseconds, hpercent]
  cases gauge <;> simp [Sampled.field]

theorem flatMap_sampleWrites (w : Text) (samples : List (ResourceSample V)) :
    (samples.flatMap (sampleWrites usable w)).filterMap (tells (gauge.key job worker)) =
      if w = worker then
        ((samples.filter fun s => decide (s.job = job)).filterMap gauge.field).map fun v =>
          some ⟨.gauge, v⟩
      else [] := by
  induction samples with
  | nil => simp
  | cons s samples ih =>
    rw [List.flatMap_cons, List.filterMap_append, ih, filterMap_sampleWrites]
    by_cases hw : w = worker <;> by_cases hj : s.job = job
    · have hcons : ((s :: samples).filter fun s => decide (s.job = job)) =
          s :: samples.filter fun s => decide (s.job = job) := by simp [hj]
      rw [if_pos ⟨hj, hw⟩, if_pos hw, if_pos hw, hcons]
      cases hf : gauge.field s with
      | none =>
        rw [List.filterMap_cons_none hf]
        rfl
      | some v =>
        rw [List.filterMap_cons_some hf]
        rfl
    · simp [hw, hj]
    · simp [hw]
    · simp [hw]

theorem mem_sampleWrites {w : Write V} {s : ResourceSample V}
    (h : w ∈ sampleWrites usable worker s) :
    (∃ gauge' : Sampled, ∃ v, w = .setGauge gauge'.name (jobWorker s.job worker) v) ∨
      ∃ v, w = .setJobGauge bandwidthName s.job (jobWorker s.job worker) v := by
  have hgauge : ∀ {gauge' : Sampled} {o : Option V},
      w ∈ (o.map fun v => Write.setGauge gauge'.name (jobWorker s.job worker) v).toList →
      ∃ gauge' : Sampled, ∃ v, w = .setGauge gauge'.name (jobWorker s.job worker) v := by
    intro gauge' o hw
    obtain ⟨v, -, rfl⟩ := Option.map_eq_some_iff.mp (Option.mem_toList.mp hw)
    exact ⟨gauge', v, rfl⟩
  rw [sampleWrites, List.mem_append, List.mem_append, List.mem_append] at h
  obtain ((h | h) | h) | h := h
  · exact .inl (@hgauge .memory _ h)
  · exact .inl (@hgauge .cpuSeconds _ h)
  · exact .inl (@hgauge .cpuPercent _ h)
  · obtain ⟨v, -, rfl⟩ := Option.map_eq_some_iff.mp (Option.mem_toList.mp h)
    exact .inr ⟨v, rfl⟩

/-- A heartbeat shows its own samples for its worker, and changes no other worker's. -/
theorem get_heartbeat (m : Metrics V) (hb : SampledHeartbeat V) :
    ((heartbeatWrites usable hb).foldl (Metrics.write f64) m).get (gauge.key job worker) =
      if hb.worker = worker then (hb.value gauge job).map (⟨.gauge, ·⟩)
      else m.get (gauge.key job worker) := by
  have hwrites : ∀ w ∈ heartbeatWrites usable hb, ∀ m : Metrics V,
      (m.write f64 w).get (gauge.key job worker) =
        (tells (gauge.key job worker) w).getD (m.get (gauge.key job worker)) := by
    intro w hw m
    refine get_write_tells ?_
    obtain rfl | hw := List.mem_cons.mp hw
    · exact .inr (Option.some_ne_none _).symm
    · obtain ⟨s, -, hs⟩ := List.mem_flatMap.mp hw
      refine (mem_sampleWrites hs).imp (fun ⟨_, v, hv⟩ => ⟨_, _, v, hv⟩) ?_
      rintro ⟨v, rfl⟩ hkey
      exact gauge_ne_bandwidth gauge (congrArg Key.name (Option.some.inj hkey)).symm
  have hclears : tells (gauge.key job worker)
      (.removeWorkerMetrics sampledNames hb.worker : Write V) =
        if hb.worker = worker then some none else none := by
    rw [tells_elsewhere (by rintro k ⟨⟩), Write.clears, key_hasLabel_worker]
    rw [show (gauge.key job worker).name = gauge.name from rfl, gauge_mem_sampled, Bool.true_and]
    simp only [decide_eq_true_iff]
  rw [Runs.foldl_last (fun m : Metrics V => m.get (gauge.key job worker)) hwrites, heartbeatWrites,
    List.filterMap_cons, hclears, flatMap_sampleWrites]
  split_ifs with hw
  · rw [List.getLast?_cons, Option.getD_some, List.getLast?_map, SampledHeartbeat.value]
    cases ((hb.accepted.filter fun s => decide (s.job = job)).filterMap gauge.field).getLast? <;>
      rfl
  · rfl

theorem mem_foldl_write {m : Metrics V} {ws : List (Write V)} {e : Key × Entry V}
    (h : e ∈ (ws.foldl (Metrics.write f64) m).entries) :
    e ∈ m.entries ∨ ∃ w ∈ ws, w.key = some e.1 := by
  induction ws generalizing m with
  | nil => exact .inl h
  | cons w ws ih =>
    obtain hrest | ⟨w', hw', hkey⟩ := ih h
    · refine (Metrics.mem_write hrest).imp_right fun hkey => ⟨w, List.mem_cons_self, hkey⟩
    · exact .inr ⟨w', List.mem_cons_of_mem _ hw', hkey⟩

/-- The series a heartbeat sets in a sampled metric are those of its jobs on its worker. -/
theorem heartbeat_key {hb : SampledHeartbeat V} {w : Write V} {key : Key}
    (h : w ∈ heartbeatWrites usable hb) (hkey : w.key = some key) (hname : key.name = gauge.name) :
    ∃ job worker, key = gauge.key job worker := by
  obtain rfl | hw := List.mem_cons.mp h
  · cases hkey
  · obtain ⟨s, -, hs⟩ := List.mem_flatMap.mp hw
    obtain ⟨gauge', v, rfl⟩ | ⟨v, rfl⟩ := mem_sampleWrites hs
    · cases hkey
      obtain rfl := gauge_name_inj.mp hname
      exact ⟨s.job, hb.worker, rfl⟩
    · cases hkey
      exact absurd hname.symm (gauge_ne_bandwidth gauge)

end

/-- After any run of heartbeats, with any removals and any writes of other metrics between them, the
memory and processor gauges of a job on a worker are those of the worker's last heartbeat, unless
they have been removed since; and nothing else is shown in these metrics. -/
theorem samples_of_last_heartbeat (f64 : Values V) (usable : V → Bool)
    (events : List (MetricsEvent V)) (gauge : Sampled)
    (h : ∀ w k, .write w ∈ events → w.key = some k → k.name ≠ gauge.name) :
    (∀ job worker, (metricsAfter f64 usable events).get (gauge.key job worker) =
      (events.filterMap (MetricsEvent.tells gauge job worker)).getLast?.getD none) ∧
    ∀ e ∈ (metricsAfter f64 usable events).entries, e.1.name = gauge.name →
      ∃ job worker, e.1 = gauge.key job worker := by
  constructor
  · intro job worker
    have hevents : ∀ e ∈ events, ∀ m : Metrics V,
        ((e.writes usable).foldl (Metrics.write f64) m).get (gauge.key job worker) =
          (e.tells gauge job worker).getD (m.get (gauge.key job worker)) := by
      intro e he m
      cases e with
      | heartbeat hb =>
        refine (get_heartbeat m hb).trans ?_
        rw [MetricsEvent.tells]
        split_ifs <;> rfl
      | write w =>
        have hkey : ∀ k, w.key = some k → k.name ≠ gauge.name := fun k => h w k he
        refine (get_write_tells (.inr fun hw => hkey _ hw rfl)).trans ?_
        rw [tells_elsewhere hkey, MetricsEvent.tells]
    exact Runs.foldl_last (fun m : Metrics V => m.get (gauge.key job worker)) hevents .new
  · intro e he hname
    unfold metricsAfter at he
    induction events using List.reverseRecOn with
    | nil => cases he
    | append_singleton events ev ih =>
      rw [List.foldl_append] at he
      obtain hbefore | ⟨w, hw, hkey⟩ := mem_foldl_write he
      · exact ih (fun w k hw => h w k (List.mem_append_left _ hw)) hbefore
      · cases ev with
        | heartbeat hb => exact heartbeat_key hw hkey hname
        | write w' =>
          obtain rfl := List.mem_singleton.mp hw
          exact absurd hname (h w e.1 (by simp) hkey)

/-- A job is sampled, and another one is deleted. -/
def sampledOnce : List (MetricsEvent ℕ) :=
  [.heartbeat ⟨"mirror".toList, ["ubuntu".toList],
      [⟨"ubuntu".toList, some 5, none, none, some 7⟩]⟩,
    .write (.removeJob "debian".toList)]

theorem samples_of_last_heartbeat_once :
    (∀ job worker, (metricsAfter natValues (fun _ => true) sampledOnce).get
        (Sampled.memory.key job worker) =
      (sampledOnce.filterMap (MetricsEvent.tells .memory job worker)).getLast?.getD none) ∧
    ∀ e ∈ (metricsAfter natValues (fun _ => true) sampledOnce).entries,
      e.1.name = Sampled.memory.name → ∃ job worker, e.1 = Sampled.memory.key job worker :=
  samples_of_last_heartbeat natValues (fun _ => true) sampledOnce .memory (by
    intro w k hw hkey
    obtain hw | hw := List.mem_pair.mp hw
    · cases hw
    · cases hw
      cases hkey)

end Synora.Manager
