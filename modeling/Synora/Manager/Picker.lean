import Mathlib.Data.List.MinMax
import Synora.Engine.Schedule

namespace Synora.Manager
open Engine

/-! ## Picking a worker -/

structure WorkerInfo where
  labels : List String
  jobsRunning : ℕ
  maxConcurrency : ℕ
  status : String
deriving DecidableEq, Repr

/-- The workers by their ids, in the order in which the map happens to be walked. -/
structure WorkerPicker where
  snapshot : List (String × WorkerInfo)
  nodup : (snapshot.map Prod.fst).Nodup

namespace WorkerPicker

def takesJobs (w : WorkerInfo) : Bool :=
  decide (w.status = "ONLINE" ∧ w.jobsRunning < w.maxConcurrency)

/-- `min_by_key` takes the first of several. -/
def leastLoaded (workers : List (String × WorkerInfo)) : Option String :=
  (workers.argmin fun e => e.2.jobsRunning).map Prod.fst

def pick (picker : WorkerPicker) (job : JobDef) : Option String :=
  let online := picker.snapshot.filter fun e => takesJobs e.2
  if online.isEmpty then none
  else match job.worker with
    | some name =>
      -- a worker's own id wins over a group's label
      if online.any fun e => decide (e.1 = name) then some name
      else leastLoaded (online.filter fun e => e.2.labels.any fun l => decide (l = name))
    | none => leastLoaded (online.filter fun e =>
        job.resources.all fun r => e.2.labels.any fun l => decide (l = r))

/-! ## What the pick has to be -/

/-- A worker of this id takes jobs. -/
def Named (picker : WorkerPicker) (name : String) : Prop :=
  ∃ e ∈ picker.snapshot, takesJobs e.2 = true ∧ e.1 = name

def Covers (w : WorkerInfo) (job : JobDef) : Prop := ∀ r ∈ job.resources, r ∈ w.labels

/-- The worker is named, or in the named group, or has the tags of a job that names none. -/
def Eligible (picker : WorkerPicker) (job : JobDef) (e : String × WorkerInfo) : Prop :=
  takesJobs e.2 = true ∧
    match job.worker with
    | some name => e.1 = name ∨ name ∈ e.2.labels ∧ ¬Named picker name
    | none => Covers e.2 job

/-- The same, with the tags asked of a group's member as well. -/
def EligibleWithTags (picker : WorkerPicker) (job : JobDef) (e : String × WorkerInfo) : Prop :=
  takesJobs e.2 = true ∧
    match job.worker with
    | some name => e.1 = name ∨ (name ∈ e.2.labels ∧ ¬Named picker name) ∧ Covers e.2 job
    | none => Covers e.2 job

/-- The pick is the named worker or a least loaded eligible one, and is missing only where no
worker is eligible. -/
def Picks (picker : WorkerPicker) (job : JobDef) (eligible : String × WorkerInfo → Prop) : Prop :=
  (picker.pick job = none ↔ ∀ e ∈ picker.snapshot, ¬eligible e) ∧
    ∀ id, picker.pick job = some id → ∃ w, (id, w) ∈ picker.snapshot ∧ eligible (id, w) ∧
      (job.worker = some id ∨ ∀ e ∈ picker.snapshot, eligible e → w.jobsRunning ≤ e.2.jobsRunning)

variable {picker : WorkerPicker} {job : JobDef}

theorem leastLoaded_eq_none {workers : List (String × WorkerInfo)} :
    leastLoaded workers = none ↔ workers = [] := by
  rw [leastLoaded, Option.map_eq_none_iff, List.argmin_eq_none]

theorem leastLoaded_eq_some {workers : List (String × WorkerInfo)} {id : String}
    (h : leastLoaded workers = some id) :
    ∃ w, (id, w) ∈ workers ∧ ∀ e ∈ workers, w.jobsRunning ≤ e.2.jobsRunning := by
  obtain ⟨⟨id', w⟩, hmin, rfl⟩ := Option.map_eq_some_iff.mp h
  exact ⟨w, List.argmin_mem hmin, fun e he =>
    List.le_of_mem_argmin (f := fun e : String × WorkerInfo => e.2.jobsRunning) he hmin⟩

theorem picks_of_candidates {eligible : String × WorkerInfo → Prop}
    (candidates : List (String × WorkerInfo)) (hpick : picker.pick job = leastLoaded candidates)
    (hmem : ∀ e, e ∈ candidates ↔ e ∈ picker.snapshot ∧ eligible e) :
    Picks picker job eligible := by
  unfold Picks
  rw [hpick]
  constructor
  · rw [leastLoaded_eq_none, List.eq_nil_iff_forall_not_mem]
    exact ⟨fun h e he hel => h e ((hmem e).mpr ⟨he, hel⟩), fun h e he =>
      h e ((hmem e).mp he).1 ((hmem e).mp he).2⟩
  · intro id hid
    obtain ⟨w, hw, hleast⟩ := leastLoaded_eq_some hid
    obtain ⟨hsnap, heligible⟩ := (hmem _).mp hw
    exact ⟨w, hsnap, heligible, Or.inr fun e he hel => hleast e ((hmem e).mpr ⟨he, hel⟩)⟩

/-- A job that names a worker gets it. -/
theorem pick_of_named {name : String} (hworker : job.worker = some name) (h : Named picker name) :
    picker.pick job = some name := by
  obtain ⟨e, he, htakes, hid⟩ := h
  have hmem : e ∈ picker.snapshot.filter fun e => takesJobs e.2 := List.mem_filter.mpr ⟨he, htakes⟩
  unfold pick
  rw [hworker, if_neg]
  · exact if_pos (List.any_eq_true.mpr ⟨e, hmem, decide_eq_true hid⟩)
  · rw [List.isEmpty_iff]
    exact List.ne_nil_of_mem hmem

/-- An empty list of online workers leaves no candidates either. -/
theorem leastLoaded_filter (online : List (String × WorkerInfo)) (p : String × WorkerInfo → Bool) :
    (if online.isEmpty then none else leastLoaded (online.filter p)) =
      leastLoaded (online.filter p) := by
  split_ifs with h
  · rw [List.isEmpty_iff.mp h]
    rfl
  · rfl

theorem any_iff_mem {labels : List String} {name : String} :
    (labels.any fun l => decide (l = name)) = true ↔ name ∈ labels := by
  simp

/-- A group's members are not asked for the job's tags. -/
theorem pick_exact (picker : WorkerPicker) (job : JobDef) :
    Picks picker job (Eligible picker job) := by
  rcases hworker : job.worker with _ | name
  · apply picks_of_candidates ((picker.snapshot.filter fun e => takesJobs e.2).filter fun e =>
      job.resources.all fun r => e.2.labels.any fun l => decide (l = r))
    · unfold pick
      rw [hworker]
      exact leastLoaded_filter _ _
    · intro e
      rw [List.mem_filter, List.mem_filter, Eligible, hworker, List.all_eq_true, and_assoc]
      simp only [any_iff_mem]
      rfl
  by_cases hnamed : Named picker name
  · have hpick := pick_of_named hworker hnamed
    obtain ⟨⟨id, w⟩, he, htakes, rfl⟩ := hnamed
    have heligible : Eligible picker job (id, w) := by
      refine ⟨htakes, ?_⟩
      rw [hworker]
      exact Or.inl rfl
    unfold Picks
    rw [hpick]
    refine ⟨iff_of_false (Option.some_ne_none _) fun h => h _ he heligible, ?_⟩
    intro id' hid
    obtain rfl : id = id' := Option.some.inj hid
    exact ⟨w, he, heligible, Or.inl hworker⟩
  · apply picks_of_candidates ((picker.snapshot.filter fun e => takesJobs e.2).filter fun e =>
      e.2.labels.any fun l => decide (l = name))
    · have hany : ¬((picker.snapshot.filter fun e => takesJobs e.2).any
          fun e => decide (e.1 = name)) = true := by
        rw [List.any_eq_true]
        rintro ⟨e, he, hid⟩
        obtain ⟨hsnap, htakes⟩ := List.mem_filter.mp he
        exact hnamed ⟨e, hsnap, htakes, of_decide_eq_true hid⟩
      unfold pick
      rw [hworker]
      simp only [if_neg hany]
      exact leastLoaded_filter _ _
    · intro e
      rw [List.mem_filter, List.mem_filter, any_iff_mem, Eligible, hworker, and_assoc]
      refine and_congr_right fun hsnap => and_congr_right fun htakes => ?_
      have hid : e.1 ≠ name := fun h => hnamed ⟨e, hsnap, htakes, h⟩
      exact ⟨fun h => Or.inr ⟨h, hnamed⟩, fun h => (h.resolve_left hid).1⟩

/-- A job for the group `eu`, with a tag that no worker of the group has. -/
def taggedJob : JobDef where
  spec := ⟨"debian", true, .rsync, 3, 60, 0x3ff0000000000000, [0], .retry, [], 1⟩
  worker := some "eu"
  upstream := some "rsync://mirror"
  storage := "/srv/debian"
  timeout := none
  failOnMatch := none
  statistics := .filesystem
  resources := ["large-disk"]
  priority := 0
  schedule := .manual
  timezone := "UTC"
  misfirePolicy := .skip
  cpuLimit := none
  maxDeleteRatio := none
  maxSizeDropRatio := none
  rest := ""

def oneWorker : WorkerPicker where
  snapshot := [("w1", ⟨["eu"], 0, 8, "ONLINE"⟩)]
  nodup := by decide

/-- The member is picked without the tag. -/
theorem untagged_member_picked :
    oneWorker.pick taggedJob = some "w1" ∧
      ¬∀ (picker : WorkerPicker) (job : JobDef),
        Picks picker job (EligibleWithTags picker job) := by
  have hpick : oneWorker.pick taggedJob = some "w1" := by decide +kernel
  refine ⟨hpick, fun h => ?_⟩
  obtain ⟨w, hw, ⟨-, heligible⟩, -⟩ := (h oneWorker taggedJob).2 "w1" hpick
  obtain ⟨-, rfl⟩ := Prod.mk.inj (List.mem_singleton.mp hw)
  have hcovers := (heligible.resolve_left (by decide)).2 "large-disk" (List.mem_singleton_self _)
  exact absurd hcovers (by decide)

end WorkerPicker

end Synora.Manager
