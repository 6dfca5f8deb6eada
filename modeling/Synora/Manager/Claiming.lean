import Synora.Manager.OneInflight

namespace Synora.Manager
open Core Db Slots Engine

/-! ## Claims next to everything else

`claim` takes one step for each query it makes, under the mutex of the job. -/

inductive ClaimPhase
  /-- The mutex of the job is held. -/
  | locked
  /-- No run of the job was seen active. -/
  | checked
  /-- The row was taken; so many claims had taken it before. -/
  | taken (nth : ℕ)
deriving DecidableEq, Repr

/-- A call of `claim`, with the job of the row that it has read first. -/
structure Claimer where
  runId : String
  worker : String
  job : String
  phase : ClaimPhase
deriving DecidableEq, Repr

def Claimer.holds (job : String) (c : Claimer) : Bool := decide (c.job = job)

structure Claiming where
  manager : State
  claimers : List Claimer
  /-- The claims that have taken a row: the run and its job, latest first. -/
  taken : List (String × String)
  /-- The assignments handed out: the run, how many claims had taken it before, the attempt. -/
  answers : List (String × ℕ × ℕ)
deriving DecidableEq, Repr

namespace Claiming

def init (jobs : List JobSpec) : Claiming := ⟨.init jobs, [], [], []⟩

def db (s : Claiming) : Tables := s.manager.db

/-- How many hold the mutex of a job. -/
def holders (s : Claiming) (job : String) : ℕ :=
  s.claimers.countP (Claimer.holds job) + s.manager.handlers.countP (Handler.holds job)

end Claiming

inductive ClaimMove
  | manager (a : Action)
  | lock (runId worker : String)
  | check (i : ℕ)
  | take (i : ℕ) (token : String) (now : Time)
  | answer (i : ℕ)
  /-- A database error or a dropped connection ends a claim. -/
  | drop (i : ℕ)
deriving DecidableEq, Repr

namespace Claiming

/-- When a step of the rest of the manager may happen. -/
def allowed (s : Claiming) : Action → Bool
  -- this is a step of a claim
  | .statement (.updateRun (.claimRun ..)) => false
  | .decide i _ => s.manager.handlers[i]?.all fun h =>
    match h.phase with
    | .loaded run => decide (s.holders run.jobId = 0)
    | _ => true
  | _ => true

def set (s : Claiming) (i : ℕ) (c : Claimer) (phase : ClaimPhase) : Claiming :=
  { s with claimers := s.claimers.set i { c with phase } }

/-- The call of `claim` returns. -/
def leave (s : Claiming) (i : ℕ) : Claiming := { s with claimers := s.claimers.eraseIdx i }

/-- `claim_run`, once its `UPDATE` has taken the row. -/
def take (s : Claiming) (i : ℕ) (c : Claimer) (token : String) (now : Time) : Claiming :=
  { s.set i c (.taken (s.taken.count (c.runId, c.job))) with
    manager := { s.manager with
      db := after (after s.db (claim c.runId c.worker token now)) (.setJobStatus c.job .syncing) }
    taken := (c.runId, c.job) :: s.taken }

/-- The steps of the call `c` of `claim`. -/
def claimStep (s : Claiming) (i : ℕ) (c : Claimer) : ClaimMove → Option Claiming
  | .check _ =>
    match c.phase with
    | .locked =>
      if (activeRunsOfJob s.db c.job).isEmpty then some (s.set i c .checked)
      else some (s.leave i)
    | _ => none
  | .take _ token now =>
    match c.phase with
    | .checked =>
      if 0 < changed s.db (claim c.runId c.worker token now) then some (s.take i c token now)
      else some (s.leave i)
    | _ => none
  | .answer _ =>
    match c.phase with
    | .taken nth =>
      match s.db.run c.runId with
      | some run =>
        if (s.manager.job run.jobId).isSome then
          some { s.leave i with answers := (c.runId, nth, run.retryCount) :: s.answers }
        else some (s.leave i)
      | none => some (s.leave i)
    | _ => none
  | .drop _ => some (s.leave i)
  | _ => none

def step (scaleDelay : ℕ → F64 → ℕ → ℕ) (s : Claiming) (a : ClaimMove) : Option Claiming :=
  match a with
  | .manager b =>
    if s.allowed b then
      (Manager.step scaleDelay s.manager b).map fun m => { s with manager := m }
    else none
  | .lock runId worker =>
    (s.db.run runId).bind fun queued =>
      if (s.manager.job queued.jobId).isSome ∧ s.holders queued.jobId = 0 then
        some { s with claimers := s.claimers ++ [⟨runId, worker, queued.jobId, .locked⟩] }
      else none
  | .check i | .take i _ _ | .answer i | .drop i =>
    s.claimers[i]?.bind fun c => s.claimStep i c a

end Claiming

/-! ## What one step does -/

/-- Everything a step can do, with what it has seen. -/
inductive ClaimSteps (scaleDelay : ℕ → F64 → ℕ → ℕ) (s : Claiming) : ClaimMove → Claiming → Prop
  | manager {a : Action} {m : State} (ha : s.allowed a) (hm : Moves scaleDelay s.manager a m) :
      ClaimSteps scaleDelay s (.manager a) { s with manager := m }
  | lock {runId worker : String} {queued : RunRow} (hr : s.db.run runId = some queued)
      (hl : s.holders queued.jobId = 0) :
      ClaimSteps scaleDelay s (.lock runId worker)
        { s with claimers := s.claimers ++ [⟨runId, worker, queued.jobId, .locked⟩] }
  | check {i : ℕ} {c : Claimer} (hc : s.claimers[i]? = some c) (hp : c.phase = .locked) :
      ClaimSteps scaleDelay s (.check i) (s.set i c .checked)
  | take {i : ℕ} {c : Claimer} {token : String} {now : Time} (hc : s.claimers[i]? = some c)
      (hp : c.phase = .checked) (hn : Claims s.db c.runId c.worker token now) :
      ClaimSteps scaleDelay s (.take i token now) (s.take i c token now)
  | answer {i : ℕ} {c : Claimer} {nth : ℕ} {run : RunRow} (hc : s.claimers[i]? = some c)
      (hp : c.phase = .taken nth) (hr : s.db.run c.runId = some run) :
      ClaimSteps scaleDelay s (.answer i)
        { s.leave i with answers := (c.runId, nth, run.retryCount) :: s.answers }
  | leave (a : ClaimMove) {i : ℕ} {c : Claimer} (hc : s.claimers[i]? = some c) :
      ClaimSteps scaleDelay s a (s.leave i)

theorem step_claimSteps {scaleDelay : ℕ → F64 → ℕ → ℕ} {s s' : Claiming} {a : ClaimMove}
    (h : s.step scaleDelay a = some s') : ClaimSteps scaleDelay s a s' := by
  cases a with
  | manager b =>
    simp only [Claiming.step] at h
    split at h
    · rename_i ha
      obtain ⟨m, hm, rfl⟩ := Option.map_eq_some_iff.mp h
      exact .manager ha (step_moves hm)
    · cases h
  | lock runId worker =>
    obtain ⟨queued, hq, h⟩ := Option.bind_eq_some_iff.mp h
    split at h
    · rename_i hl
      obtain rfl := Option.some.inj h
      exact .lock hq hl.2
    · cases h
  | check i =>
    obtain ⟨c, hc, h⟩ := Option.bind_eq_some_iff.mp h
    simp only [Claiming.claimStep] at h
    split at h
    · rename_i hp
      split at h <;> obtain rfl := Option.some.inj h
      · exact .check hc hp
      · exact .leave _ hc
    · cases h
  | take i token now =>
    obtain ⟨c, hc, h⟩ := Option.bind_eq_some_iff.mp h
    simp only [Claiming.claimStep] at h
    split at h
    · rename_i hp
      split at h <;> obtain rfl := Option.some.inj h
      · exact .take hc hp ‹_›
      · exact .leave _ hc
    · cases h
  | answer i =>
    obtain ⟨c, hc, h⟩ := Option.bind_eq_some_iff.mp h
    simp only [Claiming.claimStep] at h
    split at h
    · rename_i nth hp
      split at h
      · rename_i run hr
        split at h <;> obtain rfl := Option.some.inj h
        · exact .answer hc hp hr
        · exact .leave _ hc
      · obtain rfl := Option.some.inj h
        exact .leave _ hc
    · cases h
  | drop i =>
    obtain ⟨c, hc, h⟩ := Option.bind_eq_some_iff.mp h
    obtain rfl := Option.some.inj h
    exact .leave _ hc

/-! ## The mutex -/

section
variable {scaleDelay : ℕ → F64 → ℕ → ℕ} {s s' : Claiming} {a : ClaimMove}

theorem Claiming.holders_set {i : ℕ} {c : Claimer} (phase : ClaimPhase)
    (hc : s.claimers[i]? = some c) (job : String) :
    (s.set i c phase).holders job = s.holders job := by
  have hcount := countP_set_add (p := Claimer.holds job) { c with phase } hc
  have hsame : Claimer.holds job { c with phase } = c.holds job := rfl
  simp only [hsame, Nat.add_right_cancel_iff] at hcount
  simp only [Claiming.holders, Claiming.set, hcount]

theorem Claiming.holders_leave (s : Claiming) (i : ℕ) (job : String) :
    (s.leave i).holders job ≤ s.holders job :=
  Nat.add_le_add_right ((List.eraseIdx_sublist _ _).countP_le) _

theorem claim_mutex_step (h : ∀ job, s.holders job ≤ 1) (hs : ClaimSteps scaleDelay s a s')
    (job : String) : s'.holders job ≤ 1 := by
  cases hs with
  | manager ha hm =>
    obtain hle | ⟨i, ended, x, run, rfl, hx, hp, hj, hle⟩ := hm.holders job
    · exact Nat.le_trans (Nat.add_le_add_left hle _) (h job)
    · -- a completion goes on only while nobody has the mutex
      simp only [Claiming.allowed, hx, Option.all_some, hp, decide_eq_true_eq, hj] at ha
      simp only [Claiming.holders] at ha ⊢
      omega
  | lock hr hl =>
    rename_i runId worker queued
    have hjob := h job
    simp only [Claiming.holders, List.countP_append, List.countP_singleton] at hl hjob ⊢
    by_cases hj : queued.jobId = job
    · subst hj
      simp only [Claimer.holds, decide_true, if_true]
      omega
    · simp only [Claimer.holds, hj, decide_false, Bool.false_eq_true, if_false]
      omega
  | check hc hp => exact (s.holders_set _ hc job).le.trans (h job)
  | take hc hp hn => exact (s.holders_set _ hc job).le.trans (h job)
  | answer hc hp hr => exact (s.holders_leave _ job).trans (h job)
  | leave a hc => exact (s.holders_leave _ job).trans (h job)

/-- While a claim is under way no completion of the job is. -/
theorem Claiming.not_holds (h : ∀ job, s.holders job ≤ 1) {c : Claimer} (hc : c ∈ s.claimers)
    {x : Handler} (hx : x ∈ s.manager.handlers) : x.holds c.job = false := by
  have hpos : 0 < s.claimers.countP (Claimer.holds c.job) :=
    List.countP_pos_iff.mpr ⟨c, hc, by simp [Claimer.holds]⟩
  by_contra hne
  have hpos' : 0 < s.manager.handlers.countP (Handler.holds c.job) :=
    List.countP_pos_iff.mpr ⟨x, hx, by simpa using hne⟩
  have := h c.job
  simp only [Claiming.holders] at this
  omega

end

end Synora.Manager
