import Synora.Manager.Origin

namespace Synora.Manager
open Core Db Engine

/-! ## Dispatches next to everything else

`dispatch_current` takes one step for each query it makes. Beside it run the other parts of the
manager, under the mutex of the job, the configuration gate and the metrics gate. -/

inductive DispatchPhase
  /-- The job is known and enabled; the hold is still to be looked at. -/
  | starting
  /-- The dependencies still to be looked at; the mutex comes after the last. -/
  | depends (todo : List String)
  | skipping (dep : String)
  /-- The mutex of the job is held. -/
  | locked
  /-- No run in flight was seen. -/
  | checked
deriving DecidableEq, Repr

/-- A call of `dispatch_current` with the job as it was when the call began. -/
structure Dispatcher where
  spec : JobSpec
  forced : Bool
  phase : DispatchPhase
deriving DecidableEq, Repr

def Dispatcher.name (d : Dispatcher) : String := d.spec.name

def Dispatcher.holds (job : String) (d : Dispatcher) : Bool :=
  decide (d.name = job) && (decide (d.phase = .locked) || decide (d.phase = .checked))

/-- A completion holds the mutex of its job from the checks to the answer. -/
def Handler.holds (job : String) (h : Handler) : Bool :=
  match h.phase with
  | .decided run _ | .won run _ | .applied run _ | .requeue run | .logging run =>
    decide (run.jobId = job)
  | .received | .loaded _ | .answered _ => false

/-- A completion under way holds the metrics gate. -/
def Handler.busy (h : Handler) : Bool :=
  match h.phase with
  | .received | .answered _ => false
  | _ => true

structure Dispatching where
  manager : State
  dispatchers : List Dispatcher
deriving DecidableEq, Repr

namespace Dispatching

def init (jobs : List JobSpec) : Dispatching := ⟨.init jobs, []⟩

def db (s : Dispatching) : Tables := s.manager.db

/-- How many hold the mutex of a job. -/
def holders (s : Dispatching) (job : String) : ℕ :=
  s.dispatchers.countP (Dispatcher.holds job) + s.manager.handlers.countP (Handler.holds job)

end Dispatching

inductive Move
  | manager (a : Action)
  | start (job : String) (forced : Bool)
  | checkHold (i : ℕ) (queryFailed : Bool)
  | checkDep (i : ℕ) (queryFailed : Bool)
  | skip (i : ℕ) (id : String) (now : Time)
  | lock (i : ℕ)
  | checkInflight (i : ℕ) (queryFailed : Bool)
  | create (i : ℕ) (id : String) (worker : Option String) (now : Time)
  /-- A database error or a dropped connection ends a dispatch. -/
  | drop (i : ℕ)
deriving DecidableEq, Repr

namespace Dispatching

/-- When a step of the rest of the manager may happen. -/
def allowed (s : Dispatching) : Action → Bool
  -- these are steps of a dispatch
  | .dispatch .. | .skip .. => false
  | .statement (.updateRun (.claimRun id _ _ _)) =>
    decide (s.manager.reaper = .idle) &&
      (s.db.run id).all fun r => decide (s.holders r.jobId = 0)
  | .load _ => decide (s.manager.reaper = .idle)
  | .decide i _ => s.manager.handlers[i]?.all fun h =>
    match h.phase with
    | .loaded run => decide (s.holders run.jobId = 0)
    | _ => true
  | .reapList _ => s.manager.handlers.all fun h => !h.busy
  -- a dispatch reads under the configuration gate, a reload and a purge write under it
  | .reload _ | .statement (.deleteRuns _) => s.dispatchers.isEmpty
  | _ => true

def set (s : Dispatching) (i : ℕ) (d : Dispatcher) (phase : DispatchPhase) : Dispatching :=
  { s with dispatchers := s.dispatchers.set i { d with phase } }

/-- The call of `dispatch_current` returns. -/
def leave (s : Dispatching) (i : ℕ) : Dispatching :=
  { s with dispatchers := s.dispatchers.eraseIdx i }

variable (scaleDelay : ℕ → F64 → ℕ → ℕ)

/-- The steps of the call `d` of `dispatch_current`. -/
def dispatchStep (s : Dispatching) (i : ℕ) (d : Dispatcher) : Move → Option Dispatching
  | .checkHold _ queryFailed =>
    match d.phase with
    | .starting =>
      if !d.forced && decide (d.spec.onWorkerLost = .fail) &&
          (queryFailed || latestIs s.db d.name fun status => decide (status = .lost)) then
        some (s.leave i)
      else some (s.set i d (.depends d.spec.dependsOn))
    | _ => none
  | .checkDep _ queryFailed =>
    match d.phase with
    | .depends (dep :: todo) =>
      if !queryFailed && latestIs s.db dep JobStatus.isSuccess then some (s.set i d (.depends todo))
      else some (s.set i d (.skipping dep))
    | _ => none
  | .skip _ id now =>
    match d.phase with
    | .skipping dep => (Manager.step scaleDelay s.manager (.skip id d.name dep now)).map fun m =>
        { s.leave i with manager := m }
    | _ => none
  | .lock _ =>
    match d.phase with
    | .depends [] => if s.holders d.name = 0 then some (s.set i d .locked) else none
    | _ => none
  | .checkInflight _ queryFailed =>
    match d.phase with
    | .locked =>
      -- a failed query lets the dispatch go on
      if !queryFailed && !(inflightRunsOfJob s.db d.name).isEmpty then some (s.leave i)
      else some (s.set i d .checked)
    | _ => none
  | .create _ id worker now =>
    match d.phase with
    | .checked =>
      let priority := if d.forced then 1 else 0
      (Manager.step scaleDelay s.manager (.dispatch id d.name worker priority now)).map fun m =>
        { s.leave i with manager := m }
    | _ => none
  | .drop _ => some (s.leave i)
  | _ => none

def step (s : Dispatching) (a : Move) : Option Dispatching :=
  match a with
  | .manager b =>
    if s.allowed b then
      (Manager.step scaleDelay s.manager b).map fun m => { s with manager := m }
    else none
  | .start job forced =>
    (s.manager.job job).bind fun spec =>
      if spec.enabled then
        some { s with dispatchers := s.dispatchers ++ [⟨spec, forced, .starting⟩] }
      else none
  | .checkHold i _ | .checkDep i _ | .skip i _ _ | .lock i | .checkInflight i _ | .create i _ _ _
  | .drop i => s.dispatchers[i]?.bind fun d => s.dispatchStep scaleDelay i d a

end Dispatching

/-! ## What one step does -/

/-- Everything a step can do, with what it has seen. -/
inductive Dispatches (scaleDelay : ℕ → F64 → ℕ → ℕ) (s : Dispatching) : Move → Dispatching → Prop
  | manager {a : Action} {m : State} (ha : s.allowed a) (hm : Moves scaleDelay s.manager a m) :
      Dispatches scaleDelay s (.manager a) { s with manager := m }
  | start {job : String} {forced : Bool} {spec : JobSpec} (hj : s.manager.job job = some spec) :
      Dispatches scaleDelay s (.start job forced)
        { s with dispatchers := s.dispatchers ++ [⟨spec, forced, .starting⟩] }
  | clear {i : ℕ} {queryFailed : Bool} {d : Dispatcher} (hd : s.dispatchers[i]? = some d)
      (hp : d.phase = .starting)
      (hold : d.forced = false → d.spec.onWorkerLost = .fail →
        latestIs s.db d.name (fun status => decide (status = .lost)) = false) :
      Dispatches scaleDelay s (.checkHold i queryFailed) (s.set i d (.depends d.spec.dependsOn))
  | depend {i : ℕ} {queryFailed : Bool} {d : Dispatcher} {dep : String} {todo : List String}
      {phase : DispatchPhase} (hd : s.dispatchers[i]? = some d)
      (hp : d.phase = .depends (dep :: todo))
      (hn : phase = .depends todo ∨ phase = .skipping dep) :
      Dispatches scaleDelay s (.checkDep i queryFailed) (s.set i d phase)
  | skip {i : ℕ} {id dep : String} {now : Time} {d : Dispatcher} {m : State}
      (hd : s.dispatchers[i]? = some d) (hp : d.phase = .skipping dep)
      (hm : Moves scaleDelay s.manager (.skip id d.name dep now) m) :
      Dispatches scaleDelay s (.skip i id now) { s.leave i with manager := m }
  | lock {i : ℕ} {d : Dispatcher} (hd : s.dispatchers[i]? = some d) (hp : d.phase = .depends [])
      (hl : s.holders d.name = 0) : Dispatches scaleDelay s (.lock i) (s.set i d .locked)
  | check {i : ℕ} {queryFailed : Bool} {d : Dispatcher} (hd : s.dispatchers[i]? = some d)
      (hp : d.phase = .locked) (hn : queryFailed = false → inflightRunsOfJob s.db d.name = []) :
      Dispatches scaleDelay s (.checkInflight i queryFailed) (s.set i d .checked)
  | create {i : ℕ} {id : String} {worker : Option String} {now : Time} {d : Dispatcher} {m : State}
      (hd : s.dispatchers[i]? = some d) (hp : d.phase = .checked)
      (hm : Moves scaleDelay s.manager
        (.dispatch id d.name worker (if d.forced then 1 else 0) now) m) :
      Dispatches scaleDelay s (.create i id worker now) { s.leave i with manager := m }
  | leave (a : Move) {i : ℕ} {d : Dispatcher} (hd : s.dispatchers[i]? = some d) :
      Dispatches scaleDelay s a (s.leave i)

theorem step_dispatches {scaleDelay : ℕ → F64 → ℕ → ℕ} {s s' : Dispatching} {a : Move}
    (h : s.step scaleDelay a = some s') : Dispatches scaleDelay s a s' := by
  cases a with
  | manager b =>
    simp only [Dispatching.step] at h
    split at h
    · rename_i ha
      obtain ⟨m, hm, rfl⟩ := Option.map_eq_some_iff.mp h
      exact .manager ha (step_moves hm)
    · cases h
  | start job forced =>
    obtain ⟨spec, hj, h⟩ := Option.bind_eq_some_iff.mp h
    split at h
    · obtain rfl := Option.some.inj h
      exact .start hj
    · cases h
  | checkHold i queryFailed =>
    obtain ⟨d, hd, h⟩ := Option.bind_eq_some_iff.mp h
    simp only [Dispatching.dispatchStep] at h
    split at h
    · rename_i hp
      split at h
      · obtain rfl := Option.some.inj h
        exact .leave _ hd
      · rename_i hn
        obtain rfl := Option.some.inj h
        refine .clear hd hp fun hf hl => ?_
        simp only [hf, hl, Bool.not_false, decide_true, Bool.true_and, Bool.or_eq_true,
          not_or] at hn
        simpa using hn.2
    · cases h
  | checkDep i queryFailed =>
    obtain ⟨d, hd, h⟩ := Option.bind_eq_some_iff.mp h
    simp only [Dispatching.dispatchStep] at h
    split at h
    · rename_i hp
      split at h <;> obtain rfl := Option.some.inj h
      · exact .depend hd hp (Or.inl rfl)
      · exact .depend hd hp (Or.inr rfl)
    · cases h
  | skip i id now =>
    obtain ⟨d, hd, h⟩ := Option.bind_eq_some_iff.mp h
    simp only [Dispatching.dispatchStep] at h
    split at h
    · rename_i hp
      obtain ⟨m, hm, rfl⟩ := Option.map_eq_some_iff.mp h
      exact .skip hd hp (step_moves hm)
    · cases h
  | lock i =>
    obtain ⟨d, hd, h⟩ := Option.bind_eq_some_iff.mp h
    simp only [Dispatching.dispatchStep] at h
    split at h
    · rename_i hp
      split at h
      · rename_i hl
        obtain rfl := Option.some.inj h
        exact .lock hd hp hl
      · cases h
    · cases h
  | checkInflight i queryFailed =>
    obtain ⟨d, hd, h⟩ := Option.bind_eq_some_iff.mp h
    simp only [Dispatching.dispatchStep] at h
    split at h
    · rename_i hp
      split at h
      · obtain rfl := Option.some.inj h
        exact .leave _ hd
      · rename_i hn
        obtain rfl := Option.some.inj h
        refine .check hd hp fun hq => ?_
        simpa [hq] using hn
    · cases h
  | create i id worker now =>
    obtain ⟨d, hd, h⟩ := Option.bind_eq_some_iff.mp h
    simp only [Dispatching.dispatchStep] at h
    split at h
    · rename_i hp
      obtain ⟨m, hm, rfl⟩ := Option.map_eq_some_iff.mp h
      exact .create hd hp (step_moves hm)
    · cases h
  | drop i =>
    obtain ⟨d, hd, h⟩ := Option.bind_eq_some_iff.mp h
    obtain rfl := Option.some.inj h
    exact .leave _ hd

theorem Dispatches.inv {scaleDelay : ℕ → F64 → ℕ → ℕ} {s s' : Dispatching} {a : Move}
    (h : Dispatches scaleDelay s a s') (inv : Inv s.manager) (known : KnownJobs s.manager) :
    Inv s'.manager ∧ KnownJobs s'.manager := by
  cases h with
  | manager ha hm => exact ⟨inv.moves hm, knownJobs_step inv known hm⟩
  | skip hd hp hm | create hd hp hm => exact ⟨inv.moves hm, knownJobs_step inv known hm⟩
  | _ => exact ⟨inv, known⟩

theorem Dispatching.allowed_ne_dispatch {s : Dispatching} {b : Action} (h : s.allowed b)
    (id job : String) (worker : Option String) (priority : ℤ) (now : Time) :
    b ≠ .dispatch id job worker priority now := by
  rintro rfl
  cases h

end Synora.Manager
