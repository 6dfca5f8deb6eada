import Mathlib.Data.List.AList
import Synora.Manager.System

namespace Synora.Cluster
open Core Db Manager

/-! ## Messages -/

/-- What a claim that succeeds hands to the worker. -/
structure Assignment where
  runId : String
  leaseToken : String
  attempt : ℕ
  job : String
deriving DecidableEq, Repr

inductive Request
  /-- The runs in the worker's map, each with its lease token. -/
  | heartbeat (activeRuns : List (String × String))
  | claim (runId : String)
  | complete (body : CompleteRequest)
deriving DecidableEq, Repr

inductive Response
  | heartbeat (cancelRuns offers : List String)
  /-- `none` is a 409: the run was taken by someone else. -/
  | claim (assignment : Option Assignment)
  | complete
  | rejected
deriving DecidableEq, Repr

/-! ## The worker -/

/-- An entry of the worker's `running` map. `cancel` names the cancel token and the
`lease_timed_out` flag that were made for the claim. -/
structure Running where
  leaseToken : String
  cancel : ℕ
  job : String
deriving DecidableEq, Repr

inductive TaskPhase
  /-- In `run_once`. -/
  | executing
  /-- In the report loop, after `tries` failed attempts; `call` is the one under way. -/
  | reporting (body : CompleteRequest) (tries : ℕ) (call : Option ℕ)
  /-- The loop is over; `running.remove` is still to come. -/
  | reported
deriving DecidableEq, Repr

/-- The task that a claim has spawned. -/
structure Task where
  runId : String
  leaseToken : String
  attempt : ℕ
  cancel : ℕ
  job : String
  phase : TaskPhase
deriving DecidableEq, Repr

def Task.entry (task : Task) : Running := ⟨task.leaseToken, task.cancel, task.job⟩

/-- Where the main loop of the worker stands. -/
inductive Main
  | idle
  | beating (call : ℕ)
  /-- A heartbeat was answered; its cancel requests come before its offers. -/
  | cancelling (ids offers : List String)
  | offered (todo : List String)
  | claiming (call : ℕ) (runId : String) (todo : List String)
deriving DecidableEq, Repr

structure Worker where
  id : String
  maxConcurrency : ℕ
  running : AList fun _ : String => Running
  tasks : List Task
  main : Main
  /-- The number of cancel tokens made so far. -/
  tokens : ℕ
  cancelled : List ℕ
  timedOut : List ℕ

def Worker.init (id : String) (maxConcurrency : ℕ) : Worker :=
  ⟨id, maxConcurrency, ∅, [], .idle, 0, [], []⟩

namespace Worker

/-- What the next heartbeat reports as active. -/
def activeRuns (w : Worker) : List (String × String) :=
  w.running.entries.map fun e => (e.1, e.2.leaseToken)

/-- A cancel request of the manager. -/
def cancelRun (w : Worker) (runId : String) : Worker :=
  match w.running.lookup runId with
  | none => w
  | some r => { w with cancelled := r.cancel :: w.cancelled }

/-- The lease-deadline watchdog, once the deadline has passed. -/
def watchdog (w : Worker) : Worker :=
  let live := (w.running.entries.map fun e => e.2.cancel).filter fun c => !decide (c ∈ w.cancelled)
  { w with cancelled := live ++ w.cancelled, timedOut := live ++ w.timedOut }

/-- A claim response with an assignment: the entry is inserted and the task spawned. -/
def accept (w : Worker) (a : Assignment) : Worker :=
  { w with
    running := w.running.insert a.runId ⟨a.leaseToken, w.tokens, a.job⟩
    tasks := w.tasks ++ [⟨a.runId, a.leaseToken, a.attempt, w.tokens, a.job, .executing⟩]
    tokens := w.tokens + 1 }

def setPhase (w : Worker) (i : ℕ) (task : Task) (phase : TaskPhase) : Worker :=
  { w with tasks := w.tasks.set i { task with phase } }

end Worker

/-- How `run_once` ended, as `outcome_to_complete` reads it. -/
inductive Ending
  | success | successWithWarnings | failed | cancelled
deriving DecidableEq, Repr

def Ending.status : Ending → String
  | .success => "success"
  | .successWithWarnings => "success_with_warnings"
  | .failed => "failed"
  | .cancelled => "cancelled"

structure Outcome where
  ending : Ending
  exitCode : Option ℤ
  sizeAfter : Option ℤ
  bytesTransferred : Option ℤ
  message : Option String
  log : Option String
deriving DecidableEq, Repr

/-- The report of a task. A stop of the watchdog is not an operator's cancellation. -/
def outcomeToComplete (w : Worker) (task : Task) (o : Outcome) : CompleteRequest :=
  let lost := decide (task.cancel ∈ w.timedOut) && decide (o.ending = .cancelled)
  { runId := task.runId
    leaseToken := task.leaseToken
    workerId := w.id
    attempt := some task.attempt
    status := if lost then "lost" else o.ending.status
    exitCode := o.exitCode
    sizeBefore := none
    sizeAfter := if o.ending = .success ∨ o.ending = .successWithWarnings then o.sizeAfter else none
    bytesTransferred := o.bytesTransferred
    message := if lost then some "worker heartbeat safety deadline expired" else o.message
    log := o.log }

/-- An attempt to report has failed; the eighth is the last. -/
def failedTry (body : CompleteRequest) (tries : ℕ) : TaskPhase :=
  if tries + 1 < 8 then .reporting body (tries + 1) none else .reported

def Task.awaits (task : Task) (call : ℕ) : Bool :=
  match task.phase with
  | .reporting _ _ (some c) => decide (c = call)
  | _ => false

/-- A call of a task returns. -/
def taskReturn (w : Worker) (call : ℕ) (ok : Bool) : Worker :=
  match w.tasks.findIdx? (fun task => task.awaits call) with
  | none => w
  | some i =>
    match w.tasks[i]? with
    | some task =>
      match task.phase with
      | .reporting body tries _ => w.setPhase i task (if ok then .reported else failedTry body tries)
      | _ => w
    | none => w

def maxClaimsPerHeartbeat : ℕ := 4

/-- A response reaches the worker; nobody may be waiting for it any more. -/
def Worker.receive (w : Worker) (call : ℕ) (response : Response) : Worker :=
  match w.main with
  | .beating c =>
    if c = call then
      match response with
      | .heartbeat cancelRuns offers =>
        { w with main := .cancelling cancelRuns (offers.take maxClaimsPerHeartbeat) }
      | _ => { w with main := .idle }
    else taskReturn w call (decide (response = .complete))
  | .claiming c _ todo =>
    if c = call then
      match response with
      | .claim (some a) => { w.accept a with main := .offered todo }
      | _ => { w with main := .offered todo }
    else taskReturn w call (decide (response = .complete))
  | _ => taskReturn w call (decide (response = .complete))

/-- A call fails without an answer. -/
def Worker.giveUp (w : Worker) (call : ℕ) : Worker :=
  match w.main with
  | .beating c => if c = call then { w with main := .idle } else taskReturn w call false
  | .claiming c _ todo =>
    if c = call then { w with main := .offered todo } else taskReturn w call false
  | _ => taskReturn w call false

/-! ## The manager's side -/

/-- The lease renewals of a heartbeat, and the runs whose leases were renewed. -/
def renewLeases (worker : String) (now : Time) : Tables → List (String × String) →
    Tables × List String
  | t, [] => (t, [])
  | t, (runId, token) :: rest =>
    let q : Stmt := .updateRun (.renewRunLease runId worker token now)
    let r := renewLeases worker now (after t q) rest
    (r.1, if 0 < changed t q then runId :: r.2 else r.2)

def assignedRuns (t : Tables) (worker : String) : List RunRow :=
  runsWhere t fun r => decide (r.status = .queued ∧ r.workerId = some worker ∧
    r.jobId ∉ (t.jobRuns.filter fun a => a.status.isExecuting).map RunRow.jobId)

def cancellingRunsOf (t : Tables) (worker : String) : List RunRow :=
  runsWhere t fun r => decide (r.workerId = some worker ∧ r.status = .cancelling)

def workerIs (t : Tables) (worker : String) (status : WorkerStatus) : Bool :=
  t.workers.any fun w => decide (w.id = worker ∧ w.status = status)

/-- `heartbeat`, with its answer. -/
def serveHeartbeat (m : State) (worker : String) (activeRuns : List (String × String))
    (now : Time) : State × Response :=
  -- `touch_heartbeat` brings an offline worker back; a draining one stays as it is
  let touched := if workerIs m.db worker .offline then after m.db (.setWorkerStatus worker .online)
    else m.db
  let (t, valid) := renewLeases worker now touched (activeRuns.take 256)
  let invalid := (activeRuns.map Prod.fst).filter fun id => !decide (id ∈ valid)
  let offers := if workerIs t worker .online then
      ((assignedRuns t worker).take 32).filter fun r => (m.job r.jobId).isSome
    else []
  let stop := ((cancellingRunsOf t worker).head?.map RunRow.id).toList
  ({ m with db := t }, .heartbeat (invalid ++ stop) (offers.map RunRow.id))

/-- `claim`, with its answer. -/
def serveClaim (m : State) (worker runId token : String) (now : Time) : State × Response :=
  match m.db.run runId with
  | none => (m, .rejected)
  | some queued =>
    -- `job_projection_lock` knows only the jobs of the configuration
    if (m.job queued.jobId).isNone then (m, .rejected)
    else if !(activeRunsOfJob m.db queued.jobId).isEmpty then (m, .claim none)
    else
      let q : Stmt := .updateRun (.claimRun runId worker token now)
      if changed m.db q = 0 then (m, .claim none)
      else
        let t := after (after m.db q) (.setJobStatus queued.jobId .syncing)
        ({ m with db := t },
          match t.run runId with
          | none => .rejected
          | some run => .claim (some ⟨runId, run.leaseToken.getD "", run.retryCount, run.jobId⟩))

/-! ## The network and the whole system -/

structure System where
  manager : State
  worker : Worker
  /-- The number of calls made so far. -/
  calls : ℕ
  requests : List (ℕ × Request)
  responses : List (ℕ × Response)
  /-- The completions that the manager works on, with the calls they answer. -/
  serving : List (ℕ × ℕ)

def System.init (jobs : List JobSpec) (worker : String) (maxConcurrency : ℕ) : System :=
  ⟨.init jobs, .init worker maxConcurrency, 0, [], [], []⟩

inductive Action
  /-- Any other part of the manager moves. -/
  | manager (a : Manager.Action)
  | serveHeartbeat (i : ℕ) (now : Time)
  | serveClaim (i : ℕ) (token : String) (now : Time)
  | serveComplete (i : ℕ)
  | answer (i : ℕ)
  | loseRequest (i : ℕ)
  | repeatRequest (i : ℕ)
  | loseResponse (i : ℕ)
  | repeatResponse (i : ℕ)
  | beat
  | cancelNext
  | claimNext
  /-- The claims of this beat end: the cap is reached, the lease is old, or the worker stops. -/
  | endClaims
  | receive (i : ℕ)
  | giveUp (call : ℕ)
  | runEnd (i : ℕ) (o : Outcome)
  | report (i : ℕ)
  | leave (i : ℕ)
  | watchdog
  | restart
deriving DecidableEq, Repr

/-- The worker makes a call. -/
def System.send (s : System) (worker : Worker) (request : Request) : System :=
  { s with worker, calls := s.calls + 1, requests := s.requests ++ [(s.calls, request)] }

/-- The manager takes a request off the network and answers it. -/
def System.serve (s : System) (i call : ℕ) (r : State × Response) : System :=
  { s with
    manager := r.1
    requests := s.requests.eraseIdx i
    responses := s.responses ++ [(call, r.2)] }

section
variable (scaleDelay : ℕ → F64 → ℕ → ℕ)

def managerStep (s : System) : Action → Option System
  | .manager a => (Manager.step scaleDelay s.manager a).map fun m => { s with manager := m }
  | .serveHeartbeat i now =>
    match s.requests[i]? with
    | some (call, .heartbeat activeRuns) =>
      some (s.serve i call (serveHeartbeat s.manager s.worker.id activeRuns now))
    | _ => none
  | .serveClaim i token now =>
    match s.requests[i]? with
    | some (call, .claim runId) =>
      some (s.serve i call (serveClaim s.manager s.worker.id runId token now))
    | _ => none
  | .serveComplete i =>
    match s.requests[i]? with
    | some (call, .complete body) =>
      (Manager.step scaleDelay s.manager (.request body)).map fun m => { s with
        manager := m
        requests := s.requests.eraseIdx i
        serving := s.serving ++ [(s.manager.handlers.length, call)] }
    | _ => none
  | .answer i =>
    s.serving[i]?.bind fun p => s.manager.handlers[p.1]?.bind fun h =>
      match h.phase with
      | .answered code => some { s with
          serving := s.serving.eraseIdx i
          responses := s.responses ++ [(p.2, if code = .ok then .complete else .rejected)] }
      | _ => none
  | _ => none

def networkStep (s : System) : Action → Option System
  | .loseRequest i => some { s with requests := s.requests.eraseIdx i }
  | .repeatRequest i => s.requests[i]?.map fun m => { s with requests := s.requests ++ [m] }
  | .loseResponse i => some { s with responses := s.responses.eraseIdx i }
  | .repeatResponse i => s.responses[i]?.map fun m => { s with responses := s.responses ++ [m] }
  | _ => none

def workerStep (s : System) : Action → Option System
  | .beat =>
    match s.worker.main with
    | .idle => some (s.send { s.worker with main := .beating s.calls }
        (.heartbeat s.worker.activeRuns))
    | _ => none
  | .cancelNext =>
    match s.worker.main with
    | .cancelling [] offers => some { s with worker := { s.worker with main := .offered offers } }
    | .cancelling (runId :: ids) offers =>
      some { s with worker := { s.worker.cancelRun runId with main := .cancelling ids offers } }
    | _ => none
  | .claimNext =>
    match s.worker.main with
    | .offered (runId :: todo) =>
      if s.worker.running.keys.length < s.worker.maxConcurrency then
        some (s.send { s.worker with main := .claiming s.calls runId todo } (.claim runId))
      else none
    | _ => none
  | .endClaims =>
    match s.worker.main with
    | .offered _ => some { s with worker := { s.worker with main := .idle } }
    | _ => none
  | .receive i => s.responses[i]?.map fun m => { s with
      worker := s.worker.receive m.1 m.2
      responses := s.responses.eraseIdx i }
  | .giveUp call => some { s with worker := s.worker.giveUp call }
  | .runEnd i o =>
    s.worker.tasks[i]?.bind fun task =>
      match task.phase with
      | .executing =>
        let body := outcomeToComplete s.worker task o
        some { s with worker := s.worker.setPhase i task (.reporting body 0 none) }
      | _ => none
  | .report i =>
    s.worker.tasks[i]?.bind fun task =>
      match task.phase with
      | .reporting body tries none =>
        some (s.send (s.worker.setPhase i task (.reporting body tries (some s.calls)))
          (.complete body))
      | _ => none
  | .leave i =>
    s.worker.tasks[i]?.bind fun task =>
      match task.phase with
      | .reported => some { s with worker := { s.worker with
          running := s.worker.running.erase task.runId
          tasks := s.worker.tasks.eraseIdx i } }
      | _ => none
  | .watchdog => some { s with worker := s.worker.watchdog }
  -- the process dies and is started again: its tasks and its map are gone
  | .restart => some { s with worker := .init s.worker.id s.worker.maxConcurrency }
  | _ => none

/-- One step of the manager, of the network or of the worker. -/
def step (s : System) (a : Action) : Option System :=
  match a with
  | .manager _ | .serveHeartbeat .. | .serveClaim .. | .serveComplete _ | .answer _ =>
    managerStep scaleDelay s a
  | .loseRequest _ | .repeatRequest _ | .loseResponse _ | .repeatResponse _ => networkStep s a
  | _ => workerStep s a

end

end Synora.Cluster
