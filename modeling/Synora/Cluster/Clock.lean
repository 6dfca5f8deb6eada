import Synora.Cluster.Bookkeeping
import Synora.Cluster.Handlers
import Synora.Manager.Lease

namespace Synora.Cluster
open Core Db Manager

/-! ## The cluster with a clock

The worker and the manager read one clock, in whole seconds. The handlers of `heartbeat` and
`claim` take one step for each store operation. -/

/-- `HEARTBEAT_SAFETY_SECS` -/
def heartbeatSafetySecs : ℤ := 240

/-- A heartbeat that the manager works on. -/
structure Beat where
  call : ℕ
  activeRuns : List (String × String)
  /-- The leases still to be renewed. -/
  todo : List (String × String)
  valid : List String
deriving DecidableEq, Repr

structure Clocked where
  base : System
  clock : ℤ
  /-- `heartbeat_sent` -/
  sent : ℤ
  /-- `lease_deadline` -/
  deadline : ℤ
  /-- The runs that the last heartbeat response received has asked to cancel. -/
  cancels : List String
  beats : List Beat
  /-- The claims that have taken their run and are still to be answered. -/
  claims : List (ℕ × String)
  /-- When the watchdog last looked, and how many runs had been accepted by then. -/
  looked : ℤ
  seen : ℕ

def Clocked.init (jobs : List JobSpec) (worker : String) (maxConcurrency : ℕ) (now : ℤ) :
    Clocked where
  base := .init jobs worker maxConcurrency
  clock := now
  sent := now
  deadline := now + heartbeatSafetySecs
  cancels := []
  beats := []
  claims := []
  looked := now
  seen := 0

inductive Event
  /-- One second passes. -/
  | tick
  | cluster (a : Action)
  /-- The manager starts on a heartbeat: `touch_heartbeat`. -/
  | startBeat (i : ℕ)
  | renew (j : ℕ)
  | respond (j : ℕ)
  | failBeat (j : ℕ)
  /-- The manager works on a claim up to its `UPDATE`. -/
  | takeRun (i : ℕ) (token : String)
  | answerClaim (j : ℕ)
  | failClaim (j : ℕ)
  /-- The watchdog wakes up and compares the clock with the deadline. -/
  | look
deriving DecidableEq, Repr

namespace Clocked

def db (s : Clocked) : Tables := s.base.manager.db

def worker (s : Clocked) : Worker := s.base.worker

def setDb (s : Clocked) (t : Tables) : Clocked :=
  { s with base := { s.base with manager := { s.base.manager with db := t } } }

/-- The manager sends an answer. -/
def push (s : Clocked) (call : ℕ) (r : Response) : Clocked :=
  { s with base := { s.base with responses := s.base.responses ++ [(call, r)] } }

/-- The manager takes a request off the network. -/
def pull (s : Clocked) (i : ℕ) : Clocked :=
  { s with base := { s.base with requests := s.base.requests.eraseIdx i } }

/-- The response that ends the wait of the main loop for its heartbeat. -/
def heard (s : Clocked) (i : ℕ) : Option (List String) :=
  match s.worker.main, s.base.responses[i]? with
  | .beating c, some (call, .heartbeat ids _) => if c = call then some ids else none
  | _, _ => none

/-- What the worker keeps of the time, besides its map. -/
def keepTime (s : Clocked) (base : System) : Action → Clocked
  | .beat => { s with base, sent := s.clock }
  | .receive i =>
    match s.heard i with
    | some ids => { s with base, deadline := s.sent + heartbeatSafetySecs, cancels := ids }
    | none => { s with base }
  | .restart => { s with
      base, sent := s.clock, deadline := s.clock + heartbeatSafetySecs, cancels := []
      looked := s.clock, seen := 0 }
  | _ => { s with base }

/-- When an action of the cluster may happen. Heartbeats, claims and the watchdog have their
own steps here; leases are granted at the clock's time; no claim is sent on an old heartbeat. -/
def Allowed (s : Clocked) : Action → Prop
  | .manager a => a.Timely s.clock
  | .serveHeartbeat .. | .serveClaim .. | .watchdog => False
  | .claimNext => s.clock - s.sent < heartbeatSafetySecs
  | _ => True

/-- The watchdog: every run in the map is cancelled once the deadline has passed. -/
def lookNow (s : Clocked) : Clocked :=
  let w := if s.deadline ≤ s.clock then s.worker.watchdog else s.worker
  { s with base := { s.base with worker := w }, looked := s.clock, seen := s.worker.tokens }

end Clocked

instance (clock : Time) : ∀ a : Manager.Action, Decidable (a.Timely clock)
  | .statement q => inferInstanceAs (Decidable (∀ now ∈ leaseStamp q, now = clock))
  | .reload .. | .dispatch .. | .skip .. | .skipFinish .. | .request .. | .load .. | .decide ..
  | .update .. | .project .. | .count .. | .requeue .. | .log .. | .abort .. | .tickList ..
  | .tickNext .. | .tickDrop .. | .tickRequeue | .reapList .. | .reapNext | .reapRequeue ..
  | .tickFail | .reapFail => .isTrue trivial

instance (s : Clocked) : ∀ a, Decidable (s.Allowed a)
  | .manager a => inferInstanceAs (Decidable (a.Timely s.clock))
  | .claimNext => inferInstanceAs (Decidable (s.clock - s.sent < heartbeatSafetySecs))
  | .serveHeartbeat .. | .serveClaim .. | .watchdog => .isFalse not_false
  | .serveComplete .. | .answer .. | .loseRequest .. | .repeatRequest .. | .loseResponse ..
  | .repeatResponse .. | .beat | .cancelNext | .endClaims | .receive .. | .giveUp .. | .runEnd ..
  | .report .. | .leave .. | .restart => .isTrue trivial

namespace Clocked

variable (scaleDelay : ℕ → F64 → ℕ → ℕ)

def step (s : Clocked) : Event → Option Clocked
  | .tick => some { s with clock := s.clock + 1 }
  | .cluster a =>
    if s.Allowed a then (Cluster.step scaleDelay s.base a).map fun base => s.keepTime base a
    else none
  | .startBeat i =>
    match s.base.requests[i]? with
    | some (call, .heartbeat activeRuns) =>
      some { (s.pull i).setDb (touchHeartbeat s.db s.worker.id) with
        beats := s.beats ++ [⟨call, activeRuns, activeRuns.take 256, []⟩] }
    | _ => none
  | .renew j =>
    s.beats[j]?.bind fun b =>
      match b.todo with
      | [] => none
      | (runId, token) :: todo =>
        let q : Stmt := .updateRun (.renewRunLease runId s.worker.id token s.clock)
        let valid := if 0 < changed s.db q then runId :: b.valid else b.valid
        some { s.setDb (after s.db q) with beats := s.beats.set j { b with todo, valid } }
  | .respond j =>
    s.beats[j]?.bind fun b =>
      if b.todo = [] then
        some { s.push b.call (heartbeatResponse s.base.manager s.worker.id b.activeRuns b.valid)
          with beats := s.beats.eraseIdx j }
      else none
  | .failBeat j =>
    s.beats[j]?.map fun b => { s.push b.call .rejected with beats := s.beats.eraseIdx j }
  | .takeRun i token =>
    match s.base.requests[i]? with
    | some (call, .claim runId) =>
      match Cluster.takeRun s.base.manager s.worker.id runId token s.clock with
      | (_, some r) => some ((s.pull i).push call r)
      | (m, none) => some { (s.pull i).setDb m.db with claims := s.claims ++ [(call, runId)] }
    | _ => none
  | .answerClaim j =>
    s.claims[j]?.map fun p =>
      { s.push p.1 (claimResponse s.base.manager p.2) with claims := s.claims.eraseIdx j }
  | .failClaim j =>
    s.claims[j]?.map fun p => { s.push p.1 .rejected with claims := s.claims.eraseIdx j }
  | .look => some s.lookNow

end Clocked

end Synora.Cluster
