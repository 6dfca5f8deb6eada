import Synora.Cluster.Verdict
import Synora.Manager.Invariant

namespace Synora.Cluster
open Core Db Manager

/-! ## Requests of the workers and of the operators -/

structure Desk where
  manager : State
  /-- The claims that have taken their run and are still to be answered: worker and run. -/
  taken : List (String × String)
  /-- The workers that were told to drain or to shut down and have not been `ONLINE` since. -/
  barred : List String

def Desk.init (jobs : List JobSpec) : Desk := ⟨.init jobs, [], []⟩

inductive Call
  /-- Any other part of the manager moves. -/
  | manager (a : Manager.Action)
  | heartbeat (worker : String) (activeRuns : List (String × String)) (now : Time)
  | claim (worker runId token : String) (now : Time)
  | answer (i : ℕ)
  /-- The answer of a claim is lost to a database error. -/
  | fail (i : ℕ)
  | drain (worker : String)
  | workerShutdown (worker : String)
deriving DecidableEq, Repr

/-- `begin_worker_shutdown`: an operator's decision is left standing. -/
def beginWorkerShutdown (t : Tables) (worker : String) : Tables :=
  if workerIs t worker .draining || workerIs t worker .maintenance then t
  else after t (.setWorkerStatus worker .stopping)

/-- The call that tells a worker to take no new work. -/
def Call.bars : Call → Option String
  | .drain worker | .workerShutdown worker => some worker
  | _ => none

namespace Desk

def online (s : Desk) (worker : String) : Bool := workerIs s.manager.db worker .online

/-- A worker that is `ONLINE` again is not barred any more. -/
def settle (s : Desk) : Desk := { s with barred := s.barred.filter fun w => !s.online w }

variable (scaleDelay : ℕ → F64 → ℕ → ℕ)

def handle (s : Desk) : Call → Option Desk
  | .manager a => (Manager.step scaleDelay s.manager a).map fun m => { s with manager := m }
  | .heartbeat worker activeRuns now =>
    some { s with manager := (serveHeartbeat s.manager worker activeRuns now).1 }
  | .claim worker runId token now =>
    match takeRun s.manager worker runId token now with
    | (m, some _) => some { s with manager := m }
    | (m, none) => some { s with manager := m, taken := s.taken ++ [(worker, runId)] }
  | .answer i | .fail i => s.taken[i]?.map fun _ => { s with taken := s.taken.eraseIdx i }
  | .drain worker =>
    let t := after s.manager.db (.setWorkerStatus worker .draining)
    some { s with manager := { s.manager with db := t }, barred := worker :: s.barred }
  | .workerShutdown worker =>
    let t := beginWorkerShutdown s.manager.db worker
    some { s with manager := { s.manager with db := t }, barred := worker :: s.barred }

def step (s : Desk) (c : Call) : Option Desk := (s.handle scaleDelay c).map settle

/-- The worker that a call hands an assignment to. -/
def assigns (s : Desk) : Call → Option String
  | .answer i => s.taken[i]?.bind fun p =>
    match claimResponse s.manager p.2 with
    | .claim (some _) => some p.1
    | _ => none
  | _ => none

end Desk

section
variable {scaleDelay : ℕ → F64 → ℕ → ℕ} {s s' : Desk} {c : Call}

/-- A claim of this run by this worker would go through: the run is queued and not another
worker's, its job is configured, and no run of the job is active. -/
def Claimable (m : State) (worker runId : String) : Prop :=
  ∃ r ∈ m.db.run runId, r.status = .queued ∧ (r.workerId = none ∨ r.workerId = some worker) ∧
    (m.job r.jobId).isSome ∧ ∀ a ∈ m.db.jobRuns, a.jobId = r.jobId → ¬a.status.isActive

instance (m : State) (worker runId : String) : Decidable (Claimable m worker runId) :=
  inferInstanceAs (Decidable (∃ r ∈ m.db.run runId, _))

theorem claimable_of_takeRun {m m' : State} (hv : m.db.Valid) {worker runId token : String}
    {now : Time} (h : takeRun m worker runId token now = (m', none)) :
    Claimable m worker runId := by
  obtain ⟨r, hr, hjob, hc, -⟩ := takeRun_none h
  obtain ⟨-, -, x, hx, hg⟩ := changed_updateRun_pos hc
  simp only [RunStmt.update, claimRun, decide_eq_true_eq] at hg
  obtain ⟨rfl, hq, hw, -⟩ := hg
  obtain rfl : x = r := Option.some.inj ((hv.run_of_mem hx).symm.trans hr)
  refine ⟨x, hr, hq, hw, hjob, ?_⟩
  intro a ha hj hact
  exact not_claims_of_active hv (hv.run_of_mem ha) hact hr hj.symm hc

/-- No barred worker asks for a run it could have, and nobody is barred between the `UPDATE` of
a claim and its answer. -/
def HonoursDrain (s : Desk) : Call → Prop
  | .claim worker runId _ _ => worker ∈ s.barred → ¬Claimable s.manager worker runId
  | .drain worker | .workerShutdown worker => ∀ p ∈ s.taken, p.1 ≠ worker
  | _ => True

instance (s : Desk) : ∀ c, Decidable (HonoursDrain s c)
  | .claim worker runId _ _ =>
    inferInstanceAs (Decidable (worker ∈ s.barred → ¬Claimable s.manager worker runId))
  | .drain worker | .workerShutdown worker =>
    inferInstanceAs (Decidable (∀ p ∈ s.taken, p.1 ≠ worker))
  | .manager _ | .heartbeat .. | .answer _ | .fail _ => .isTrue trivial

/-! ## Barred workers get nothing -/

theorem handle_valid (hv : s.manager.db.Valid) (h : s.handle scaleDelay c = some s') :
    s'.manager.db.Valid := by
  cases c with
  | manager a =>
    obtain ⟨m, hm, rfl⟩ := Option.map_eq_some_iff.mp h
    exact valid_step hv (Manager.step_moves hm)
  | heartbeat worker activeRuns now =>
    obtain rfl := Option.some.inj h
    exact (renewLeases_spec (touchHeartbeat_valid hv worker) worker now _).1.valid
  | claim worker runId token now =>
    simp only [Desk.handle] at h
    split at h <;> rename_i hm <;> obtain rfl := Option.some.inj h
    · exact (takeRun_some hm).1 ▸ hv
    · obtain ⟨r, -, -, -, rfl⟩ := takeRun_none hm
      exact after_valid (after_valid hv _) _
  | answer i | fail i =>
    obtain ⟨p, -, rfl⟩ := Option.map_eq_some_iff.mp h
    exact hv
  | drain worker =>
    obtain rfl := Option.some.inj h
    exact after_valid hv _
  | workerShutdown worker =>
    obtain rfl := Option.some.inj h
    unfold beginWorkerShutdown
    dsimp only
    split
    · exact hv
    · exact after_valid hv _

/-- Who is barred after a call: whoever was, and the worker it bars, unless `ONLINE`. -/
theorem mem_barred_step (h : s.step scaleDelay c = some s') {worker : String} :
    worker ∈ s'.barred ↔
      (worker ∈ s.barred ∨ c.bars = some worker) ∧ s'.online worker = false := by
  obtain ⟨u, hu, rfl⟩ := Option.map_eq_some_iff.mp h
  have hbarred : worker ∈ u.barred ↔ worker ∈ s.barred ∨ c.bars = some worker := by
    cases c with
    | manager a =>
      obtain ⟨m, -, rfl⟩ := Option.map_eq_some_iff.mp hu
      simp [Call.bars]
    | claim w runId token now =>
      simp only [Desk.handle] at hu
      split at hu <;> obtain rfl := Option.some.inj hu <;> simp [Call.bars]
    | answer i | fail i =>
      obtain ⟨p, -, rfl⟩ := Option.map_eq_some_iff.mp hu
      simp [Call.bars]
    | heartbeat w activeRuns now =>
      obtain rfl := Option.some.inj hu
      simp [Call.bars]
    | drain w | workerShutdown w =>
      obtain rfl := Option.some.inj hu
      simp [Call.bars, or_comm, eq_comm]
  simp [Desk.settle, Desk.online, hbarred]

/-- What the manager keeps to as long as drains are honoured. -/
structure Excludes (s : Desk) : Prop where
  valid : s.manager.db.Valid
  free : ∀ p ∈ s.taken, p.1 ∉ s.barred

theorem excludes_init (jobs : List JobSpec) : Excludes (.init jobs) :=
  ⟨Tables.empty_valid, by simp [Desk.init]⟩

theorem taken_step (he : Excludes s) (hc : HonoursDrain s c) (h : s.step scaleDelay c = some s')
    {p : String × String} (hp : p ∈ s'.taken) : p.1 ∉ s.barred ∧ c.bars ≠ some p.1 := by
  obtain ⟨u, hu, rfl⟩ := Option.map_eq_some_iff.mp h
  change p ∈ u.taken at hp
  cases c with
  | manager a =>
    obtain ⟨m, -, rfl⟩ := Option.map_eq_some_iff.mp hu
    exact ⟨he.free p hp, by simp [Call.bars]⟩
  | heartbeat w activeRuns now =>
    obtain rfl := Option.some.inj hu
    exact ⟨he.free p hp, by simp [Call.bars]⟩
  | claim w runId token now =>
    refine ⟨?_, by simp [Call.bars]⟩
    simp only [Desk.handle] at hu
    split at hu <;> rename_i hm <;> obtain rfl := Option.some.inj hu
    · exact he.free p hp
    · -- The claim that has just gone through is not a barred worker's.
      rcases List.mem_append.mp hp with hp | hp
      · exact he.free p hp
      · obtain rfl := List.mem_singleton.mp hp
        exact fun hb => hc hb (claimable_of_takeRun he.valid hm)
  | answer i | fail i =>
    obtain ⟨q, -, rfl⟩ := Option.map_eq_some_iff.mp hu
    exact ⟨he.free p (List.mem_of_mem_eraseIdx hp), by simp [Call.bars]⟩
  | drain w | workerShutdown w =>
    obtain rfl := Option.some.inj hu
    exact ⟨he.free p hp, fun hb => hc p hp (Option.some.inj hb).symm⟩

theorem excludes_step (he : Excludes s) (hc : HonoursDrain s c)
    (h : s.step scaleDelay c = some s') : Excludes s' where
  valid := by
    obtain ⟨u, hu, rfl⟩ := Option.map_eq_some_iff.mp h
    have hv : u.manager.db.Valid := handle_valid he.valid hu
    exact hv
  free p hp hb := by
    obtain ⟨hfree, hbars⟩ := taken_step he hc h hp
    rcases ((mem_barred_step h).mp hb).1 with hold | hnew
    · exact hfree hold
    · exact hbars hnew

/-- A barred worker stays barred until it is `ONLINE`. -/
theorem barred_until_online {cs : List Call} {worker : String} (hb : worker ∈ s.barred)
    (h : Runs.exec (Desk.step scaleDelay) s cs = some s') :
    worker ∈ s'.barred ∨ ∃ mid post u, cs = mid ++ post ∧
      Runs.exec (Desk.step scaleDelay) s mid = some u ∧ u.online worker := by
  refine Runs.exec_induction (Desk.step scaleDelay) (P := fun cs s' => worker ∈ s'.barred ∨
    ∃ mid post u, cs = mid ++ post ∧ Runs.exec (Desk.step scaleDelay) s mid = some u ∧
      u.online worker) (Or.inl hb) ?_ h
  intro cs t c u ht ih hu
  rcases ih with hb | ⟨mid, post, v, rfl, hv, hon⟩
  · cases hon : u.online worker with
    | false => exact Or.inl ((mem_barred_step hu).mpr ⟨Or.inl hb, hon⟩)
    | true =>
      refine Or.inr ⟨cs ++ [c], [], u, by simp, ?_, hon⟩
      exact (Runs.exec_concat_eq_some _).mpr ⟨t, ht, hu⟩
  · exact Or.inr ⟨mid, post ++ [c], v, by simp, hv, hon⟩

end

/-- Between a drain (or a shutdown request) of a worker and a later claim that hands it an
assignment, the worker has been `ONLINE`. -/
def DrainExcludesWork (scaleDelay : ℕ → F64 → ℕ → ℕ) (jobs : List JobSpec) (cs : List Call) : Prop :=
  ∀ pre d mid c post s worker, cs = pre ++ d :: mid ++ c :: post →
    Runs.exec (Desk.step scaleDelay) (.init jobs) (pre ++ d :: mid) = some s →
    d.bars = some worker → s.assigns c = some worker →
    ∃ mid₁ mid₂ u, mid = mid₁ ++ mid₂ ∧
      Runs.exec (Desk.step scaleDelay) (.init jobs) (pre ++ d :: mid₁) = some u ∧ u.online worker

/-- Where no barred worker asks for a run it could have, drains exclude new work. -/
theorem drain_excludes_work_of_honoured (scaleDelay : ℕ → F64 → ℕ → ℕ) (jobs : List JobSpec)
    (cs : List Call)
    (hc : Runs.Along (Desk.step scaleDelay) HonoursDrain (.init jobs) cs) :
    DrainExcludesWork scaleDelay jobs cs := by
  intro pre d mid c post s worker hcs hs hbars hassign
  have hpre := ((Runs.along_append (Desk.step scaleDelay)).mp (hcs ▸ hc)).1
  have he : Excludes s := Runs.exec_invariant_along (Desk.step scaleDelay) HonoursDrain Excludes
    (fun _ _ _ hc he h => excludes_step he hc h) (excludes_init jobs) hpre hs
  -- The claim that is answered belongs to a worker that is not barred now.
  have hfree : worker ∉ s.barred := by
    cases c with
    | answer i =>
      obtain ⟨p, hp, hresp⟩ := Option.bind_eq_some_iff.mp hassign
      split at hresp
      · obtain rfl := Option.some.inj hresp
        exact he.free p (List.mem_of_getElem? hp)
      · cases hresp
    | _ => cases hassign
  obtain ⟨t, ht, hrest⟩ := (Runs.exec_append_eq_some _).mp hs
  obtain ⟨u, hu, hmid⟩ := (Runs.exec_cons_eq_some _).mp hrest
  have hstart : Runs.exec (Desk.step scaleDelay) (.init jobs) (pre ++ [d]) = some u :=
    (Runs.exec_concat_eq_some _).mpr ⟨t, ht, hu⟩
  cases hon : u.online worker with
  | true => exact ⟨[], mid, u, rfl, hstart, hon⟩
  | false =>
    have hb : worker ∈ u.barred := (mem_barred_step hu).mpr ⟨Or.inr hbars, hon⟩
    obtain hb | ⟨mid₁, mid₂, v, rfl, hv, hon'⟩ := barred_until_online hb hmid
    · exact absurd hb hfree
    · refine ⟨mid₁, mid₂, v, rfl, ?_, hon'⟩
      rw [← List.singleton_append, ← List.append_assoc]
      exact (Runs.exec_append_eq_some _).mpr ⟨u, hstart, hv⟩

/-- The run `r` is queued for `w`, and offered to it. -/
def offered : List Call :=
  [.manager (.statement (.upsertWorker "w")), .manager (.statement (.syncJob "j")),
    .manager (.dispatch "r" "j" (some "w") 0 90), .heartbeat "w" [] 95]

def plainJob : JobSpec := ⟨"j", true, .script, 1, 5, 0, [], .retry, [], 1⟩

/-- The worker claims, is drained while the run goes on, and asks once more. -/
theorem drain_excludes_work_claimed :
    DrainExcludesWork (fun d _ _ => d) [plainJob]
      (offered ++ [.claim "w" "r" "t" 100, .answer 0, .drain "w", .heartbeat "w" [("r", "t")] 105,
        .claim "w" "r" "t'" 110]) :=
  drain_excludes_work_of_honoured _ _ _ (by decide +kernel)

/-- The worker is drained between the offer and its claim, and the claim goes through. -/
theorem drained_worker_takes_offer :
    ¬DrainExcludesWork (fun d _ _ => d) [plainJob]
      (offered ++ [.drain "w", .claim "w" "r" "t" 100, .answer 0]) := by
  intro h
  have hassign : (Runs.exec (Desk.step fun d _ _ => d) (.init [plainJob])
      (offered ++ [.drain "w", .claim "w" "r" "t" 100])).any (fun s =>
        decide (s.assigns (.answer 0) = some "w")) = true := by decide +kernel
  obtain ⟨s, hs, hw⟩ := (Option.any_eq_true _ _).mp hassign
  obtain ⟨mid₁, mid₂, u, hmid, hu, hon⟩ :=
    h offered (.drain "w") [.claim "w" "r" "t" 100] (.answer 0) [] s "w" rfl hs rfl
      (of_decide_eq_true hw)
  -- Neither after the drain nor after the claim is the worker `ONLINE`.
  have hnever : ∀ mid ∈ [[], [Call.claim "w" "r" "t" 100]],
      (Runs.exec (Desk.step fun d _ _ => d) (.init [plainJob])
        (offered ++ .drain "w" :: mid)).any (fun s => s.online "w") = false := by decide +kernel
  have hsplit : mid₁ = [] ∨ mid₁ = [.claim "w" "r" "t" 100] := by
    cases mid₁ with
    | nil => exact Or.inl rfl
    | cons c mid₁ =>
      obtain ⟨rfl, hnil⟩ := List.cons.inj hmid
      exact Or.inr (by rw [(List.append_eq_nil_iff.mp hnil.symm).1])
  have hfalse := hnever mid₁ (by simpa using hsplit)
  simp [hu, hon] at hfalse

end Synora.Cluster
