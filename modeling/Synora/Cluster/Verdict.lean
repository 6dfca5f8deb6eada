import Synora.Cluster.Handlers
import Synora.Db.Frames

namespace Synora.Cluster
open Core Db Manager Table Tables

/-! ## Renewing the leases of a heartbeat -/

/-- The run is active under this worker and this token, and its lease has not run out. -/
def LeaseValid (t : Tables) (worker : String) (now : Time) (lease : String × String) : Prop :=
  lease.2 ≠ "" ∧ ∃ r ∈ t.run lease.1, holdsLease worker lease.2 now r

instance (t : Tables) (worker : String) (now : Time) (lease : String × String) :
    Decidable (LeaseValid t worker now lease) := inferInstanceAs (Decidable (_ ∧ _))

/-- `t'` is `t` with some live leases moved on to `now + runLeaseSecs`. -/
structure Renewed (now : Time) (t t' : Tables) : Prop where
  rows : ∃ f : RunRow → RunRow, t'.jobRuns = t.jobRuns.map f ∧
    ∀ r, f r = r ∨ (leaseLive now r ∧ f r = { r with leaseExpiresAt := some (now + runLeaseSecs) })
  valid : t'.Valid

theorem Renewed.refl {now : Time} {t : Tables} (hv : t.Valid) : Renewed now t t :=
  ⟨⟨id, (List.map_id _).symm, fun _ => Or.inl rfl⟩, hv⟩

theorem Renewed.trans {now : Time} {t t' t'' : Tables} (h : Renewed now t t')
    (h' : Renewed now t' t'') : Renewed now t t'' := by
  obtain ⟨f, hf, hfr⟩ := h.rows
  obtain ⟨g, hg, hgr⟩ := h'.rows
  refine ⟨⟨g ∘ f, by rw [hg, hf, List.map_map], fun r => ?_⟩, h'.valid⟩
  rcases hfr r with hr | ⟨hl, hr⟩
  · simpa only [Function.comp_apply, hr] using hgr r
  · -- A second renewal at the same instant writes the same expiry.
    refine Or.inr ⟨hl, ?_⟩
    rcases hgr (f r) with hr' | ⟨-, hr'⟩ <;> rw [Function.comp_apply, hr', hr]

theorem renewed_after {t : Tables} (hv : t.Valid) (id worker token : String) (now : Time) :
    Renewed now t (after t (.updateRun (.renewRunLease id worker token now))) := by
  obtain ⟨he, -⟩ | ⟨he, -⟩ := after_eq t (.updateRun (.renewRunLease id worker token now))
  · refine ⟨⟨_, by rw [he]; rfl, fun r => ?_⟩, after_valid hv _⟩
    by_cases hg : (renewRunLease id worker token now).guard t r
    · have hl : leaseLive now r := by
        simp only [renewRunLease, decide_eq_true_eq] at hg
        exact hg.2.2.2.2.1
      exact Or.inr ⟨hl, by rw [RunStmt.update, if_pos hg]; rfl⟩
    · exact Or.inl (by rw [RunStmt.update, if_neg hg])
  · rw [he]
    exact .refl hv

/-- A renewal reports a row exactly when it has met a valid lease. -/
theorem changed_renew_pos {t : Tables} (hv : t.Valid) {id worker token : String} {now : Time} :
    0 < changed t (.updateRun (.renewRunLease id worker token now)) ↔
      LeaseValid t worker now (id, token) := by
  have hguard : ∀ r, (renewRunLease id worker token now).guard t r ↔
      token ≠ "" ∧ r.id = id ∧ holdsLease worker token now r := fun r => by simp [renewRunLease]
  constructor
  · intro hc
    obtain ⟨-, -, r, hr, hg⟩ := changed_updateRun_pos hc
    obtain ⟨htok, rfl, hl⟩ := (hguard r).mp hg
    exact ⟨htok, r, hv.run_of_mem hr, hl⟩
  · rintro ⟨htok, r, hr, hl⟩
    obtain ⟨hm, hid⟩ := run_eq_some hr
    -- Only the expiry changes, so no constraint stands in the way.
    have hvalid : ((renewRunLease id worker token now).effect t).2.Valid :=
      RunUpdate.effect_valid hv (fun _ => rfl) (fun _ => rfl) (fun _ => rfl) fun _ _ h => h
    rw [changed_of_valid (q := .updateRun (.renewRunLease id worker token now)) hvalid]
    exact matched_pos.mpr ⟨r, hm, (hguard r).mpr ⟨htok, hid, hl⟩⟩

section
variable {now : Time} {t t' : Tables}

theorem Renewed.run (h : Renewed now t t') (id : String) :
    ∃ f : RunRow → RunRow, t'.run id = (t.run id).map f ∧
      ∀ r, f r = r ∨
        (leaseLive now r ∧ f r = { r with leaseExpiresAt := some (now + runLeaseSecs) }) := by
  obtain ⟨f, hf, hfr⟩ := h.rows
  have hid : ∀ r, (f r).id = r.id := by
    intro r
    rcases hfr r with hr | ⟨-, hr⟩ <;> rw [hr]
  refine ⟨f, ?_, hfr⟩
  have hmap : t'.jobRuns = update (fun _ => true) f t.jobRuns := by simp [hf, update]
  simpa [Tables.run, hmap] using lookup_update (p := fun _ => true) t.jobRuns hid

theorem Renewed.leaseValid_iff (h : Renewed now t t') (worker : String)
    (lease : String × String) : LeaseValid t' worker now lease ↔ LeaseValid t worker now lease := by
  obtain ⟨f, hf, hfr⟩ := h.run lease.1
  have hhold : ∀ r, holdsLease worker lease.2 now (f r) ↔ holdsLease worker lease.2 now r := by
    intro r
    rcases hfr r with hr | ⟨hl, hr⟩
    · rw [hr]
    · have hlive : leaseLive now (f r) := by
        rw [hr]
        exact ⟨now + runLeaseSecs, rfl, Int.lt_add_of_pos_right now (by decide)⟩
      simp only [holdsLease, hlive, hl, true_and]
      simp [hr]
  simp only [LeaseValid, hf, Option.mem_def, Option.map_eq_some_iff]
  constructor
  · rintro ⟨htok, _, ⟨r, hr, rfl⟩, hl⟩
    exact ⟨htok, r, hr, (hhold r).mp hl⟩
  · rintro ⟨htok, r, hr, hl⟩
    exact ⟨htok, f r, ⟨r, hr, rfl⟩, (hhold r).mpr hl⟩

/-- A renewal touches nothing that a query by owner and status reads or sorts by. -/
theorem Renewed.runsWhere_ids (h : Renewed now t t') {p : RunRow → Bool}
    (hp : ∀ r e, p { r with leaseExpiresAt := e } = p r) :
    (runsWhere t' p).map RunRow.id = (runsWhere t p).map RunRow.id := by
  obtain ⟨f, hf, hfr⟩ := h.rows
  have hkeep : ∀ r, p (f r) = p r ∧ (f r).id = r.id ∧ (f r).priority = r.priority ∧
      (f r).createdAt = r.createdAt := by
    intro r
    rcases hfr r with hr | ⟨-, hr⟩
    · simp [hr]
    · simp [hr, hp]
  have hfilter : (t.jobRuns.map f).filter p = (t.jobRuns.filter p).map f := by
    rw [List.filter_map]
    congr 1
    exact List.filter_congr fun r _ => (hkeep r).1
  have hsort := List.map_insertionSort (r := runOrder) (s := runOrder) f (t.jobRuns.filter p)
    (fun a _ b _ => by simp [runOrder, hkeep])
  rw [runsWhere, runsWhere, hf, hfilter, ← hsort, List.map_map]
  exact List.map_congr_left fun r _ => (hkeep r).2.1

end

/-- The leases a heartbeat renews are the valid ones among those it looks at. -/
theorem renewLeases_spec {t : Tables} (hv : t.Valid) (worker : String) (now : Time)
    (leases : List (String × String)) :
    Renewed now t (renewLeases worker now t leases).1 ∧
      ∀ id, id ∈ (renewLeases worker now t leases).2 ↔
        ∃ lease ∈ leases, lease.1 = id ∧ LeaseValid t worker now lease := by
  induction leases generalizing t with
  | nil => exact ⟨.refl hv, by simp [renewLeases]⟩
  | cons lease rest ih =>
    obtain ⟨runId, token⟩ := lease
    have hfirst := renewed_after hv runId worker token now
    obtain ⟨hrest, hids⟩ := ih hfirst.valid
    refine ⟨hfirst.trans hrest, fun id => ?_⟩
    have hpos : 0 < changed t (.updateRun (.renewRunLease runId worker token now)) ↔
      LeaseValid t worker now (runId, token) := changed_renew_pos hv
    simp only [renewLeases, hpos, List.mem_cons, exists_eq_or_imp]
    simp only [hfirst.leaseValid_iff] at hids
    split
    · rename_i hl
      simp [hids, hl, eq_comm]
    · rename_i hl
      simp [hids, hl]

/-! ## The verdict of a heartbeat -/

/-- The runs that a response asks the worker to cancel. -/
def Response.cancels : Response → List String
  | .heartbeat cancelRuns _ => cancelRuns
  | _ => []

/-- What `cancel_run` names: `runs.first()`. -/
def firstCancelling (t : Tables) (worker : String) : Option String :=
  (cancellingRunsOf t worker).head?.map RunRow.id

def Cancelling (t : Tables) (id : String) : Prop := ∃ r ∈ t.run id, r.status = .cancelling

/-- The worker has to stop what it reports: the lease is not valid, or the run was stopped. -/
def MustStop (t : Tables) (worker : String) (now : Time) (lease : String × String) : Prop :=
  ¬LeaseValid t worker now lease ∨ Cancelling t lease.1

/-- Of the reported runs, the response names exactly those that the worker has to stop. -/
def VerdictExact (m : State) (worker : String) (activeRuns : List (String × String))
    (now : Time) : Prop :=
  ∀ id ∈ activeRuns.map Prod.fst,
    id ∈ (serveHeartbeat m worker activeRuns now).2.cancels ↔
      ∃ lease ∈ activeRuns, lease.1 = id ∧ MustStop m.db worker now lease

instance (t : Tables) (id : String) : Decidable (Cancelling t id) :=
  inferInstanceAs (Decidable (∃ r ∈ t.run id, _))

instance (t : Tables) (worker : String) (now : Time) (lease : String × String) :
    Decidable (MustStop t worker now lease) := inferInstanceAs (Decidable (_ ∨ _))

instance (m : State) (worker : String) (activeRuns : List (String × String)) (now : Time) :
    Decidable (VerdictExact m worker activeRuns now) := inferInstanceAs (Decidable (∀ _ ∈ _, _))

theorem cancelling_of_first {t : Tables} (hv : t.Valid) {worker id : String}
    (h : firstCancelling t worker = some id) : Cancelling t id := by
  obtain ⟨r, hr, rfl⟩ := Option.map_eq_some_iff.mp h
  obtain ⟨hm, hg⟩ := mem_runsWhere.mp (List.mem_of_mem_head? hr)
  exact ⟨r, hv.run_of_mem hm, (of_decide_eq_true hg).2⟩

/-- One run has one valid token. -/
theorem LeaseValid.unique {t : Tables} {worker : String} {now : Time} {l l' : String × String}
    (h : LeaseValid t worker now l) (h' : LeaseValid t worker now l') (hid : l.1 = l'.1) :
    l = l' := by
  obtain ⟨-, r, hr, hl⟩ := h
  obtain ⟨-, r', hr', hl'⟩ := h'
  rw [Option.mem_def, hid, Option.mem_def.mp hr', Option.some.injEq] at hr
  subst hr
  exact Prod.ext hid (Option.some.inj (hl.2.1.symm.trans hl'.2.1))

/-- `touch_heartbeat` writes to `workers` only. -/
theorem touchHeartbeat_jobRuns (t : Tables) (worker : String) :
    (touchHeartbeat t worker).jobRuns = t.jobRuns := by
  unfold touchHeartbeat
  split
  · obtain ⟨he, -⟩ | ⟨he, -⟩ := after_eq t (.setWorkerStatus worker .online) <;> rw [he]
    rfl
  · rfl

/-- Who is named: the reported runs that no renewal has met, and the first stopped run. -/
theorem mem_cancels {m : State} (hv : m.db.Valid) {worker id : String}
    {activeRuns : List (String × String)} {now : Time} :
    id ∈ (serveHeartbeat m worker activeRuns now).2.cancels ↔
      (id ∈ activeRuns.map Prod.fst ∧
        ¬∃ lease ∈ activeRuns.take 256, lease.1 = id ∧ LeaseValid m.db worker now lease) ∨
      firstCancelling m.db worker = some id := by
  simp only [serveHeartbeat_eq, heartbeatResponse, Response.cancels]
  have hruns := touchHeartbeat_jobRuns m.db worker
  have htouched := touchHeartbeat_valid hv worker
  generalize touchHeartbeat m.db worker = t at hruns htouched
  obtain ⟨hren, hids⟩ := renewLeases_spec htouched worker now (activeRuns.take 256)
  have hlease : ∀ lease, LeaseValid t worker now lease ↔ LeaseValid m.db worker now lease := by
    intro lease
    simp only [LeaseValid, Tables.run, hruns]
  have hfirst : ((cancellingRunsOf (renewLeases worker now t (activeRuns.take 256)).1
      worker).head?.map RunRow.id) = firstCancelling m.db worker := by
    have hsame := hren.runsWhere_ids (p := fun r =>
      decide (r.workerId = some worker ∧ r.status = .cancelling)) fun _ _ => rfl
    have hdb : cancellingRunsOf t worker = cancellingRunsOf m.db worker := by
      simp only [cancellingRunsOf, runsWhere, hruns]
    rw [firstCancelling, ← List.head?_map, ← List.head?_map, ← hdb]
    exact congrArg List.head? hsame
  rw [List.mem_append, hfirst, Option.mem_toList, List.mem_filter]
  simp [hids, hlease]

/-- The bounded renewal loop and the first-only pick reach every run of the request. -/
structure VerdictReady (t : Tables) (worker : String) (now : Time)
    (activeRuns : List (String × String)) : Prop where
  /-- A run that is to go on is reported among the first 256. -/
  reached : ∀ lease ∈ activeRuns,
    (∀ other ∈ activeRuns, other.1 = lease.1 → ¬MustStop t worker now other) →
      lease.1 ∈ (activeRuns.take 256).map Prod.fst
  /-- No run is reported under its valid token and under another one too. -/
  tokens : ∀ lease ∈ activeRuns.take 256, LeaseValid t worker now lease →
    firstCancelling t worker ≠ some lease.1 → ∀ other ∈ activeRuns, other.1 = lease.1 → other = lease
  /-- Of the stopped runs whose leases are renewed, only the worker's first is reported. -/
  stopped : ∀ lease ∈ activeRuns.take 256, LeaseValid t worker now lease →
    Cancelling t lease.1 → firstCancelling t worker = some lease.1

theorem verdictReady_of_exact {m : State} (hv : m.db.Valid) {worker : String} {now : Time}
    {activeRuns : List (String × String)} (h : VerdictExact m worker activeRuns now) :
    VerdictReady m.db worker now activeRuns where
  reached lease hl hgo := by
    have hid : lease.1 ∈ activeRuns.map Prod.fst := List.mem_map_of_mem hl
    have hspared : lease.1 ∉ (serveHeartbeat m worker activeRuns now).2.cancels := by
      intro hc
      obtain ⟨other, ho, heq, hmust⟩ := (h lease.1 hid).mp hc
      exact hgo other ho heq hmust
    rw [mem_cancels hv, not_or, not_and, not_not] at hspared
    obtain ⟨other, ho, heq, -⟩ := hspared.1 hid
    exact heq ▸ List.mem_map_of_mem ho
  tokens lease hl hvalid hfirst other ho heq := by
    by_contra hne
    have hbad : ¬LeaseValid m.db worker now other := fun h' => hne (h'.unique hvalid heq)
    have hid : lease.1 ∈ activeRuns.map Prod.fst := heq ▸ List.mem_map_of_mem ho
    have htold := (h lease.1 hid).mpr ⟨other, ho, heq, Or.inl hbad⟩
    rcases (mem_cancels hv).mp htold with ⟨-, hnone⟩ | hc
    · exact hnone ⟨lease, hl, rfl, hvalid⟩
    · exact hfirst hc
  stopped lease hl hvalid hcan := by
    have hmem := List.mem_of_mem_take hl
    have htold := (h lease.1 (List.mem_map_of_mem hmem)).mpr ⟨lease, hmem, rfl, Or.inr hcan⟩
    rcases (mem_cancels hv).mp htold with ⟨-, hnone⟩ | hc
    · exact absurd ⟨lease, hl, rfl, hvalid⟩ hnone
    · exact hc

theorem VerdictReady.exact {m : State} (hv : m.db.Valid) {worker : String} {now : Time}
    {activeRuns : List (String × String)} (h : VerdictReady m.db worker now activeRuns) :
    VerdictExact m worker activeRuns now := by
  intro id hid
  rw [mem_cancels hv]
  constructor
  · rintro (⟨-, hnone⟩ | hfirst)
    · by_contra hgo
      push Not at hgo
      obtain ⟨lease, hl, rfl⟩ := List.mem_map.mp hid
      obtain ⟨other, ho, heq⟩ := List.mem_map.mp (h.reached lease hl hgo)
      -- It is reported among the first 256 and need not stop, so its lease was renewed.
      have hvalid : LeaseValid m.db worker now other := by
        by_contra hbad
        exact hgo other (List.mem_of_mem_take ho) heq (Or.inl hbad)
      exact hnone ⟨other, ho, heq, hvalid⟩
    · obtain ⟨lease, hl, rfl⟩ := List.mem_map.mp hid
      exact ⟨lease, hl, rfl, Or.inr (cancelling_of_first hv hfirst)⟩
  · rintro ⟨lease, hl, rfl, hmust⟩
    by_contra hspared
    rw [not_or, not_and, not_not] at hspared
    obtain ⟨other, ho, heq, hvalid⟩ := hspared.1 hid
    rcases hmust with hbad | hcan
    · have hsame := h.tokens other ho hvalid (heq ▸ hspared.2) lease hl heq.symm
      exact hbad (hsame ▸ hvalid)
    · exact hspared.2 (heq ▸ h.stopped other ho hvalid (heq ▸ hcan))

/-- The worker `w` executes `r₁` and `r₂`, of two jobs, until 400. -/
def twoRuns : List Stmt :=
  [.upsertWorker "w", .syncJob "j₁", .syncJob "j₂", .createRun "r₁" "j₁" none .queued 0 90,
    .createRun "r₂" "j₂" none .queued 0 91, .updateRun (.claimRun "r₁" "w" "t₁" 100),
    .updateRun (.claimRun "r₂" "w" "t₂" 100)]

def managerAfter (qs : List Stmt) : State := { State.init [] with db := afterAll empty qs }

end Synora.Cluster
