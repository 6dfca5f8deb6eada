import Synora.Cluster.Margin

namespace Synora.Cluster
open Core Db Manager

section
variable {scaleDelay : ℕ → F64 → ℕ → ℕ} {s s' : Clocked}

/-! ## The map and the cancel tokens -/

/-- No cancellation is undone, and what is new in the map has a new cancel token. -/
structure Grows (w w' : Worker) : Prop where
  tokens : w.tokens ≤ w'.tokens
  cancelled : ∀ c ∈ w.cancelled, c ∈ w'.cancelled
  entries : ∀ id e, w'.running.lookup id = some e →
    w.running.lookup id = some e ∨ w.tokens ≤ e.cancel

theorem Grows.of_eq {w w' : Worker} (ht : w'.tokens = w.tokens) (hc : w'.cancelled = w.cancelled)
    (hr : w'.running = w.running) : Grows w w' :=
  ⟨ht ▸ le_rfl, fun _ h => hc ▸ h, fun _ _ h => Or.inl (hr ▸ h)⟩

theorem grows_taskReturn (w : Worker) (call : ℕ) (ok : Bool) : Grows w (taskReturn w call ok) := by
  unfold taskReturn
  split
  · exact .of_eq rfl rfl rfl
  split
  · split <;> exact .of_eq rfl rfl rfl
  · exact .of_eq rfl rfl rfl

theorem grows_accept (w : Worker) (a : Assignment) (main : Main) :
    Grows w { w.accept a with main } where
  tokens := Nat.le_succ _
  cancelled _ h := h
  entries id e h := by
    by_cases hid : id = a.runId
    · subst hid
      have he : e = ⟨a.leaseToken, w.tokens, a.job⟩ := by
        simpa [Worker.accept, AList.lookup_insert, eq_comm] using h
      exact Or.inr (by rw [he])
    · exact Or.inl (by simpa [Worker.accept, AList.lookup_insert_ne hid] using h)

theorem grows_receive (w : Worker) (call : ℕ) (r : Response) : Grows w (w.receive call r) := by
  unfold Worker.receive
  split
  · split
    · split <;> exact .of_eq rfl rfl rfl
    · exact grows_taskReturn ..
  · split
    · split
      · exact grows_accept ..
      · exact .of_eq rfl rfl rfl
    · exact grows_taskReturn ..
  · exact grows_taskReturn ..

theorem grows_giveUp (w : Worker) (call : ℕ) : Grows w (w.giveUp call) := by
  unfold Worker.giveUp
  split
  · split
    · exact .of_eq rfl rfl rfl
    · exact grows_taskReturn ..
  · split
    · exact .of_eq rfl rfl rfl
    · exact grows_taskReturn ..
  · exact grows_taskReturn ..

theorem grows_watchdog (w : Worker) : Grows w w.watchdog :=
  ⟨le_rfl, fun _ h => List.mem_append_right _ h, fun _ _ h => Or.inl h⟩

theorem grows_workerStep {t t' : System} {a : Action} (h : workerStep t a = some t')
    (ha : a ≠ .restart) : Grows t.worker t'.worker := by
  cases a with
  | receive i =>
    obtain ⟨m, -, rfl⟩ := Option.map_eq_some_iff.mp h
    exact grows_receive ..
  | giveUp call =>
    obtain rfl := Option.some.inj h
    exact grows_giveUp ..
  | watchdog =>
    obtain rfl := Option.some.inj h
    exact grows_watchdog ..
  | restart => exact absurd rfl ha
  | runEnd i o | report i =>
    obtain ⟨task, -, h⟩ := Option.bind_eq_some_iff.mp h
    split at h
    · obtain rfl := Option.some.inj h
      exact .of_eq rfl rfl rfl
    · cases h
  | leave i =>
    obtain ⟨task, -, h⟩ := Option.bind_eq_some_iff.mp h
    split at h
    · obtain rfl := Option.some.inj h
      refine ⟨le_rfl, fun _ h => h, fun id e he => Or.inl ?_⟩
      by_cases hid : id = task.runId
      · subst hid
        simp at he
      · simpa [AList.lookup_erase_ne hid] using he
    · cases h
  | beat | endClaims =>
    simp only [workerStep] at h
    split at h
    · obtain rfl := Option.some.inj h
      exact .of_eq rfl rfl rfl
    · cases h
  | cancelNext =>
    simp only [workerStep] at h
    split at h
    · obtain rfl := Option.some.inj h
      exact .of_eq rfl rfl rfl
    · obtain rfl := Option.some.inj h
      simp only [Worker.cancelRun]
      split
      · exact .of_eq rfl rfl rfl
      · exact ⟨le_rfl, fun _ h => List.mem_cons_of_mem _ h, fun _ _ h => Or.inl h⟩
    · cases h
  | claimNext =>
    simp only [workerStep] at h
    split at h
    · split at h
      · obtain rfl := Option.some.inj h
        exact .of_eq rfl rfl rfl
      · cases h
    · cases h
  | _ => cases h

/-! ## What one event does -/

/-- What an event does to the time the worker keeps, and to its map. -/
inductive Watches (s s' : Clocked) : Event → Prop
  | goesOn (e : Event) (hl : s'.looked = s.looked) (hn : s'.seen = s.seen)
      (hd : s'.deadline = s.deadline ∨ s'.deadline = s.sent + heartbeatSafetySecs)
      (hg : Grows s.worker s'.worker) : Watches s s' e
  | look (h : s' = s.lookNow) : Watches s s' .look
  | restart (hl : s'.looked = s.clock) (hn : s'.seen = 0) (hr : s'.worker.running = ∅) :
      Watches s s' (.cluster .restart)

variable (scaleDelay) in
structure Passes (s : Clocked) (e : Event) (s' : Clocked) : Prop where
  /-- The manager takes timely steps of its own. -/
  manager : ∃ as, (∀ a ∈ as, a.Timely s.clock) ∧
    Runs.exec (Manager.step scaleDelay) s.base.manager as = some s'.base.manager
  clock : s'.clock = if e = .tick then s.clock + 1 else s.clock
  watch : Watches s s' e

theorem exec_statement {m : State} {q : Stmt} (hf : free q) :
    Runs.exec (Manager.step scaleDelay) m [.statement q] = some { m with db := after m.db q } := by
  simp [Manager.step, hf]

theorem Watches.same {e : Event} (hl : s'.looked = s.looked) (hn : s'.seen = s.seen)
    (hd : s'.deadline = s.deadline) (hw : s'.worker = s.worker) : Watches s s' e :=
  .goesOn e hl hn (Or.inl hd) (by rw [hw]; exact .of_eq rfl rfl rfl)

theorem manager_stays {m : State} (h : m = s.base.manager) :
    ∃ as, (∀ a ∈ as, a.Timely s.clock) ∧
      Runs.exec (Manager.step scaleDelay) s.base.manager as = some m :=
  ⟨[], by simp, by rw [h]; rfl⟩

theorem cluster_manager {a : Action} {base : System} (hal : s.Allowed a)
    (hs : Cluster.step scaleDelay s.base a = some base) :
    ∃ as, (∀ a ∈ as, a.Timely s.clock) ∧
      Runs.exec (Manager.step scaleDelay) s.base.manager as = some base.manager := by
  unfold Cluster.step at hs
  cases a with
  | manager b =>
    obtain ⟨m, hm, rfl⟩ := Option.map_eq_some_iff.mp hs
    have htimely : b.Timely s.clock := hal
    exact ⟨[b], by simpa using htimely, by simp [hm]⟩
  | serveHeartbeat _ _ | serveClaim _ _ _ => cases hal
  | serveComplete i =>
    simp only [managerStep] at hs
    split at hs
    · rename_i body _
      obtain ⟨m, hm, rfl⟩ := Option.map_eq_some_iff.mp hs
      exact ⟨[.request body], by simp [Action.Timely], by simp [hm]⟩
    · cases hs
  | answer i =>
    obtain ⟨p, -, hs⟩ := Option.bind_eq_some_iff.mp hs
    obtain ⟨hd, -, hs⟩ := Option.bind_eq_some_iff.mp hs
    split at hs
    · obtain rfl := Option.some.inj hs
      exact manager_stays rfl
    · cases hs
  | loseRequest i | loseResponse i =>
    obtain rfl := Option.some.inj hs
    exact manager_stays rfl
  | repeatRequest i | repeatResponse i =>
    obtain ⟨m, -, rfl⟩ := Option.map_eq_some_iff.mp hs
    exact manager_stays rfl
  | _ => exact manager_stays (workerStep_manager hs)

theorem cluster_grows {a : Action} {base : System} (ha : a ≠ .restart)
    (hs : Cluster.step scaleDelay s.base a = some base) : Grows s.worker base.worker := by
  have hsame (h : base.worker = s.base.worker) : Grows s.worker base.worker := by
    rw [h]
    exact .of_eq rfl rfl rfl
  unfold Cluster.step at hs
  cases a with
  | manager _ | serveHeartbeat _ _ | serveClaim _ _ _ | serveComplete _ | answer _ =>
    exact hsame (managerStep_worker hs)
  | loseRequest _ | repeatRequest _ | loseResponse _ | repeatResponse _ =>
    exact hsame (networkStep_worker hs)
  | _ => exact grows_workerStep hs ha

theorem cluster_passes {a : Action} {base : System} (hal : s.Allowed a)
    (hs : Cluster.step scaleDelay s.base a = some base) :
    Passes scaleDelay s (.cluster a) (s.keepTime base a) := by
  have hm := cluster_manager hal hs
  by_cases hrestart : a = .restart
  · subst hrestart
    obtain rfl : { s.base with worker := .init s.worker.id s.worker.maxConcurrency } = base :=
      Option.some.inj hs
    exact ⟨hm, rfl, .restart rfl rfl rfl⟩
  have hg := cluster_grows hrestart hs
  cases a with
  | receive i =>
    simp only [Clocked.keepTime]
    split
    · exact ⟨hm, rfl, .goesOn _ rfl rfl (Or.inr rfl) hg⟩
    · exact ⟨hm, rfl, .goesOn _ rfl rfl (Or.inl rfl) hg⟩
  | restart => exact absurd rfl hrestart
  | _ => exact ⟨hm, rfl, .goesOn _ rfl rfl (Or.inl rfl) hg⟩

theorem step_passes {e : Event} (hs : s.step scaleDelay e = some s') :
    Passes scaleDelay s e s' := by
  cases e with
  | tick =>
    obtain rfl := Option.some.inj hs
    exact ⟨manager_stays rfl, rfl, .same rfl rfl rfl rfl⟩
  | look =>
    obtain rfl := Option.some.inj hs
    exact ⟨manager_stays rfl, rfl, .look rfl⟩
  | cluster a =>
    simp only [Clocked.step] at hs
    split at hs
    · rename_i hal
      obtain ⟨base, hbase, rfl⟩ := Option.map_eq_some_iff.mp hs
      exact cluster_passes hal hbase
    · cases hs
  | failBeat j | answerClaim j | failClaim j =>
    obtain ⟨b, -, rfl⟩ := Option.map_eq_some_iff.mp hs
    exact ⟨manager_stays rfl, rfl, .same rfl rfl rfl rfl⟩
  | respond j =>
    obtain ⟨b, -, hs⟩ := Option.bind_eq_some_iff.mp hs
    split at hs
    · obtain rfl := Option.some.inj hs
      exact ⟨manager_stays rfl, rfl, .same rfl rfl rfl rfl⟩
    · cases hs
  | startBeat i =>
    simp only [Clocked.step] at hs
    split at hs
    · obtain rfl := Option.some.inj hs
      refine ⟨?_, rfl, .same rfl rfl rfl rfl⟩
      change ∃ as, (∀ a ∈ as, a.Timely s.clock) ∧ Runs.exec (Manager.step scaleDelay) s.base.manager
        as = some { s.base.manager with db := touchHeartbeat s.db s.worker.id }
      unfold touchHeartbeat
      split
      · refine ⟨[.statement (.setWorkerStatus s.worker.id .online)], ?_, exec_statement rfl⟩
        simp [Action.Timely, leaseStamp]
      · exact ⟨[], by simp, rfl⟩
    · cases hs
  | renew j =>
    obtain ⟨b, -, hs⟩ := Option.bind_eq_some_iff.mp hs
    split at hs
    · cases hs
    · rename_i runId token todo _
      obtain rfl := Option.some.inj hs
      refine ⟨⟨[.statement (.updateRun (.renewRunLease runId s.worker.id token s.clock))], ?_,
        exec_statement rfl⟩, rfl, .same rfl rfl rfl rfl⟩
      simp [Action.Timely, leaseStamp]
  | takeRun i token =>
    simp only [Clocked.step] at hs
    split at hs
    · rename_i call runId _
      split at hs
      · obtain rfl := Option.some.inj hs
        exact ⟨manager_stays rfl, rfl, .same rfl rfl rfl rfl⟩
      · rename_i m hm
        obtain rfl := Option.some.inj hs
        obtain ⟨queued, -, -, -, rfl⟩ := takeRun_none hm
        refine ⟨⟨[.statement (claim runId s.worker.id token s.clock),
          .statement (.setJobStatus queued.jobId .syncing)], ?_, ?_⟩, rfl, .same rfl rfl rfl rfl⟩
        · simp [Action.Timely, leaseStamp, claim]
        · have hclaim : Manager.step scaleDelay s.base.manager
              (.statement (claim runId s.worker.id token s.clock)) = some { s.base.manager with
                db := after s.base.manager.db (claim runId s.worker.id token s.clock) } := rfl
          rw [Runs.exec_cons, hclaim]
          rfl
    · cases hs

/-! ## A lease stays as long as it was granted for -/

theorem LeasedTo.clocked {es : List Event} (h : Leased s) {id : String} {u : ℤ}
    (hu : u ≤ s.clock + runLeaseSecs) (hl : LeasedTo s.db id u)
    (hs : Runs.exec (Clocked.step scaleDelay) s es = some s') : LeasedTo s'.db id u := by
  induction es generalizing s with
  | nil =>
    obtain rfl : s = s' := Option.some.inj hs
    exact hl
  | cons e es ih =>
    obtain ⟨t, ht, hrest⟩ := (Runs.exec_cons_eq_some _).mp hs
    obtain ⟨⟨as, htimely, hrun⟩, hclock, -⟩ := step_passes ht
    refine ih (leased_step h ht) ?_ (hl.exec h.manager htimely hrun hu) hrest
    split at hclock <;> omega

/-! ## The watchdog is in time -/

/-- The watchdog sleeps for one second between two looks. -/
def Punctual (s : Clocked) (e : Event) : Prop := e = .tick → s.clock ≤ s.looked

instance (s : Clocked) (e : Event) : Decidable (Punctual s e) :=
  inferInstanceAs (Decidable (e = .tick → s.clock ≤ s.looked))

/-- A look after the deadline has cancelled everything that was in the map. -/
structure Watched (s : Clocked) : Prop where
  recent : s.clock ≤ s.looked + 1
  seen_le : s.seen ≤ s.worker.tokens
  done : s.deadline ≤ s.looked → ∀ id e, s.worker.running.lookup id = some e →
    e.cancel < s.seen → e.cancel ∈ s.worker.cancelled

theorem watched_step {e : Event} (hl : Leased s) (h : Watched s) (hp : Punctual s e)
    (hs : s.step scaleDelay e = some s') : Watched s' := by
  obtain ⟨-, hclock, hw⟩ := step_passes hs
  cases hw with
  | goesOn e hlook hseen hdead hg =>
    refine ⟨?_, ?_, ?_⟩
    · have hrecent := h.recent
      rw [hlook, hclock]
      split
      · have hnow := hp ‹_›
        omega
      · exact hrecent
    · rw [hseen]
      exact h.seen_le.trans hg.tokens
    · intro hd id x hx hlt
      rw [hlook] at hd
      rw [hseen] at hlt
      -- Deadlines only move on, so the last look came after the old one too.
      have hold : s.deadline ≤ s.looked := by
        have hle := hl.deadline_le
        rcases hdead with hdead | hdead <;> omega
      rcases hg.entries id x hx with hx | hx
      · exact hg.cancelled _ (h.done hold id x hx hlt)
      · have := h.seen_le
        omega
  | look hlook =>
    subst hlook
    refine ⟨Int.le_add_one le_rfl, ?_, ?_⟩
    · simp only [Clocked.lookNow, Clocked.worker]
      split <;> exact le_rfl
    · intro hd id x hx _
      have hd' : s.deadline ≤ s.clock := hd
      simp only [Clocked.lookNow, Clocked.worker, if_pos hd'] at hx ⊢
      exact mem_watchdog_cancelled hx
  | restart hlook hseen hrun =>
    refine ⟨?_, by rw [hseen]; exact Nat.zero_le _, ?_⟩
    · rw [hlook, hclock]
      exact Int.le_add_one le_rfl
    · intro _ id x hx
      simp [hrun] at hx

theorem watched_exec {jobs : List JobSpec} {worker : String} {maxConcurrency : ℕ} {start : ℤ}
    {es : List Event}
    (hp : Runs.Along (Clocked.step scaleDelay) Punctual (.init jobs worker maxConcurrency start) es)
    (hs : Runs.exec (Clocked.step scaleDelay) (.init jobs worker maxConcurrency start) es = some s) :
    Watched s := by
  have hinit : Watched (.init jobs worker maxConcurrency start) := by
    refine ⟨Int.le_add_one le_rfl, Nat.zero_le _, ?_⟩
    intro _ id x hx
    simp [Clocked.init, Clocked.worker, System.init, Worker.init] at hx
  exact (Runs.exec_invariant_along _ Punctual (fun t => Leased t ∧ Watched t)
    (fun _ _ _ hc hi ht => ⟨leased_step hi.1 ht, watched_step hi.1 hi.2 hc ht⟩)
    ⟨leased_init jobs worker maxConcurrency start, hinit⟩ hp hs).2

end

/-! ## The safety margin -/

/-- The worker holds the run `id` under a token that the manager's row still carries, and the
last heartbeat response received has not asked to cancel it. -/
structure Holding (s : Clocked) (id : String) (e : Running) (r : RunRow) : Prop where
  entry : s.worker.running.lookup id = some e
  row : s.db.run id = some r
  active : r.status.isActive
  owner : r.workerId = some s.worker.id
  token : r.leaseToken = some e.leaseToken
  kept : id ∉ s.cancels

theorem Leased.holding {s : Clocked} (h : Leased s) {id : String} {e : Running} {r : RunRow}
    (hr : Holding s id e r) : LeasedTo s.db id (s.deadline + 60) := by
  have hmem : id ∈ s.worker.running := by
    rw [← AList.lookup_isSome, hr.entry]
    rfl
  exact h.held id hmem hr.kept

/-- In every state that any order of heartbeats, claims, losses and delays leads to, the lease of
a run in the worker's map ends at least 59 seconds after the watchdog's deadline. The reaper can
expire the run only then, while a look of the watchdog from the deadline on cancels it; and if the
watchdog looks once a second, it has cancelled every run it has seen by then. A renewal at the
clock's time keeps the reaper away for the full length of the lease. -/
theorem lease_safety_margin (scaleDelay : ℕ → F64 → ℕ → ℕ) (jobs : List JobSpec) (worker : String)
    (maxConcurrency : ℕ) (start : ℤ) (es : List Event) (s : Clocked)
    (hs : Runs.exec (Clocked.step scaleDelay) (.init jobs worker maxConcurrency start) es = some s) :
    (∀ id e r, Holding s id e r →
      (∃ lease, r.leaseExpiresAt = some lease ∧ s.deadline + 59 ≤ lease) ∧
      (∀ now, 0 < changed s.db (.updateRun (.expireRun id now)) → s.deadline + 59 ≤ now) ∧
      (s.deadline ≤ s.clock → e.cancel ∈ s.lookNow.worker.cancelled) ∧
      (Runs.Along (Clocked.step scaleDelay) Punctual (.init jobs worker maxConcurrency start) es →
        ∀ now ≤ s.clock, 0 < changed s.db (.updateRun (.expireRun id now)) →
          e.cancel < s.seen → e.cancel ∈ s.worker.cancelled)) ∧
    ∀ ev s₁ id owner token,
      s.step scaleDelay ev = some s₁ →
      0 < changed s.db (.updateRun (.renewRunLease id owner token s.clock)) →
      s₁.db = after s.db (.updateRun (.renewRunLease id owner token s.clock)) →
      ∀ later s₂, Runs.exec (Clocked.step scaleDelay) s₁ later = some s₂ →
        ∀ now < s.clock + 300, changed s₂.db (.updateRun (.expireRun id now)) = 0 := by
  have hl : Leased s := leased_exec (leased_init jobs worker maxConcurrency start) hs
  refine ⟨?_, ?_⟩
  · intro id e r hr
    have hlease := hl.holding hr
    have hlate : ∀ now, 0 < changed s.db (.updateRun (.expireRun id now)) →
        s.deadline + 60 ≤ now := fun now hc => hlease.le_of_expired hl.manager.valid hc
    refine ⟨?_, ?_, ?_, ?_⟩
    · obtain ⟨lease, hexp, hle⟩ := hlease r hr.row hr.active
      have hmargin : s.deadline + 59 ≤ s.deadline + 60 := by omega
      exact ⟨lease, hexp, hmargin.trans hle⟩
    · intro now hc
      have hmargin : s.deadline + 59 ≤ s.deadline + 60 := by omega
      exact hmargin.trans (hlate now hc)
    · intro hd
      simp only [Clocked.lookNow, Clocked.worker, if_pos hd]
      exact mem_watchdog_cancelled hr.entry
    · intro hp now hnow hc hseen
      have hw := watched_exec hp hs
      refine hw.done ?_ id e hr.entry hseen
      have hexp : s.deadline + 60 ≤ s.clock := (hlate now hc).trans hnow
      have hrecent := hw.recent
      omega
  · intro ev s₁ id owner token hstep hc hdb later s₂ hlater now hnow
    have hclock := (step_passes hstep).clock
    have hrow : LeasedTo s₁.db id (s.clock + runLeaseSecs) := by
      rw [hdb]
      exact leasedTo_of_renewed hl.manager.valid hc
    have hkept : LeasedTo s₂.db id (s.clock + runLeaseSecs) := by
      refine LeasedTo.clocked (leased_step hl hstep) ?_ hrow hlater
      split at hclock <;> omega
    have hvalid : s₂.db.Valid := (leased_exec (leased_step hl hstep) hlater).manager.valid
    by_contra hpos
    have hexp := hkept.le_of_expired hvalid (Nat.pos_of_ne_zero hpos)
    have hlt : now < now := lt_of_lt_of_le hnow hexp
    exact lt_irrefl _ hlt

/-- The run `r` is queued for `w`, offered at 95 and claimed at 96. -/
def claimedAt96 : List Event :=
  [.cluster (.manager (.statement (.upsertWorker "w"))), .cluster (.manager (.statement (.syncJob "j"))),
    .cluster (.manager (.dispatch "r" "j" (some "w") 0 95)), .cluster .beat, .startBeat 0,
    .respond 0, .cluster (.receive 0), .cluster .cancelNext, .look, .tick, .cluster .claimNext,
    .takeRun 0 "t", .answerClaim 0, .cluster (.receive 0)]

theorem lease_safety_margin_claimed : ∃ s r, ∃ e : Running,
    Runs.exec (Clocked.step fun d _ _ => d) (.init [quickRetry] "w" 2 95) claimedAt96 = some s ∧
      Holding s "r" e r ∧ ∃ lease, r.leaseExpiresAt = some lease ∧ s.deadline + 59 ≤ lease := by
  have hrun : (Runs.exec (Clocked.step fun d _ _ => d) (.init [quickRetry] "w" 2 95)
      claimedAt96).any (fun s => (s.db.run "r").any fun r =>
        (s.worker.running.lookup "r").any fun e => decide (r.status.isActive ∧
          r.workerId = some s.worker.id ∧ r.leaseToken = some e.leaseToken ∧ "r" ∉ s.cancels)) =
      true := by decide +kernel
  obtain ⟨s, hs, hrow⟩ := (Option.any_eq_true _ _).mp hrun
  obtain ⟨r, hr, hentry⟩ := (Option.any_eq_true _ _).mp hrow
  obtain ⟨e, he, hall⟩ := (Option.any_eq_true _ _).mp hentry
  obtain ⟨ha, ho, ht, hk⟩ := of_decide_eq_true hall
  have hold : Holding s "r" e r := ⟨he, hr, ha, ho, ht, hk⟩
  exact ⟨s, r, e, hs, hold, ((lease_safety_margin _ _ _ _ _ _ s hs).1 "r" e r hold).1⟩

end Synora.Cluster
