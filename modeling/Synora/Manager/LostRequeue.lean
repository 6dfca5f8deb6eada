import Synora.Manager.OperatorStop
import Synora.Manager.Origin

namespace Synora.Manager
open Core Db Table Slots Engine

/-! ## Lost runs and the runs that follow them -/

/-- The lost run and the new one, when a step makes a row with `create_lost_requeue`. -/
def requeuedPair (m : State) (a : Action) : Option (String × String) :=
  match lostRequeue m a with
  | some (.createLostRequeue newId id worker now) =>
    if 0 < changed m.db (.createLostRequeue newId id worker now) then some (id, newId) else none
  | _ => none

/-- The manager, with the record of all it has requeued. -/
structure Requeuing where
  manager : State
  requeued : List (String × String)
deriving DecidableEq, Repr

namespace Requeuing

def init (jobs : List JobSpec) : Requeuing := ⟨.init jobs, []⟩

def db (s : Requeuing) : Tables := s.manager.db

def step (scaleDelay : ℕ → F64 → ℕ → ℕ) (s : Requeuing) (a : Action) : Option Requeuing :=
  (Manager.step scaleDelay s.manager a).map fun m =>
    ⟨m, (requeuedPair s.manager a).toList ++ s.requeued⟩

end Requeuing

/-! ## Who is about to requeue a run -/

def Handler.owes (id : String) (h : Handler) : Bool := h.willRequeue && decide (h.body.runId = id)

def Reaper.owes (id : String) : Reaper → ℕ
  | .lost _ run _ => if run.id = id then 1 else 0
  | _ => 0

def State.owes (m : State) (id : String) : ℕ :=
  m.handlers.countP (Handler.owes id) + m.reaper.owes id

section
variable {scaleDelay : ℕ → F64 → ℕ → ℕ} {m m' : State} {a : Action}

theorem owes_setPhase {i : ℕ} {h : Handler} (phase : Phase) (hh : m.handlers[i]? = some h)
    (id : String) :
    (m.setPhase i h phase).owes id + (if h.owes id then 1 else 0) =
      m.owes id + (if Handler.owes id { h with phase } then 1 else 0) := by
  have hset := countP_set_add (p := Handler.owes id) { h with phase } hh
  simp only [State.owes, State.setPhase]
  omega

/-- A request that goes on owing no more than before. -/
theorem owes_setPhase_le {i : ℕ} {h : Handler} {phase : Phase} (hh : m.handlers[i]? = some h)
    (hp : ({ h with phase } : Handler).willRequeue → h.willRequeue) (id : String) :
    (m.setPhase i h phase).owes id ≤ m.owes id := by
  have hset := owes_setPhase phase hh id
  have himp : Handler.owes id { h with phase } → h.owes id := by
    simp only [Handler.owes, Bool.and_eq_true]
    exact And.imp_left hp
  split at hset <;> split at hset
  · omega
  · omega
  · rename_i hn hy
    exact absurd (himp hy) hn
  · omega

/-- Only who has just declared an active run lost comes to owe a requeue of it. -/
theorem Moves.owes (inv : Inv m) (h : Moves scaleDelay m a m') :
    (∀ id, m'.owes id ≤ m.owes id) ∨
      ∃ id₀ r, m.db.run id₀ = some r ∧ r.status.isActive ∧
        RowHas m' id₀ (fun r => r.status = .lost) ∧
        ∀ id, m'.owes id ≤ m.owes id + if id = id₀ then 1 else 0 := by
  have hmoves := h
  cases h with
  | request body =>
    left
    intro id
    simp [State.owes, Handler.owes, Handler.willRequeue]
  | update hh hp hu hc =>
    rename_i i now h run v u
    by_cases hw : ({ h with phase := .won run v } : Handler).willRequeue
    · right
      simp only [Handler.willRequeue, decide_eq_true_eq] at hw
      obtain ⟨c, rfl, hlost⟩ := Verdict.lost_mem_counters hw
      cases hu
      obtain ⟨r, hr, hact, -⟩ := changed_activeTarget inv.valid rfl hc
      refine ⟨h.body.runId, r, hr, hact, rowHas_lost_of_changed inv hmoves rfl rfl (fun r => ?_) hc,
        fun id => ?_⟩
      · change toDb c.status = _
        rw [hlost]
        rfl
      · have hset := owes_setPhase (.won run (.finish c)) hh id
        simp only [Handler.owes, Handler.willRequeue, hp, hw, decide_true, Bool.true_and,
          Bool.false_and, Bool.false_eq_true, if_false, decide_eq_true_eq] at hset
        simp only [eq_comm (a := id)]
        exact Nat.le_of_eq hset
    · exact Or.inl (owes_setPhase_le hh fun h => absurd h hw)
  | reapNext ht =>
    rename_i now run expired
    by_cases hc : 0 < changed m.db (.updateRun (.expireRun run.id now))
    · right
      obtain ⟨r, hr, hact, -⟩ := changed_activeTarget inv.valid rfl hc
      refine ⟨run.id, r, hr, hact, rowHas_lost_of_changed inv hmoves rfl rfl (fun r => rfl) hc,
        fun id => ?_⟩
      simp only [State.owes, ht, hc, if_true, Reaper.owes, eq_comm (a := id)]
      omega
    · left
      intro id
      simp only [State.owes, ht, hc, if_false, Reaper.owes]
      omega
  | project hh hp => exact Or.inl (owes_setPhase_le hh (by simp [Handler.willRequeue, hp]))
  | count hh hp =>
    rename_i i h run v
    refine Or.inl (owes_setPhase_le hh ?_)
    by_cases hl : .lost ∈ v.counters h.body
    · simp [Handler.willRequeue, hp, hl]
    · simp [Handler.willRequeue, hl]
  | load hh hp hr => exact Or.inl (owes_setPhase_le hh (by simp [Handler.willRequeue]))
  | decide hh hp hv => exact Or.inl (owes_setPhase_le hh (by simp [Handler.willRequeue]))
  | requeue hh hp hid => exact Or.inl (owes_setPhase_le hh (by simp [Handler.willRequeue]))
  | log hh hp => exact Or.inl (owes_setPhase_le hh (by simp [Handler.willRequeue]))
  | answer a code hh => exact Or.inl (owes_setPhase_le hh (by simp [Handler.willRequeue]))
  | reapList ht | reapEnd ht | reapRequeue ht hj hid =>
    left
    intro id
    simp only [State.owes, Reaper.owes]
    omega
  | reapSkip a ht =>
    left
    intro id
    simp only [State.owes, Reaper.owes]
    omega
  | _ => exact Or.inl fun id => le_rfl

/-- The step that requeues a lost run pays for it. -/
theorem owes_of_requeuedPair (h : step scaleDelay m a = some m') {src new : String}
    (hp : requeuedPair m a = some (src, new)) :
    new ∉ m.runIds ∧ (∃ worker now, m'.db = after m.db (.createLostRequeue new src worker now) ∧
      0 < changed m.db (.createLostRequeue new src worker now)) ∧
      ∀ id, m'.owes id + (if id = src then 1 else 0) ≤ m.owes id := by
  simp only [requeuedPair] at hp
  cases a with
  | requeue i newId worker now =>
    simp only [step, Action.slot, Option.bind_some, lostRequeue] at h hp
    obtain ⟨x, hx, h⟩ := Option.bind_eq_some_iff.mp h
    simp only [hx] at hp
    obtain ⟨body, phase⟩ := x
    cases phase with
    | requeue run =>
      simp only [Option.ite_none_right_eq_some, Option.some.injEq, Prod.mk.injEq] at hp
      obtain ⟨hc, rfl, rfl⟩ := hp
      simp only [completeStep, Option.ite_none_left_eq_some, Option.some.injEq] at h
      obtain ⟨hid, rfl⟩ := h
      refine ⟨hid, ⟨worker, now, rfl, hc⟩, fun id => ?_⟩
      have hset := owes_setPhase (.logging run) hx id
      simp only [Handler.owes, Handler.willRequeue, Bool.true_and, Bool.false_and,
        decide_eq_true_eq, Bool.false_eq_true, if_false, Nat.add_zero] at hset
      simp only [eq_comm (a := id)]
      exact Nat.le_of_eq hset
    | _ => cases hp
  | reapRequeue newId worker now =>
    simp only [step, reapStep, lostRequeue] at h hp
    cases hr : m.reaper with
    | lost at_ run expired =>
      simp only [hr] at h hp
      by_cases hj : (m.job run.jobId).any fun j => decide (j.onWorkerLost = .retry)
      · simp only [hj, if_true, Option.ite_none_right_eq_some, Option.some.injEq,
          Prod.mk.injEq] at hp
        obtain ⟨hc, rfl, rfl⟩ := hp
        simp only [hj, if_true, Option.ite_none_left_eq_some, Option.some.injEq] at h
        obtain ⟨hid, rfl⟩ := h
        refine ⟨hid, ⟨worker, now, rfl, hc⟩, fun id => ?_⟩
        simp only [State.owes, hr, Reaper.owes, eq_comm (a := id)]
        omega
      · simp [hj] at hp
    | _ => simp [hr] at hp
  | _ => cases hp

end

/-! ## The new row -/

/-- What `create_lost_requeue` has found, and the row it has made of it. -/
theorem createLostRequeue_changed {t : Tables} {newId id : String} {worker : Option String}
    {now : Time} (hn : t.run newId = none)
    (hc : 0 < changed t (.createLostRequeue newId id worker now)) :
    ∃ run r, t.run id = some run ∧ run.status = .lost ∧ noInflight t run.jobId ∧
      (after t (.createLostRequeue newId id worker now)).run newId = some r ∧
      r.status = .queued ∧ r.jobId = run.jobId ∧ r.configGeneration = run.configGeneration ∧
      r.lostCount = run.lostCount + 1 ∧ r.retryCount = 0 := by
  have hlast (r : RunRow) (hid : r.id = newId) :
      lookup RunRow.id newId (t.jobRuns ++ [r]) = some r := by
    rw [lookup_append, show lookup RunRow.id newId t.jobRuns = none from hn]
    simp [lookup, hid]
  obtain ⟨he, hch, -⟩ | ⟨-, hch⟩ := after_eq t (.createLostRequeue newId id worker now)
  · rw [hch] at hc
    rw [he]
    simp only [Stmt.effect, createLostRequeue] at hc ⊢
    split at hc
    · cases hc
    · rename_i run hrun
      split at hc
      · rename_i hg
        simp only [hrun, if_pos hg]
        exact ⟨run, _, rfl, hg.1, hg.2, hlast _ rfl, rfl, rfl, rfl, rfl, rfl⟩
      · cases hc
  · omega

/-! ## Whole runs -/

structure RequeuedOnce (s : Requeuing) : Prop where
  inv : Inv s.manager
  once : ∀ id, (s.requeued.map Prod.fst).count id + s.manager.owes id ≤ 1
  lost : ∀ id, 0 < (s.requeued.map Prod.fst).count id + s.manager.owes id →
    RowHas s.manager id fun r => r.status = .lost

theorem requeuedOnce_init (jobs : List JobSpec) : RequeuedOnce (Requeuing.init jobs) where
  inv := inv_init jobs
  once id := by simp [Requeuing.init, State.owes, State.init, Reaper.owes]
  lost id h := by simp [Requeuing.init, State.owes, State.init, Reaper.owes] at h

theorem requeuedOnce_step {scaleDelay : ℕ → F64 → ℕ → ℕ} {s s' : Requeuing} {a : Action}
    (h : RequeuedOnce s) (hs : s.step scaleDelay a = some s') : RequeuedOnce s' := by
  obtain ⟨m, hm, rfl⟩ := Option.map_eq_some_iff.mp hs
  have hmoves := step_moves hm
  have hinv := h.inv.moves hmoves
  cases hpair : requeuedPair s.manager a with
  | some p =>
    obtain ⟨src, new⟩ := p
    obtain ⟨-, -, howes⟩ := owes_of_requeuedPair hm hpair
    -- what the requeue adds to the record it takes from what is owed
    have hsum (id : String) : (((src, new) :: s.requeued).map Prod.fst).count id + m.owes id ≤
        (s.requeued.map Prod.fst).count id + s.manager.owes id := by
      have hle := howes id
      simp only [List.map_cons, List.count_cons, beq_iff_eq, eq_comm (a := src)]
      omega
    exact ⟨hinv, fun id => (hsum id).trans (h.once id),
      fun id hpos => lost_step h.inv hmoves (h.lost id (hpos.trans_le (hsum id)))⟩
  | none =>
    obtain hle | ⟨id₀, r, hr, hact, hlost, hle⟩ := hmoves.owes h.inv
    · have hsum (id : String) := Nat.add_le_add_left (hle id) ((s.requeued.map Prod.fst).count id)
      exact ⟨hinv, fun id => (hsum id).trans (h.once id),
        fun id hpos => lost_step h.inv hmoves (h.lost id (hpos.trans_le (hsum id)))⟩
    · -- the run was active, so nobody has declared it lost before
      have hzero : (s.requeued.map Prod.fst).count id₀ + s.manager.owes id₀ = 0 := by
        by_contra hne
        have hstatus := (h.lost id₀ (Nat.pos_of_ne_zero hne)).row r hr
        rw [hstatus] at hact
        cases hact
      refine ⟨hinv, fun id => ?_, fun id hpos => ?_⟩
      · have := hle id
        have := h.once id
        simp only [Option.toList_none, List.nil_append]
        by_cases hid : id = id₀
        · subst hid
          simp only [if_true] at *
          omega
        · simp only [hid, if_false] at *
          omega
      · by_cases hid : id = id₀
        · rw [hid]
          exact hlost
        · refine lost_step h.inv hmoves (h.lost id ?_)
          have := hle id
          simp only [hid, if_false, Option.toList_none, List.nil_append] at *
          omega

/-- Along every run of the manager, for any requests and any order of its parts: a lost run is
requeued at most once, into a queued row of the same job and configuration that carries on the
count of losses, and only while no run of the job is in flight. -/
theorem lost_requeued_once (scaleDelay : ℕ → F64 → ℕ → ℕ) (jobs : List JobSpec)
    (as : List Action) (s : Requeuing)
    (h : Runs.exec (Requeuing.step scaleDelay) (Requeuing.init jobs) as = some s) :
    (s.requeued.map Prod.fst).Nodup ∧
    ∀ pre a post t u src new, as = pre ++ a :: post →
      Runs.exec (Requeuing.step scaleDelay) (Requeuing.init jobs) pre = some t →
      t.step scaleDelay a = some u → requeuedPair t.manager a = some (src, new) →
      ∃ run r, t.db.run src = some run ∧ run.status = .lost ∧ u.db.run new = some r ∧
        r.status = .queued ∧ r.jobId = run.jobId ∧
        r.configGeneration = run.configGeneration ∧ r.lostCount = run.lostCount + 1 ∧
        r.retryCount = 0 ∧
        ∀ x ∈ t.db.jobRuns, x.jobId = run.jobId → ¬x.status.isInflight := by
  have hrun {bs : List Action} {t : Requeuing}
      (ht : Runs.exec (Requeuing.step scaleDelay) (Requeuing.init jobs) bs = some t) :
      RequeuedOnce t :=
    Runs.exec_invariant (Requeuing.step scaleDelay) RequeuedOnce
      (fun _ _ _ hi hs => requeuedOnce_step hi hs) (requeuedOnce_init jobs) ht
  refine ⟨?_, ?_⟩
  · rw [List.nodup_iff_count_le_one]
    intro id
    exact (Nat.le_add_right _ _).trans ((hrun h).once id)
  · intro pre a post t u src new _ hpre hstep hpair
    obtain ⟨m, hm, rfl⟩ := Option.map_eq_some_iff.mp hstep
    have hinv := (hrun hpre).inv
    obtain ⟨hid, ⟨worker, now, hdb, hc⟩, -⟩ := owes_of_requeuedPair hm hpair
    obtain ⟨run, r, hr, hlost, hfree, hnew, hrow⟩ :=
      createLostRequeue_changed (hinv.run_none hid) hc
    refine ⟨run, r, hr, hlost, (congrArg (fun t : Tables => t.run new) hdb).trans hnew, hrow.1,
      hrow.2.1, hrow.2.2.1, hrow.2.2.2.1, hrow.2.2.2.2, fun x hx hj => ?_⟩
    exact (noInflight_iff hinv.valid).mp hfree x.id x (hinv.valid.run_of_mem hx) hj

/-- The lease of the run `r` expires while its worker reports it lost: the reaper wins and requeues
it, the report comes too late. -/
def lostTwice : List Action := claimed ++
  [.request (report "lost" "t" 0 1), .load 0, .decide 0 150, .reapList 500, .reapNext,
    .update 0 500, .reapRequeue "r₂" none 500, .reapNext,
    .statement (.updateRun (.claimRun "r₂" "w" "t₂" 510)), .reapList 900, .reapNext,
    .reapRequeue "r₃" none 900]

theorem lost_requeued_once_lostTwice :
    ∃ s, Runs.exec (Requeuing.step fun d _ _ => d) (Requeuing.init [flaky]) lostTwice = some s ∧
      s.requeued = [("r₂", "r₃"), ("r", "r₂")] ∧ (s.requeued.map Prod.fst).Nodup := by
  have hrun : (Runs.exec (Requeuing.step fun d _ _ => d) (Requeuing.init [flaky]) lostTwice).any
      (fun s => decide (s.requeued = [("r₂", "r₃"), ("r", "r₂")])) := by decide +kernel
  obtain ⟨s, hs, hpairs⟩ := (Option.any_eq_true _ _).mp hrun
  exact ⟨s, hs, of_decide_eq_true hpairs,
    (lost_requeued_once (fun d _ _ => d) [flaky] lostTwice s hs).1⟩

end Synora.Manager
