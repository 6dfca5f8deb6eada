import Synora.Db.SingleActive
import Synora.Manager.AtMostOnce

namespace Synora.Manager
open Core Db Table Engine

variable {scaleDelay : ℕ → F64 → ℕ → ℕ} {s s' : State} {a : Action}

/-- The `create_lost_requeue` a step issues. -/
def lostRequeue (s : State) : Action → Option Stmt
  | .requeue i newId worker now =>
    match s.handlers[i]? with
    | some ⟨body, .requeue _⟩ => some (.createLostRequeue newId body.runId worker now)
    | _ => none
  | .reapRequeue newId worker now =>
    match s.reaper with
    | .lost _ run _ =>
      if (s.job run.jobId).any fun j => decide (j.onWorkerLost = .retry) then
        some (.createLostRequeue newId run.id worker now)
      else none
    | _ => none
  | _ => none

/-- The stop of the run `id` is respected in this state: it is still being cancelled or has
ended, no worker can claim it, and no step creates a run in its place. -/
structure Stopped (s : State) (id : String) : Prop where
  status : ∀ r, s.db.run id = some r → r.status = .cancelling ∨ r.status.isTerminal
  claim : ∀ worker token now, ¬Claims s.db id worker token now
  requeue : ∀ a newId worker now,
    lostRequeue s a = some (.createLostRequeue newId id worker now) →
      changed s.db (.createLostRequeue newId id worker now) = 0

def stop (job : String) : Action := .statement (.updateRun (.setCancellingByJob job))

/-- Every run that a stop request has moved to `CANCELLING` stays stopped. -/
def StopFinal (scaleDelay : ℕ → F64 → ℕ → ℕ) (jobs : List JobSpec) (as : List Action) : Prop :=
  ∀ pre job mid post t t' u id r r', as = pre ++ stop job :: (mid ++ post) →
    Runs.exec (step scaleDelay) (State.init jobs) pre = some t →
    step scaleDelay t (stop job) = some t' →
    t.db.run id = some r → r.status.isExecuting →
    t'.db.run id = some r' → r'.status = .cancelling →
    Runs.exec (step scaleDelay) t' mid = some u → Stopped u id

/-- The verdicts that hand the work of a run on, to a later attempt or to a new run. -/
def Verdict.resumes : Verdict → Bool
  | .answer _ => false
  | .finish c => decide (c.status = .lost)
  | .retry _ _ => true

def State.retriesLost (s : State) (job : String) : Bool :=
  (s.job job).any fun j => decide (j.onWorkerLost = .retry)

/-- No row that is being cancelled is handed on: neither by a failed report with retries left
or a `lost` report, nor by the expiry of its lease when its job retries lost runs. -/
def RespectsStop (s : State) : Action → Prop
  | .update i now => ∀ h run v u r, s.handlers[i]? = some h → h.phase = .decided run v →
      v.update h.body run now = some u → s.db.run h.body.runId = some r →
      r.status = .cancelling → 0 < changed s.db (.updateRun u) → v.resumes = false
  | .reapNext => ∀ now run expired r, s.reaper = .loop now (run :: expired) →
      s.db.run run.id = some r → r.status = .cancelling →
      0 < changed s.db (.updateRun (.expireRun run.id now)) → s.retriesLost run.jobId = false
  | _ => True

/-! ## Runs that are about to be requeued as lost -/

/-- A request that will requeue its run. -/
def Handler.willRequeue (h : Handler) : Bool :=
  match h.phase with
  | .won _ v | .applied _ v => decide (.lost ∈ v.counters h.body)
  | .requeue _ => true
  | _ => false

theorem Verdict.lost_mem_counters {body : CompleteRequest} {v : Verdict}
    (h : .lost ∈ v.counters body) : ∃ c, v = .finish c ∧ c.status = .lost := by
  cases v with
  | answer code => cases h
  | retry nextRetryAt count => simp [counters] at h
  | finish c =>
    refine ⟨c, rfl, ?_⟩
    simp only [counters] at h
    split at h
    · assumption
    · split at h <;> simp at h
    · split at h <;> simp at h
    · simp at h
    · cases h

/-- A request that will requeue its run was going to before, or has just won it as lost. -/
theorem Moves.willRequeue (h : Moves scaleDelay s a s') {x : Handler} (hx : x ∈ s'.handlers)
    (hw : x.willRequeue) :
    (∃ y ∈ s.handlers, y.body = x.body ∧ y.willRequeue) ∨
    ∃ i now y run c u, a = .update i now ∧ s.handlers[i]? = some y ∧ y.body = x.body ∧
      y.phase = .decided run (.finish c) ∧ c.status = .lost ∧
      u = .finishActiveRunFenced y.body.runId run.retryCount c
        (some (y.body.workerId, y.body.leaseToken)) now ∧
      0 < changed s.db (.updateRun u) ∧ s'.db = after s.db (.updateRun u) := by
  cases h with
  | request body =>
    rcases List.mem_append.mp hx with hx | hx
    · exact Or.inl ⟨x, hx, rfl, hw⟩
    · rw [List.mem_singleton.mp hx] at hw
      cases hw
  | update hh hp hu hc =>
    rcases mem_setPhase hx with hx | rfl
    · exact Or.inl ⟨x, hx, rfl, hw⟩
    · simp only [Handler.willRequeue, decide_eq_true_eq] at hw
      obtain ⟨c, rfl, hc'⟩ := Verdict.lost_mem_counters hw
      cases hu
      exact Or.inr ⟨_, _, _, _, c, _, rfl, hh, rfl, hp, hc', rfl, hc, rfl⟩
  | project hh hp =>
    rcases mem_setPhase hx with hx | rfl
    · exact Or.inl ⟨x, hx, rfl, hw⟩
    · exact Or.inl ⟨_, List.mem_of_getElem? hh, rfl, by simpa [Handler.willRequeue, hp] using hw⟩
  | count hh hp =>
    rcases mem_setPhase hx with hx | rfl
    · exact Or.inl ⟨x, hx, rfl, hw⟩
    · refine Or.inl ⟨_, List.mem_of_getElem? hh, rfl, ?_⟩
      simp only [Handler.willRequeue, hp, decide_eq_true_eq]
      by_contra hn
      rw [if_neg hn] at hw
      cases hw
  | load hh hp hr | decide hh hp hv | requeue hh hp hid | log hh hp | answer a code hh =>
    rcases mem_setPhase hx with hx | rfl
    · exact Or.inl ⟨x, hx, rfl, hw⟩
    · cases hw
  | _ => exact Or.inl ⟨x, hx, rfl, hw⟩

/-- The run the reaper has just declared lost was so before, or its expiry is this step; the
configuration stands still meanwhile. -/
theorem Moves.reaperLost (h : Moves scaleDelay s a s') {now : Time} {run : RunRow}
    {expired : List RunRow} (hr : s'.reaper = .lost now run expired) :
    s'.jobs = s.jobs ∧ (s.reaper = .lost now run expired ∨
      (a = .reapNext ∧ s.reaper = .loop now (run :: expired) ∧
        0 < changed s.db (.updateRun (.expireRun run.id now)) ∧
        s'.db = after s.db (.updateRun (.expireRun run.id now)))) := by
  cases h with
  | reload jobs ht hr' =>
    rw [hr'] at hr
    cases hr
  | reapNext ht =>
    refine ⟨rfl, Or.inr ?_⟩
    simp only at hr
    split at hr
    · rename_i hc
      cases hr
      exact ⟨rfl, ht, hc, rfl⟩
    · cases hr
  | reapList ht => cases hr
  | reapEnd ht => cases hr
  | reapRequeue ht hj hid => cases hr
  | reapSkip a ht => cases hr
  | _ => exact ⟨rfl, Or.inl hr⟩

/-- What is about to be requeued has been marked lost. -/
structure LostRows (s : State) : Prop where
  handlers : ∀ h ∈ s.handlers, h.willRequeue → RowHas s h.body.runId fun r => r.status = .lost
  reaper : ∀ now run expired, s.reaper = .lost now run expired →
    RowHas s run.id fun r => r.status = .lost

theorem lost_step (inv : Inv s) (h : Moves scaleDelay s a s') {id : String}
    (hl : RowHas s id fun r => r.status = .lost) : RowHas s' id fun r => r.status = .lost := by
  refine hl.step inv h ?_
  intro q r r' _ _ hs hm
  exact (hm.of_terminal (by rw [hs]; rfl)).1.trans hs

theorem lostRows_init (jobs : List JobSpec) : LostRows (State.init jobs) :=
  ⟨fun h hh => (by cases hh), fun now run expired hr => (by cases hr)⟩

/-- An update that has ended its row as lost leaves it so. -/
theorem rowHas_lost_of_changed (inv : Inv s) {u : RunStmt} {id : String}
    (h : Moves scaleDelay s a s') (hdb : s'.db = after s.db (.updateRun u))
    (hu : u.activeTarget = some id) (hw : ∀ r, (u.update.write r).status = .lost)
    (hc : 0 < changed s.db (.updateRun u)) : RowHas s' id fun r => r.status = .lost := by
  obtain ⟨r, hr, -, hafter⟩ := changed_activeTarget inv.valid hu hc
  refine ⟨h.runIds (inv.issued id r hr), ?_⟩
  intro r' hr'
  rw [hdb, hafter, Option.some.injEq] at hr'
  rw [← hr']
  exact hw r

theorem lostRows_step (inv : Inv s) (hl : LostRows s) (h : Moves scaleDelay s a s') :
    LostRows s' := by
  constructor
  · intro x hx hw
    obtain ⟨y, hy, hbody, hyw⟩ | ⟨i, now, y, run, c, u, -, -, hbody, -, hc, rfl, hch, hdb⟩ :=
      h.willRequeue hx hw
    · rw [← hbody]
      exact lost_step inv h (hl.handlers y hy hyw)
    · rw [← hbody]
      refine rowHas_lost_of_changed inv h hdb rfl ?_ hch
      intro r
      change toDb c.status = _
      rw [hc]
      rfl
  · intro now run expired hr
    obtain ⟨-, hold | ⟨-, -, hch, hdb⟩⟩ := h.reaperLost hr
    · exact lost_step inv h (hl.reaper now run expired hold)
    · exact rowHas_lost_of_changed inv h hdb rfl (fun r => rfl) hch

/-! ## A stop that is respected -/

/-- What keeps a stopped run from coming back. -/
structure StopInv (id : String) (s : State) : Prop where
  row : RowHas s id fun r => r.status = .cancelling ∨ r.status.isTerminal
  handlers : ∀ h ∈ s.handlers, h.body.runId = id → h.willRequeue = false
  reaper : ∀ now run expired, s.reaper = .lost now run expired → run.id = id →
    s.retriesLost run.jobId = false

theorem StopInv.stopped {id : String} (inv : Inv s) (h : StopInv id s) : Stopped s id where
  status := h.row.row
  claim worker token now hc := by
    obtain ⟨r, hr, hq, -⟩ := hc.row inv.valid
    rcases h.row.row r hr with hs | hs
    · rw [hq] at hs
      cases hs
    · rw [hq] at hs
      cases hs
  requeue a newId worker now ha := by
    exfalso
    cases a with
    | requeue i nid w t =>
      simp only [lostRequeue] at ha
      split at ha
      · rename_i body run hh
        cases ha
        have hw := h.handlers _ (List.mem_of_getElem? hh) rfl
        cases hw
      · cases ha
    | reapRequeue nid w t =>
      simp only [lostRequeue] at ha
      split at ha
      · rename_i now' run expired hr
        simp only [Option.ite_none_right_eq_some, Option.some.injEq] at ha
        obtain ⟨hj, ha⟩ := ha
        cases ha
        have hn := h.reaper now' run expired hr rfl
        rw [State.retriesLost, hj] at hn
        cases hn
      · cases ha
    | _ => cases ha

/-- A row with a stopped run's status that an update still matches is being cancelled. -/
theorem StopInv.cancelling {id : String} (h : StopInv id s) {r : RunRow}
    (hr : s.db.run id = some r) (ha : r.status.isActive) : r.status = .cancelling := by
  rcases h.row.row r hr with hs | hs
  · exact hs
  · rw [DbStatus.not_active_of_terminal hs] at ha
    cases ha

theorem stopInv_row_step {id : String} (inv : Inv s) (hs : StopInv id s)
    (hc : RespectsStop s a) (h : Moves scaleDelay s a s') :
    RowHas s' id fun r => r.status = .cancelling ∨ r.status.isTerminal := by
  refine hs.row.step inv h ?_
  intro q r r' hq hid hr hm
  rcases hr with hr | hr
  · cases hm with
    | stay hs' hn => exact Or.inl (hs'.trans hr)
    | withdraw hs₀ hs' hn => exact Or.inr (by rw [hs']; rfl)
    | finish hs₀ hs' hn => exact Or.inr hs'
    | stop hs₀ hs' hn => exact Or.inl hs'
    | retry expected nextRetryAt count fence now hq' hs₀ hs' hn =>
      -- Only a failed report with retries left does this, and it matched the stopped row.
      subst hq'
      generalize hrid : r.id = rid at hq
      cases hq with
      | free hf => cases hf
      | complete ha hh hp hu hch =>
        rename_i i y run v now'
        subst ha
        cases v with
        | answer code => cases hu
        | finish c => cases hu
        | retry next cnt =>
          obtain ⟨x, hx, hact, -⟩ := changed_activeTarget inv.valid rfl hch
          have hids : y.body.runId = rid := by cases hu; rfl
          have hcan := hs.cancelling (by rw [← hid, hrid]; exact hx) hact
          have := hc y run _ _ x hh hp hu (by rw [hids]; exact hx) hcan hch
          cases this
    | claim hs₀ hs' hn => simp [hr] at hs₀
    | start hs₀ hs' hn => simp [hr] at hs₀
    | requeue count now hq hs₀ hs' hn => simp [hr] at hs₀
  · exact Or.inr (by rw [(hm.of_terminal hr).1]; exact hr)

theorem stopInv_step {id : String} (inv : Inv s) (hs : StopInv id s) (hc : RespectsStop s a)
    (h : Moves scaleDelay s a s') : StopInv id s' := by
  refine ⟨stopInv_row_step inv hs hc h, ?_, ?_⟩
  · intro x hx hid
    by_contra hw
    rw [Bool.not_eq_false] at hw
    obtain ⟨y, hy, hbody, hyw⟩ | ⟨i, now, y, run, c, u, rfl, hh, hbody, hp, hlost, hu, hch, -⟩ :=
      h.willRequeue hx hw
    · rw [hs.handlers y hy (by rw [hbody]; exact hid)] at hyw
      cases hyw
    · -- The request has ended a row that was being cancelled as lost.
      subst hu
      obtain ⟨r, hr, hact, -⟩ := changed_activeTarget inv.valid rfl hch
      have hcan := hs.cancelling (by rw [← hid, ← hbody]; exact hr) hact
      have hres := hc y run _ _ r hh hp rfl hr hcan hch
      simp [Verdict.resumes, hlost] at hres
  · intro now run expired hr hid
    obtain ⟨hjobs, hold | ⟨rfl, hloop, hch, -⟩⟩ := h.reaperLost hr
    · have hn := hs.reaper now run expired hold hid
      rw [State.retriesLost, State.job] at hn ⊢
      rw [hjobs]
      exact hn
    · obtain ⟨r, hr, hact, -⟩ := changed_activeTarget inv.valid rfl hch
      have hcan := hs.cancelling (by rw [← hid]; exact hr) hact
      have hn := hc now run expired r hloop hr hcan hch
      rw [State.retriesLost, State.job] at hn ⊢
      rw [hjobs]
      exact hn

/-- The stop request itself: nothing is about to requeue a run that is still executing. -/
theorem stopInv_stop {id job : String} {r r' : RunRow} (inv : Inv s) (hl : LostRows s)
    (h : step scaleDelay s (stop job) = some s') (hr : s.db.run id = some r)
    (he : r.status.isExecuting) (hr' : s'.db.run id = some r') (hs' : r'.status = .cancelling) :
    StopInv id s' := by
  have hnot : ¬RowHas s id fun r => r.status = .lost := by
    intro hrow
    rw [hrow.row r hr] at he
    cases he
  simp only [step, stop, free, if_true, Option.some.injEq] at h
  subst h
  refine ⟨⟨inv.issued id r hr, ?_⟩, ?_, ?_⟩
  · intro x hx
    rw [hr', Option.some.injEq] at hx
    exact Or.inl (hx ▸ hs')
  · intro x hx hid
    by_contra hw
    rw [Bool.not_eq_false] at hw
    exact hnot (hid ▸ hl.handlers x hx hw)
  · intro now run expired hlost hid
    exact absurd (hid ▸ hl.reaper now run expired hlost) hnot

/-- A stop is final in every run whose steps respect it. -/
theorem stop_final_of_respected (scaleDelay : ℕ → F64 → ℕ → ℕ) (jobs : List JobSpec)
    (as : List Action)
    (hc : Runs.Along (step scaleDelay) RespectsStop (State.init jobs) as) :
    StopFinal scaleDelay jobs as := by
  intro pre job mid post t t' u id r r' has hpre hstop hr he hr' hs' hmid
  have hpreInv : Inv t ∧ LostRows t :=
    Runs.exec_invariant (step scaleDelay) (fun x => Inv x ∧ LostRows x)
      (fun _ _ _ hi hs => ⟨inv_step hi.1 hs, lostRows_step hi.1 hi.2 (step_moves hs)⟩)
      ⟨inv_init jobs, lostRows_init jobs⟩ hpre
  have hinv' := inv_step hpreInv.1 hstop
  have hstopped := stopInv_stop hpreInv.1 hpreInv.2 hstop hr he hr' hs'
  have hcmid : Runs.Along (step scaleDelay) RespectsStop t' mid := by
    have hafter := ((Runs.along_append (step scaleDelay)).mp (has ▸ hc)).2 t hpre
    exact ((Runs.along_append (step scaleDelay)).mp (hafter.2 t' hstop)).1
  have hu : Inv u ∧ StopInv id u :=
    Runs.exec_invariant_along (step scaleDelay) RespectsStop (fun x => Inv x ∧ StopInv id x)
      (fun _ _ _ hcs hi hs => ⟨inv_step hi.1 hs, stopInv_step hi.1 hi.2 hcs (step_moves hs)⟩)
      ⟨hinv', hstopped⟩ hcmid hmid
  exact hu.2.stopped hu.1

/-- The stopped run of `claimed` reports that it was cancelled. -/
def cancelledReport : List Action :=
  [.request (report "cancelled" "t" 0 0), .load 0, .decide 0 110, .update 0 110]

theorem cancelledReport_respects :
    Runs.Along (step fun d _ _ => d) RespectsStop (State.init [flaky])
      (claimed ++ stop "j" :: (cancelledReport ++ [])) := by
  change Runs.Along _ _ _ ((claimed ++ [stop "j", .request (report "cancelled" "t" 0 0), .load 0,
    .decide 0 110]) ++ [.update 0 110])
  rw [Runs.along_append]
  refine ⟨Runs.along_of_forall _ (by simp [claimed, stop, RespectsStop]) _, fun t ht => ⟨?_, ?_⟩⟩
  · -- The only update of the trace ends the row as `CANCELLED`.
    intro h run v u r hh hp hu hr hs hc
    have hslot : some t.handlers[0]? = some (some _) := (congrArg (·.map (·.handlers[0]?)) ht).symm
    rw [hh] at hslot
    cases hslot
    cases hp
    rfl
  · exact fun _ _ => trivial

theorem stop_final_of_cancelledReport :
    StopFinal (fun d _ _ => d) [flaky] (claimed ++ stop "j" :: (cancelledReport ++ [])) :=
  stop_final_of_respected _ _ _ cancelledReport_respects

/-- The stopped run of `claimed` is reported failed, and the tick queues it again. -/
def failedReport : List Action :=
  [.request (report "failed" "t" 0 1), .load 0, .decide 0 110, .update 0 110, .project 0,
    .tickList 170, .tickNext false, .tickRequeue]

theorem stop_not_final : ¬StopFinal (fun d _ _ => d) [flaky]
    (claimed ++ stop "j" :: (failedReport ++ [])) := by
  intro h
  have hs := h claimed "j" failedReport [] _ _ _ "r" _ _ rfl rfl rfl rfl rfl rfl rfl rfl
  have hq := hs.status _ rfl
  exact absurd hq (by decide)

end Synora.Manager
