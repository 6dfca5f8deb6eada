import Synora.Lib.Slots
import Synora.Manager.Dispatching

namespace Synora.Manager
open Core Db Engine

/-! ## The hold after a worker loss -/

namespace Dispatching

/-- The run that the reaper marks `LOST` in this step. -/
def loses (s : Dispatching) : Move → Option RunRow
  | .manager .reapNext =>
    match s.manager.reaper with
    | .loop now (run :: _) =>
      if 0 < changed s.db (.updateRun (.expireRun run.id now)) then some run else none
    | _ => none
  | _ => none

/-- The job of which a dispatch, forced or not, queues a run in this step. -/
def queues (s : Dispatching) (forced : Bool) : Move → Option String
  | .create i id worker now => s.dispatchers[i]?.bind fun d =>
    if d.forced = forced ∧ d.phase = .checked ∧ 0 < changed s.db
        (.createRun id d.name worker .queued (if d.forced then 1 else 0) now) then some d.name
    else none
  | _ => none

/-- The job of which a forced dispatch succeeds in this step: it queues a run, it finds one in
flight, or it skips one. -/
def recovers (s : Dispatching) : Move → Option String
  | .skip i _ _ => s.dispatchers[i]?.bind fun d => if d.forced then some d.name else none
  | .checkInflight i queryFailed => s.dispatchers[i]?.bind fun d =>
    if d.forced ∧ queryFailed = false ∧ inflightRunsOfJob s.db d.name ≠ [] then some d.name
    else none
  | a => s.queues true a

/-- No purge of the job, and no safe stop that queues a run of it. -/
def spares (s : Dispatching) (job : String) : Move → Bool
  | .manager (.statement (.deleteRuns name)) => decide (name ≠ job)
  | .manager (.requeue i _ _ _) => s.manager.handlers[i]?.all fun h =>
    (s.db.run h.body.runId).all fun run => !(decide (run.jobId = job) && Db.noInflight s.db job)
  | _ => true

end Dispatching

/-- The manager, and whether the job that is watched is held: the reaper has marked a run of it
`LOST`, and no forced dispatch has succeeded since. -/
structure Watch where
  sys : Dispatching
  held : Bool

namespace Watch

def init (jobs : List JobSpec) : Watch := ⟨.init jobs, false⟩

variable (scaleDelay : ℕ → F64 → ℕ → ℕ) (job : String)

def step (w : Watch) (a : Move) : Option Watch :=
  (w.sys.step scaleDelay a).map fun s =>
    ⟨s, (w.held || (w.sys.loses a).any fun run => decide (run.jobId = job)) &&
      !decide (w.sys.recovers a = some job)⟩

/-- When the reaper marks a run of the job `LOST`, this run is the newest of the job (or the
newest is `LOST` too), and no unforced dispatch of the job has looked at the hold already. While
the job is held, it is not purged and no safe stop queues a run of it. -/
def KeepsHold (w : Watch) (a : Move) : Prop :=
  (∀ run ∈ w.sys.loses a, run.jobId = job →
    (∀ r ∈ (runHistory w.sys.db job 1).head?, r.id = run.id ∨ r.status = .lost) ∧
    ∀ d ∈ w.sys.dispatchers, d.name = job → d.forced = false → d.phase = .starting) ∧
  (w.held → w.sys.spares job a)

instance (w : Watch) (a : Move) : Decidable (KeepsHold job w a) :=
  inferInstanceAs (Decidable (_ ∧ _))

end Watch

/-- `on_worker_lost = fail`, whenever the job is configured. -/
def HoldsOnLoss (job : String) (jobs : List JobSpec) : Prop :=
  ∀ spec ∈ jobs, spec.name = job → spec.onWorkerLost = .fail

instance (job : String) (jobs : List JobSpec) : Decidable (HoldsOnLoss job jobs) :=
  inferInstanceAs (Decidable (∀ spec ∈ jobs, _))

/-! ## What keeps an unforced dispatch back -/

/-- The newest run of the job is `LOST` and no unforced dispatch is past its look at that. -/
structure Waits (s : Dispatching) (job : String) : Prop where
  lost : ∃ r, (runHistory s.db job 1).head? = some r ∧ r.status = .lost
  waiting : ∀ d ∈ s.dispatchers, d.name = job → d.forced = false → d.phase = .starting

structure Guarded (job : String) (w : Watch) : Prop where
  inv : Inv w.sys.manager
  known : KnownJobs w.sys.manager
  policy : HoldsOnLoss job w.sys.manager.jobs
  specs : ∀ d ∈ w.sys.dispatchers, d.name = job → d.spec.onWorkerLost = .fail
  waits : w.held → Waits w.sys job

section
variable {scaleDelay : ℕ → F64 → ℕ → ℕ} {job : String} {s s' : Dispatching} {w w' : Watch}
  {a : Move}

theorem guarded_init {jobs : List JobSpec} (h : HoldsOnLoss job jobs) :
    Guarded job (Watch.init jobs) where
  inv := inv_init jobs
  known := knownJobs_init jobs
  policy := h
  specs := by simp [Watch.init, Dispatching.init]
  waits := by simp [Watch.init]

theorem Waits.latest (h : Waits s job) :
    latestIs s.db job (fun status => decide (status = .lost)) = true := by
  obtain ⟨r, hr, hs⟩ := h.lost
  simp [latestIs, hr, hs, fromDb]

theorem Moves.jobs_eq {m m' : State} {b : Action} (h : Moves scaleDelay m b m') :
    m'.jobs = m.jobs ∨ b = .reload m'.jobs := by
  cases h with
  | reload jobs ht hr => exact Or.inr rfl
  | _ => exact Or.inl rfl

theorem State.job_eq_some {m : State} {name : String} {spec : JobSpec}
    (h : m.job name = some spec) : spec ∈ m.jobs ∧ spec.name = name := by
  have hname := List.find?_some h
  exact ⟨List.mem_of_find?_eq_some h, of_decide_eq_true hname⟩

/-- `LOST` stays `LOST`. -/
theorem Moves.newest_lost {m m' : State} {b : Action} (inv : Inv m) (h : Moves scaleDelay m b m')
    (hl : ∃ r, (runHistory m.db job 1).head? = some r ∧ r.status = .lost)
    (hnew : ∀ x, Creates m b x → x.jobId ≠ job) (hdel : b ≠ .statement (.deleteRuns job)) :
    ∃ r, (runHistory m'.db job 1).head? = some r ∧ r.status = .lost := by
  obtain ⟨r, hr, hs⟩ := hl
  obtain ⟨r', hr', hhead⟩ := h.newest inv hr hnew hdel
  have hrun := inv.valid.run_of_mem ((head_runHistory inv.valid).mp hr).1
  refine ⟨r', hhead, ?_⟩
  obtain ⟨r₀, hr₀, rfl | ⟨q, -, hmove⟩⟩ := h.row inv (inv.issued _ _ hrun) hr'
  · rwa [Option.some.inj (hr₀.symm.trans hrun)]
  · obtain rfl := Option.some.inj (hr₀.symm.trans hrun)
    rw [(hmove.of_terminal (by rw [hs]; rfl)).1, hs]

/-- The rest of the manager creates no run of a job that is held. -/
theorem Guarded.creates_ne (h : Guarded job w) {b : Action} (hal : w.sys.allowed b)
    (hs : w.sys.spares job (.manager b)) {x : RunRow} (hx : Creates w.sys.manager b x) :
    x.jobId ≠ job := by
  intro hjob
  cases hx with
  | dispatch ha => exact absurd ha (Dispatching.allowed_ne_dispatch hal _ _ _ _ _)
  | skip ha hsk =>
    subst ha
    cases hal
  | safeStop ha hh hp hr hn hj =>
    subst ha
    rw [hjob] at hn hj
    simp [Dispatching.spares, hh, Dispatching.db, hr, ← hj, hn] at hs
  | reaper ha ht hp hr hn hj =>
    -- the reaper queues again only where `on_worker_lost = retry`
    rename_i worker now at_ run src expired
    have hrow : run ∈ w.sys.manager.reaper.rows := by simp [ht, Reaper.rows]
    have hsrc := (h.known.reaper run hrow).row src hr
    obtain ⟨spec, hspec, hretry⟩ := (Option.any_eq_true _ _).mp hp
    obtain ⟨hmem, hname⟩ := State.job_eq_some hspec
    have hfail := h.policy spec hmem (by rw [hname, ← hsrc, ← hj, hjob])
    simp [hfail] at hretry

/-- While the job is held, its unforced dispatches wait. -/
theorem Guarded.waits_step (h : Guarded job w) (hheld : w.held) (hc : w.sys.spares job a)
    (hs : Dispatches scaleDelay w.sys a s') (hrec : w.sys.recovers a ≠ some job) :
    Waits s' job := by
  obtain ⟨hlost, hwait⟩ := h.waits hheld
  have hset {i : ℕ} {d : Dispatcher} {phase : DispatchPhase} (hd : w.sys.dispatchers[i]? = some d)
      (hp : d.name = job → d.forced = true) : Waits (w.sys.set i d phase) job := by
    refine ⟨hlost, fun x hx hname hf => ?_⟩
    rcases List.mem_or_eq_of_mem_set hx with hx | rfl
    · exact hwait x hx hname hf
    · exact absurd ((hp hname).symm.trans hf) (by simp)
  -- a dispatch that is past its look at the hold is an operator's
  have hpast {i : ℕ} {d : Dispatcher} (hd : w.sys.dispatchers[i]? = some d)
      (hp : d.phase ≠ .starting) (hname : d.name = job) : d.forced = true := by
    by_contra hf
    exact hp (hwait d (List.mem_of_getElem? hd) hname (by simpa using hf))
  have hleft (i : ℕ) : ∀ d ∈ (w.sys.leave i).dispatchers, d.name = job → d.forced = false →
      d.phase = .starting := fun d hd => hwait d (List.mem_of_mem_eraseIdx hd)
  cases hs with
  | manager hal hm =>
    refine ⟨hm.newest_lost h.inv hlost (fun x hx => h.creates_ne hal hc hx) ?_, hwait⟩
    rintro rfl
    simp [Dispatching.spares] at hc
  | start hj =>
    refine ⟨hlost, fun d hd hname hf => ?_⟩
    rcases List.mem_append.mp hd with hd | hd
    · exact hwait d hd hname hf
    · rw [List.mem_singleton.mp hd]
  | clear hd hp hold =>
    rename_i i queryFailed d
    refine hset hd fun hname => ?_
    by_contra hf
    have hfree := hold (by simpa using hf) (h.specs d (List.mem_of_getElem? hd) hname)
    rw [hname, (h.waits hheld).latest] at hfree
    cases hfree
  | depend hd hp hn => exact hset hd (hpast hd (by simp [hp]))
  | lock hd hp hl => exact hset hd (hpast hd (by simp [hp]))
  | check hd hp hn => exact hset hd (hpast hd (by simp [hp]))
  | leave a hd => exact ⟨hlost, hleft _⟩
  | skip hd hp hm =>
    rename_i i id dep now d m
    refine ⟨hm.newest_lost h.inv hlost (fun x hx hjob => ?_) (by simp), hleft i⟩
    have hname : d.name = x.jobId := by cases hx <;> simp_all
    have hforced := hpast hd (by simp [hp]) (hname.trans hjob)
    simp [Dispatching.recovers, hd, hforced, hname, hjob] at hrec
  | create hd hp hm =>
    rename_i i id worker now d m
    refine ⟨?_, hleft i⟩
    by_cases hname : d.name = job
    · -- the `INSERT` of a forced dispatch would have been a success
      have hforced := hpast hd (by simp [hp]) hname
      have hdb : m.db = w.sys.db := by
        cases hm with
        | dispatch hid =>
          refine after_createRun_of_changed_eq_zero (Nat.eq_zero_of_not_pos fun hins => hrec ?_)
          have hq : w.sys.queues true (.create i id worker now) = some d.name := by
            simp only [Dispatching.queues, hd, Option.bind_some]
            exact if_pos ⟨hforced, hp, hins⟩
          exact hq.trans (congrArg some hname)
        | _ => rfl
      simpa [Dispatching.db, hdb] using hlost
    · refine hm.newest_lost h.inv hlost (fun x hx => ?_) (by simp)
      cases hx <;> simp_all

theorem Dispatching.loses_eq {run : RunRow} (h : s.loses a = some run)
    (hs : s.step scaleDelay a = some s') :
    ∃ now m, a = .manager .reapNext ∧ run ∈ s.manager.reaper.rows ∧
      0 < changed s.db (.updateRun (.expireRun run.id now)) ∧
      m.db = after s.db (.updateRun (.expireRun run.id now)) ∧
      Moves scaleDelay s.manager .reapNext m ∧ s' = { s with manager := m } := by
  unfold Dispatching.loses at h
  split at h
  · split at h
    · rename_i now run' expired hreaper
      split at h
      · rename_i hc
        obtain rfl := Option.some.inj h
        simp only [Dispatching.step, Dispatching.allowed, if_true] at hs
        obtain ⟨m, hm, rfl⟩ := Option.map_eq_some_iff.mp hs
        refine ⟨now, m, rfl, by simp [hreaper, Reaper.rows], hc, ?_, step_moves hm, rfl⟩
        simp only [Manager.step, reapStep, hreaper, Option.some.injEq] at hm
        rw [← hm]
        rfl
      · cases h
    · cases h
  · cases h

/-- What the reaper has marked `LOST` is the newest run of the job. -/
theorem Guarded.waits_lost (h : Guarded job w) {run : RunRow} (hrun : w.sys.loses a = some run)
    (hjob : run.jobId = job) (hc : w.KeepsHold job a) (hs : w.sys.step scaleDelay a = some s') :
    Waits s' job := by
  obtain ⟨hnewest, hwait⟩ := hc.1 run hrun hjob
  obtain ⟨now, m, rfl, hrows, hchanged, hdb, hm, rfl⟩ := Dispatching.loses_eq hrun hs
  have hnone : ∀ x, Creates w.sys.manager .reapNext x → x.jobId ≠ job := by
    intro x hx
    cases hx <;> simp_all
  obtain ⟨r, hr, -, hafter⟩ := changed_activeTarget h.inv.valid rfl hchanged
  obtain ⟨hmem, hid⟩ := Tables.run_eq_some hr
  have hrjob : r.jobId = job := ((h.known.reaper run hrows).row r hr).trans hjob
  obtain ⟨x, hx⟩ := exists_head_runHistory hmem hrjob
  refine ⟨?_, hwait⟩
  rcases hnewest x hx with hxid | hlost
  · obtain ⟨x', hx', hhead⟩ := hm.newest h.inv hx hnone (by simp)
    refine ⟨x', hhead, ?_⟩
    rw [hdb, hxid] at hx'
    rw [← Option.some.inj (hafter.symm.trans hx')]
    rfl
  · exact hm.newest_lost h.inv ⟨x, hx, hlost⟩ hnone (by simp)

theorem Dispatches.policy (hd : Dispatches scaleDelay s a s') (h : HoldsOnLoss job s.manager.jobs)
    (hreload : ∀ jobs, a = .manager (.reload jobs) → HoldsOnLoss job jobs) :
    HoldsOnLoss job s'.manager.jobs := by
  cases hd with
  | manager hal hm =>
    rcases hm.jobs_eq with hj | hj
    · rwa [hj]
    · exact hreload _ (congrArg Move.manager hj)
  | skip hd hp hm | create hd hp hm =>
    rcases hm.jobs_eq with hj | hj
    · rwa [hj]
    · cases hj
  | _ => exact h

theorem Dispatches.specs (hd : Dispatches scaleDelay s a s') (h : HoldsOnLoss job s.manager.jobs)
    (hspecs : ∀ d ∈ s.dispatchers, d.name = job → d.spec.onWorkerLost = .fail) :
    ∀ d ∈ s'.dispatchers, d.name = job → d.spec.onWorkerLost = .fail := by
  have hset {i : ℕ} {d : Dispatcher} {phase : DispatchPhase} (hd : s.dispatchers[i]? = some d) :
      ∀ x ∈ (s.set i d phase).dispatchers, x.name = job → x.spec.onWorkerLost = .fail :=
    Slots.forall_mem_set hspecs (hspecs d (List.mem_of_getElem? hd))
  have hleave (i : ℕ) : ∀ x ∈ (s.leave i).dispatchers, x.name = job → x.spec.onWorkerLost = .fail :=
    fun x hx => hspecs x (List.mem_of_mem_eraseIdx hx)
  cases hd with
  | manager hal hm => exact hspecs
  | start hj =>
    intro x hx hname
    rcases List.mem_append.mp hx with hx | hx
    · exact hspecs x hx hname
    · rw [List.mem_singleton.mp hx] at hname ⊢
      exact h _ (State.job_eq_some hj).1 hname
  | clear hd hp hold => exact hset hd
  | depend hd hp hn => exact hset hd
  | lock hd hp hl => exact hset hd
  | check hd hp hn => exact hset hd
  | _ => exact hleave _

theorem guarded_step (h : Guarded job w) (hc : w.KeepsHold job a)
    (hreload : ∀ jobs, a = .manager (.reload jobs) → HoldsOnLoss job jobs)
    (hs : w.step scaleDelay job a = some w') : Guarded job w' := by
  obtain ⟨s', hs', rfl⟩ := Option.map_eq_some_iff.mp hs
  have hd := step_dispatches hs'
  obtain ⟨inv, known⟩ := hd.inv h.inv h.known
  refine ⟨inv, known, hd.policy h.policy hreload, hd.specs h.policy h.specs, ?_⟩
  · intro hheld
    simp only [Bool.and_eq_true, Bool.or_eq_true, Bool.not_eq_true',
      decide_eq_false_iff_not] at hheld
    obtain ⟨hheld | hlose, hrec⟩ := hheld
    · exact h.waits_step hheld (hc.2 hheld) hd hrec
    · obtain ⟨run, hrun, hjob⟩ := (Option.any_eq_true _ _).mp hlose
      exact h.waits_lost hrun (of_decide_eq_true hjob) hc hs'

theorem Dispatching.queues_eq_some {forced : Bool} (h : s.queues forced a = some job) :
    ∃ d ∈ s.dispatchers, d.name = job ∧ d.forced = forced ∧ d.phase = .checked := by
  unfold Dispatching.queues at h
  split at h
  · obtain ⟨d, hd, h⟩ := Option.bind_eq_some_iff.mp h
    obtain ⟨⟨hf, hp, -⟩, hname⟩ := Option.ite_none_right_eq_some.mp h
    exact ⟨d, List.mem_of_getElem? hd, Option.some.inj hname, hf, hp⟩
  · cases h

/-- A job that is held stays so until a forced dispatch of it succeeds. -/
theorem held_until_forced {as : List Move} (hheld : w.held)
    (h : Runs.exec (Watch.step scaleDelay job) w as = some w') :
    w'.held ∨ ∃ mid f post u, as = mid ++ f :: post ∧
      Runs.exec (Watch.step scaleDelay job) w mid = some u ∧ u.sys.recovers f = some job := by
  refine Runs.exec_induction (Watch.step scaleDelay job) (P := fun as w' => w'.held ∨
    ∃ mid f post u, as = mid ++ f :: post ∧
      Runs.exec (Watch.step scaleDelay job) w mid = some u ∧ u.sys.recovers f = some job)
    (Or.inl hheld) ?_ h
  intro as t a u ht ih hu
  obtain hheld | ⟨mid, f, post, v, rfl, hv, hf⟩ := ih
  · obtain ⟨s', -, rfl⟩ := Option.map_eq_some_iff.mp hu
    by_cases hrec : t.sys.recovers a = some job
    · exact Or.inr ⟨as, a, [], t, rfl, ht, hrec⟩
    · exact Or.inl (by simp [hheld, hrec])
  · exact Or.inr ⟨mid, f, post ++ [a], v, by simp, hv, hf⟩

/-- The job that is watched does not change what the manager does. -/
theorem Watch.exec_sys (w : Watch) (as : List Move) :
    (Runs.exec (Watch.step scaleDelay job) w as).map Watch.sys =
      Runs.exec (Dispatching.step scaleDelay) w.sys as := by
  refine Runs.exec_map _ (fun w a => ?_) w as
  rw [Watch.step, Option.map_map]
  exact Option.map_id_apply

end

/-- Between the step in which the reaper marks a run of the job `LOST` and a later step in which
an unforced dispatch queues a run of it, a forced dispatch of the job has succeeded. -/
def HoldAfterLoss (scaleDelay : ℕ → F64 → ℕ → ℕ) (jobs : List JobSpec) (job : String)
    (as : List Move) : Prop :=
  HoldsOnLoss job jobs → (∀ cfg, .manager (.reload cfg) ∈ as → HoldsOnLoss job cfg) →
  ∀ pre e mid c post s t run, as = pre ++ e :: mid ++ c :: post →
    Runs.exec (Dispatching.step scaleDelay) (.init jobs) pre = some s →
    s.loses e = some run → run.jobId = job →
    Runs.exec (Dispatching.step scaleDelay) (.init jobs) (pre ++ e :: mid) = some t →
    t.queues false c = some job →
    ∃ mid₁ f mid₂ u, mid = mid₁ ++ f :: mid₂ ∧
      Runs.exec (Dispatching.step scaleDelay) (.init jobs) (pre ++ e :: mid₁) = some u ∧
      u.recovers f = some job

theorem hold_after_loss_of_keepsHold (scaleDelay : ℕ → F64 → ℕ → ℕ) (jobs : List JobSpec)
    (job : String) (as : List Move)
    (hc : Runs.Along (Watch.step scaleDelay job) (Watch.KeepsHold job) (.init jobs) as) :
    HoldAfterLoss scaleDelay jobs job as := by
  intro hpolicy hreload pre e mid c post s t run has hs hlose hjob ht hq
  have hsys (bs : List Move) : (Runs.exec (Watch.step scaleDelay job) (.init jobs) bs).map
      Watch.sys = Runs.exec (Dispatching.step scaleDelay) (.init jobs) bs := Watch.exec_sys _ bs
  rw [← hsys] at hs ht
  obtain ⟨w, hw, rfl⟩ := Option.map_eq_some_iff.mp hs
  obtain ⟨v, hv, rfl⟩ := Option.map_eq_some_iff.mp ht
  -- The conditions hold along the run up to the unforced dispatch.
  have hkeep := ((Runs.along_append (Watch.step scaleDelay job)).mp (has ▸ hc)).1
  have hload : Runs.Along (Watch.step scaleDelay job)
      (fun _ a => ∀ cfg, a = .manager (.reload cfg) → HoldsOnLoss job cfg) (.init jobs)
      (pre ++ e :: mid) := by
    refine Runs.along_of_forall _ (fun a ha _ cfg hcfg => hreload cfg ?_) _
    rw [has, ← hcfg]
    exact List.mem_append_left _ ha
  have hguard : Guarded job v := Runs.exec_invariant_along _ _ (Guarded job)
    (fun _ _ _ hc h hs => guarded_step h hc.1 hc.2 hs) (guarded_init hpolicy)
    (hkeep.and _ hload) hv
  -- The job is held after the loss.
  obtain ⟨w₀, hw₀, hrest⟩ := (Runs.exec_append_eq_some _).mp hv
  obtain rfl : w = w₀ := Option.some.inj (hw.symm.trans hw₀)
  obtain ⟨u, hu, hmid⟩ := (Runs.exec_cons_eq_some _).mp hrest
  have hheld : u.held := by
    obtain ⟨s', hs', rfl⟩ := Option.map_eq_some_iff.mp hu
    obtain ⟨now, m, rfl, -⟩ := Dispatching.loses_eq hlose hs'
    simp [hlose, hjob, Dispatching.recovers, Dispatching.queues]
  obtain hheld' | ⟨mid₁, f, mid₂, x, rfl, hx, hf⟩ := held_until_forced hheld hmid
  · obtain ⟨d, hd, hname, hforced, hphase⟩ := Dispatching.queues_eq_some hq
    have hstart := (hguard.waits hheld').waiting d hd hname hforced
    simp [hphase] at hstart
  · refine ⟨mid₁, f, mid₂, x.sys, rfl, ?_, hf⟩
    rw [← hsys, Option.map_eq_some_iff]
    refine ⟨x, ?_, rfl⟩
    rw [Runs.exec_append_eq_some]
    exact ⟨w, hw, (Runs.exec_cons_eq_some _).mpr ⟨u, hu, hx⟩⟩

/-- Job `k` has to succeed before `j` runs. -/
def heldJobs : List JobSpec :=
  [⟨"k", true, .script, 1, 5, 0, [], .fail, [], 1⟩,
    ⟨"j", true, .script, 1, 5, 0, [], .fail, ["k"], 1⟩]

/-- The reads of a dispatch of a job with `n` dependencies. -/
def dispatchReads (job : String) (n : ℕ) (forced : Bool) : List Move :=
  [.start job forced, .checkHold 0 false] ++ List.replicate n (.checkDep 0 false) ++
    [.lock 0, .checkInflight 0 false]

/-- The run `id` is queued and claimed by `w`. -/
def launched (job id : String) (n : ℕ) (forced : Bool) (now : Time) : List Move :=
  dispatchReads job n forced ++ [.create 0 id (some "w") now,
    .manager (.statement (.updateRun (.claimRun id "w" "t" now)))]

/-- The completion `i` ends the run `id`. -/
def succeeds (i : ℕ) (id : String) (now : Time) : List Move :=
  [.manager (.request ⟨id, "t", "w", some 0, "success", some 0, none, none, none, none, none⟩),
    .manager (.load i), .manager (.decide i now), .manager (.update i now), .manager (.project i),
    .manager (.count i), .manager (.log i now)]

/-- After a success of `k` a run of `j` is under way. -/
def launchedBoth : List Move :=
  [.manager (.statement (.upsertWorker "w")), .manager (.statement (.syncJob "k")),
    .manager (.statement (.syncJob "j"))] ++ launched "k" "k1" 0 false 10 ++ succeeds 0 "k1" 20 ++
    launched "j" "r" 1 false 50

/-- The lost run is held back, triggered by an operator, and then dispatched as before. -/
theorem hold_after_loss_triggered :
    HoldAfterLoss (fun d _ _ => d) heldJobs "j"
      (launchedBoth ++ [.manager (.reapList 400), .manager .reapNext,
          .manager (.reapRequeue "x" none 400), .manager .reapNext, .start "j" false,
          .checkHold 0 false] ++
        launched "j" "r'" 1 true 410 ++ succeeds 1 "r'" 420 ++ launched "j" "r''" 1 false 500) :=
  hold_after_loss_of_keepsHold _ _ _ _ (by decide +kernel)

/-- While `r` is running a dispatch of `j` is skipped, for the next run of `k` is under way. -/
def skippedBefore : List Move :=
  launchedBoth ++ launched "k" "k2" 0 false 60 ++
    [.start "j" false, .checkHold 0 false, .checkDep 0 false, .skip 0 "s" 70] ++
    succeeds 1 "k2" 80 ++ [.manager (.reapList 400)]

/-- The lost run is not the newest run of `j`, and the next dispatch queues a run. -/
theorem skipped_run_lifts_hold :
    ¬HoldAfterLoss (fun d _ _ => d) heldJobs "j"
      (skippedBefore ++ .manager .reapNext :: dispatchReads "j" 1 false ++
        [.create 0 "r'" none 410]) := by
  intro h
  have hlose : (Runs.exec (Dispatching.step fun d _ _ => d) (.init heldJobs) skippedBefore).any
      (fun s => (s.loses (.manager .reapNext)).any fun run => decide (run.jobId = "j")) = true := by
    decide +kernel
  have hqueue : (Runs.exec (Dispatching.step fun d _ _ => d) (.init heldJobs)
      (skippedBefore ++ .manager .reapNext :: dispatchReads "j" 1 false)).any (fun t =>
        decide (t.queues false (.create 0 "r'" none 410) = some "j")) = true := by decide +kernel
  obtain ⟨s, hs, hrun⟩ := (Option.any_eq_true _ _).mp hlose
  obtain ⟨run, hrun, hjob⟩ := (Option.any_eq_true _ _).mp hrun
  obtain ⟨t, ht, hq⟩ := (Option.any_eq_true _ _).mp hqueue
  have hreload : ∀ cfg, Move.manager (.reload cfg) ∈ skippedBefore ++ .manager .reapNext ::
      dispatchReads "j" 1 false ++ [.create 0 "r'" none 410] → HoldsOnLoss "j" cfg := by
    intro cfg hmem
    simp [skippedBefore, launchedBoth, launched, succeeds, dispatchReads] at hmem
  obtain ⟨mid₁, f, mid₂, u, hmid, hu, hf⟩ := h (by decide) hreload _ _ _ _ [] s t run rfl hs hrun
    (of_decide_eq_true hjob) ht (of_decide_eq_true hq)
  -- No dispatch in between is an operator's.
  have hnever : ∀ n < 5, (Runs.exec (Dispatching.step fun d _ _ => d) (.init heldJobs)
      (skippedBefore ++ .manager .reapNext :: (dispatchReads "j" 1 false).take n)).all (fun u =>
        (dispatchReads "j" 1 false)[n]?.all fun f => decide (u.recovers f ≠ some "j")) = true := by
    decide +kernel
  have hlen := congrArg List.length hmid
  have hn := hnever mid₁.length (by simp [dispatchReads] at hlen; omega)
  rw [hmid, List.take_left] at hn
  simp [hu, hf] at hn

end Synora.Manager
