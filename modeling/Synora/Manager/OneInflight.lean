import Synora.Lib.Slots
import Synora.Manager.Dispatching

namespace Synora.Manager
open Core Db Engine Slots

/-! ## Runs in flight -/

/-- Of two runs of a job at most one is in flight. -/
def OneInflight (t : Tables) : Prop :=
  ∀ id id' r r', t.run id = some r → t.run id' = some r' → r.status.isInflight →
    r'.status.isInflight → r.jobId = r'.jobId → id = id'

section
variable {scaleDelay : ℕ → F64 → ℕ → ℕ} {m m' : State} {a : Action}

/-- A step creates one row at most. -/
theorem Creates.id_unique {r r' : RunRow} (h : Creates m a r) (h' : Creates m a r') :
    r.id = r'.id := by
  cases h <;> cases h' <;> simp_all

/-- A step that creates a run in flight has found none, unless it is a dispatch. -/
theorem Creates.noInflight {r : RunRow} (h : Creates m a r) (hi : r.status.isInflight)
    (hd : ∀ id job worker priority now, a = .dispatch id job worker priority now →
      Db.noInflight m.db job) : Db.noInflight m.db r.jobId := by
  cases h with
  | dispatch ha => exact hd _ _ _ _ _ ha
  | skip ha hs => simp [hs, DbStatus.isInflight] at hi
  | safeStop ha hh hp hr hn hj => exact hn
  | reaper ha ht hp hr hn hj => exact hn

theorem OneInflight.moves (inv : Inv m) (hone : OneInflight m.db) (h : Moves scaleDelay m a m')
    (hd : ∀ id job worker priority now, a = .dispatch id job worker priority now →
      Db.noInflight m.db job) : OneInflight m'.db := by
  -- A new row and an old one of its job cannot both be in flight.
  have hclash {id : String} {r r₀ r' : RunRow} (hnew : Creates m a r) (hr₀ : m.db.run id = some r₀)
      (hj : r₀.jobId = r'.jobId) (hi : r.status.isInflight) (hi₀ : r₀.status.isInflight)
      (hjob : r.jobId = r'.jobId) : False := by
    have hnone := (noInflight_iff inv.valid).mp (hnew.noInflight hi hd)
    exact hnone id r₀ hr₀ (hj.trans hjob.symm) hi₀
  intro id id' r r' hr hr' hi hi' hjob
  obtain ⟨r₀, hr₀, hj, hkeep⟩ | ⟨-, hnew⟩ := h.origin inv hr <;>
    obtain ⟨r₀', hr₀', hj', hkeep'⟩ | ⟨-, hnew'⟩ := h.origin inv hr'
  · exact hone id id' r₀ r₀' hr₀ hr₀' (hkeep hi) (hkeep' hi') (by rw [hj, hj', hjob])
  · exact (hclash hnew' hr₀ hj hi' (hkeep hi) hjob.symm).elim
  · exact (hclash hnew hr₀' hj' hi (hkeep' hi') hjob).elim
  · rw [← (Tables.run_eq_some hr).2, ← (Tables.run_eq_some hr').2]
    exact hnew.id_unique hnew'

theorem noInflight_moves (inv : Inv m) {job : String} (hn : Db.noInflight m.db job)
    (h : Moves scaleDelay m a m')
    (hc : ∀ r, Creates m a r → r.status.isInflight → r.jobId ≠ job) :
    Db.noInflight m'.db job := by
  have hv' : m'.db.Valid := valid_step inv.valid h
  rw [noInflight_iff inv.valid] at hn
  rw [noInflight_iff hv']
  intro id r hr hj hi
  obtain ⟨r₀, hr₀, hj₀, hkeep⟩ | ⟨-, hnew⟩ := h.origin inv hr
  · exact hn id r₀ hr₀ (hj₀.trans hj) (hkeep hi)
  · exact hc r hnew hi hj

theorem noInflight_of_query {t : Tables} {job : String} (h : inflightRunsOfJob t job = []) :
    Db.noInflight t job := by
  rw [noInflight, List.all_eq_true]
  intro r hr
  by_contra hbad
  have hmem : r ∈ inflightRunsOfJob t job := mem_runsWhere.mpr ⟨hr, by simpa using hbad⟩
  simp [h] at hmem

theorem OneInflight.length_le {t : Tables} (hv : t.Valid) (h : OneInflight t) (job : String) :
    (inflightRunsOfJob t job).length ≤ 1 := by
  have hnodup : ((inflightRunsOfJob t job).map RunRow.id).Nodup := runsWhere_ids_nodup hv _
  have hrow : ∀ r ∈ inflightRunsOfJob t job,
      t.run r.id = some r ∧ r.jobId = job ∧ r.status.isInflight := by
    intro r hr
    obtain ⟨hm, hg⟩ := mem_runsWhere.mp hr
    exact ⟨hv.run_of_mem hm, of_decide_eq_true hg⟩
  rcases hl : inflightRunsOfJob t job with _ | ⟨r, _ | ⟨r', rest⟩⟩
  · simp
  · simp
  · rw [hl] at hnodup hrow
    obtain ⟨hr, hj, hi⟩ := hrow r (by simp)
    obtain ⟨hr', hj', hi'⟩ := hrow r' (by simp)
    have hid := h r.id r'.id r r' hr hr' hi hi' (hj.trans hj'.symm)
    simp [hid] at hnodup

/-! ## The mutex of a job -/

/-- Only a completion that goes on to its checks takes the mutex. -/
theorem Moves.holders (h : Moves scaleDelay m a m') (job : String) :
    m'.handlers.countP (Handler.holds job) ≤ m.handlers.countP (Handler.holds job) ∨
      ∃ i ended x run, a = .decide i ended ∧ m.handlers[i]? = some x ∧ x.phase = .loaded run ∧
        run.jobId = job ∧
        m'.handlers.countP (Handler.holds job) ≤ m.handlers.countP (Handler.holds job) + 1 := by
  have hset {i : ℕ} {x : Handler} {phase : Phase} (hx : m.handlers[i]? = some x)
      (hp : ({ x with phase } : Handler).holds job → x.holds job) :
      (m.setPhase i x phase).handlers.countP (Handler.holds job) ≤
        m.handlers.countP (Handler.holds job) := by
    have hcount := countP_set_add (p := Handler.holds job) { x with phase } hx
    simp only [State.setPhase]
    split at hcount <;> split at hcount
    · omega
    · omega
    · rename_i hn hy
      exact absurd (hp hy) hn
    · omega
  cases h with
  | request body =>
    left
    simp [List.countP_append, Handler.holds]
  | decide hh hp hv =>
    rename_i i ended x run v
    by_cases hj : run.jobId = job
    · refine Or.inr ⟨i, ended, x, run, rfl, hh, hp, hj, ?_⟩
      have hcount := countP_set_add (p := Handler.holds job) { x with phase := .decided run v } hh
      simp only [State.setPhase]
      split at hcount <;> split at hcount <;> omega
    · exact Or.inl (hset hh (by simp [Handler.holds, hj]))
  | load hh hp hr => exact Or.inl (hset hh (by simp [Handler.holds]))
  | update hh hp hu hc => exact Or.inl (hset hh (by simp [Handler.holds, hp]))
  | project hh hp => exact Or.inl (hset hh (by simp [Handler.holds, hp]))
  | count hh hp =>
    refine Or.inl (hset hh ?_)
    split <;> simp [Handler.holds, hp]
  | requeue hh hp hid => exact Or.inl (hset hh (by simp [Handler.holds, hp]))
  | log hh hp => exact Or.inl (hset hh (by simp [Handler.holds]))
  | answer a code hh => exact Or.inl (hset hh (by simp [Handler.holds]))
  | _ => exact Or.inl le_rfl

end

/-! ## Every state of a run -/

/-- The lost run that the reaper is about to queue again. -/
def State.requeued (m : State) : Option RunRow :=
  match m.reaper with
  | .lost _ run _ =>
    if (m.job run.jobId).any fun j => decide (j.onWorkerLost = .retry) then some run else none
  | _ => none

def Action.isReapRequeue : Action → Bool
  | .reapRequeue .. => true
  | _ => false

/-- A dispatch whose query for runs in flight fails goes on only if there is none, and the reaper
queues no run of a job for which a dispatch has made this query and not yet its `INSERT`. -/
def Orderly (s : Dispatching) : Move → Prop
  | .checkInflight i queryFailed => queryFailed →
    ∀ d ∈ s.dispatchers[i]?, inflightRunsOfJob s.db d.name = []
  | .manager a => a.isReapRequeue → ∀ run ∈ s.manager.requeued, ∀ d ∈ s.dispatchers,
    d.phase = .checked → d.name ≠ run.jobId
  | _ => True

instance (s : Dispatching) : ∀ a, Decidable (Orderly s a)
  | .checkInflight i queryFailed => inferInstanceAs (Decidable (queryFailed →
      ∀ d ∈ s.dispatchers[i]?, inflightRunsOfJob s.db d.name = []))
  | .manager a => inferInstanceAs (Decidable (a.isReapRequeue → ∀ run ∈ s.manager.requeued,
      ∀ d ∈ s.dispatchers, d.phase = .checked → d.name ≠ run.jobId))
  | .start .. | .checkHold .. | .checkDep .. | .skip .. | .lock .. | .create .. | .drop .. =>
    .isTrue trivial

structure Serial (s : Dispatching) : Prop where
  inv : Inv s.manager
  known : KnownJobs s.manager
  mutex : ∀ job, s.holders job ≤ 1
  one : OneInflight s.db
  checked : ∀ d ∈ s.dispatchers, d.phase = .checked → Db.noInflight s.db d.name

theorem serial_init (jobs : List JobSpec) : Serial (Dispatching.init jobs) where
  inv := inv_init jobs
  known := knownJobs_init jobs
  mutex _ := by simp [Dispatching.holders, Dispatching.init, State.init]
  one := by
    intro id id' r r' hr
    cases hr
  checked := by simp [Dispatching.init]

section
variable {scaleDelay : ℕ → F64 → ℕ → ℕ} {s s' : Dispatching} {a : Move}

theorem Dispatching.countP_leave (i : ℕ) (p : Dispatcher → Bool) :
    (s.leave i).dispatchers.countP p ≤ s.dispatchers.countP p :=
  (List.eraseIdx_sublist s.dispatchers i).countP_le

/-- A dispatch that moves on without the mutex takes it from nobody. -/
theorem Dispatching.holders_set {i : ℕ} {d : Dispatcher} {phase : DispatchPhase} {job : String}
    (hd : s.dispatchers[i]? = some d)
    (hp : ({ d with phase } : Dispatcher).holds job → d.holds job) :
    (s.set i d phase).holders job ≤ s.holders job := by
  have hcount := countP_set_add (p := Dispatcher.holds job) { d with phase } hd
  simp only [Dispatching.holders, Dispatching.set]
  by_cases hy : ({ d with phase } : Dispatcher).holds job
  · rw [if_pos hy, if_pos (hp hy)] at hcount
    omega
  · rw [if_neg hy] at hcount
    omega

theorem mutex_step (h : ∀ job, s.holders job ≤ 1) (hs : Dispatches scaleDelay s a s')
    (job : String) : s'.holders job ≤ 1 := by
  have hle := h job
  cases hs with
  | manager ha hm =>
    obtain hc | ⟨i, ended, x, run, rfl, hx, hp, rfl, hc⟩ := hm.holders job
    · exact (Nat.add_le_add_left hc _).trans hle
    · simp only [Dispatching.allowed, hx, Option.all_some, hp, decide_eq_true_eq] at ha
      simp only [Dispatching.holders] at ha ⊢
      omega
  | start hj => simpa [Dispatching.holders, Dispatcher.holds] using hle
  | clear hd hp hold => exact (Dispatching.holders_set hd (by simp [Dispatcher.holds])).trans hle
  | depend hd hp hn =>
    refine (Dispatching.holders_set hd ?_).trans hle
    rcases hn with rfl | rfl <;> simp [Dispatcher.holds]
  | lock hd hp hl =>
    rename_i i d
    by_cases hj : d.name = job
    · subst hj
      have hcount := countP_set_add (p := Dispatcher.holds d.name) { d with phase := .locked } hd
      simp only [Dispatching.holders, Dispatching.set] at hl ⊢
      split at hcount <;> split at hcount <;> omega
    · refine (Dispatching.holders_set hd fun hh => ?_).trans hle
      simp only [Dispatcher.holds, Bool.and_eq_true, decide_eq_true_eq] at hh
      exact absurd hh.1 hj
  | check hd hp hn =>
    rename_i i queryFailed d
    refine (Dispatching.holders_set hd fun hh => ?_).trans hle
    have hname : d.name = job := of_decide_eq_true ((Bool.and_eq_true _ _).mp hh).1
    simp [Dispatcher.holds, hp, hname]
  | leave a hd => exact (Nat.add_le_add_right (Dispatching.countP_leave _ _) _).trans hle
  | skip hd hp hm | create hd hp hm =>
    obtain hc | ⟨i, ended, x, run, ha, -⟩ := hm.holders job
    · exact (Nat.add_le_add (Dispatching.countP_leave _ _) hc).trans hle
    · cases ha

theorem oneInflight_step (h : Serial s) (hs : Dispatches scaleDelay s a s') :
    OneInflight s'.db := by
  cases hs with
  | manager ha hm =>
    refine h.one.moves h.inv hm fun id job worker priority now hd => ?_
    exact absurd hd (Dispatching.allowed_ne_dispatch ha _ _ _ _ _)
  | skip hd hp hm => exact h.one.moves h.inv hm (by simp)
  | create hd hp hm =>
    refine h.one.moves h.inv hm fun id job worker priority now ha => ?_
    cases ha
    exact h.checked _ (List.mem_of_getElem? hd) hp
  | _ => exact h.one

/-- Nobody else has the mutex of a dispatch that has made its checks. -/
theorem Serial.not_holds (h : Serial s) {d : Dispatcher} (hd : d ∈ s.dispatchers)
    (hp : d.phase = .checked) {x : Handler} (hx : x ∈ s.manager.handlers) :
    x.holds d.name = false := by
  by_contra hbad
  have hself : d.holds d.name := by simp [Dispatcher.holds, hp]
  have hpos : 0 < s.dispatchers.countP (Dispatcher.holds d.name) :=
    List.countP_pos_iff.mpr ⟨d, hd, hself⟩
  have hpos' : 0 < s.manager.handlers.countP (Handler.holds d.name) :=
    List.countP_pos_iff.mpr ⟨x, hx, by simpa using hbad⟩
  have hle := h.mutex d.name
  simp only [Dispatching.holders] at hle
  omega

theorem Serial.name_ne (h : Serial s) {i : ℕ} {d d' : Dispatcher} (hd : s.dispatchers[i]? = some d)
    (hp : d.phase = .checked) (hd' : d' ∈ (s.leave i).dispatchers) (hp' : d'.phase = .checked) :
    d'.name ≠ d.name := by
  intro hname
  have hself : d.holds d.name := by simp [Dispatcher.holds, hp]
  have hother : d'.holds d.name := by simp [Dispatcher.holds, hp', hname]
  have htwo := two_le_countP hd hself hd' hother
  have hle := h.mutex d.name
  simp only [Dispatching.holders] at hle
  omega

theorem checked_step (h : Serial s) (hc : Orderly s a) (hs : Dispatches scaleDelay s a s')
    {d : Dispatcher} (hd : d ∈ s'.dispatchers) (hp : d.phase = .checked) :
    Db.noInflight s'.db d.name := by
  have hset {i : ℕ} {d₀ : Dispatcher} {phase : DispatchPhase}
      (hd : d ∈ (s.set i d₀ phase).dispatchers) (hph : phase = .checked →
        Db.noInflight s.db d₀.name) : Db.noInflight s.db d.name := by
    rcases List.mem_or_eq_of_mem_set hd with hd | rfl
    · exact h.checked d hd hp
    · exact hph hp
  cases hs with
  | manager ha hm =>
    refine noInflight_moves h.inv (h.checked d hd hp) hm fun r hr hi => ?_
    cases hr with
    | dispatch ha' => exact absurd ha' (Dispatching.allowed_ne_dispatch ha _ _ _ _ _)
    | skip ha' hsk => simp [hsk, DbStatus.isInflight] at hi
    | safeStop ha hx hph hsrc hn hj =>
      -- the completion has the mutex of the job whose run it queues again
      rename_i i worker now x run src
      have hrow : run ∈ x.row := by simp [Handler.row, hph]
      have hjob := (h.known.handlers x (List.mem_of_getElem? hx) run hrow).row src hsrc
      have hfree := h.not_holds hd hp (List.mem_of_getElem? hx)
      simp only [Handler.holds, hph, decide_eq_false_iff_not] at hfree
      rwa [hj, hjob]
    | reaper ha ht hpol hsrc hn hj =>
      rename_i worker now at_ run src expired
      have hrow : run ∈ s.manager.reaper.rows := by simp [ht, Reaper.rows]
      have hjob := (h.known.reaper run hrow).row src hsrc
      have hreq : s.manager.requeued = some run := by simp only [State.requeued, ht, hpol, if_true]
      subst ha
      rw [hj, hjob]
      exact (hc rfl run hreq d hd hp).symm
  | start hj =>
    rcases List.mem_append.mp hd with hd | hd
    · exact h.checked d hd hp
    · rw [List.mem_singleton.mp hd] at hp
      cases hp
  | clear hd₀ hp₀ hold => exact hset hd (by simp)
  | depend hd₀ hp₀ hn => exact hset hd (by rcases hn with rfl | rfl <;> simp)
  | lock hd₀ hp₀ hl => exact hset hd (by simp)
  | check hd₀ hp₀ hn =>
    rename_i i queryFailed d₀
    refine hset hd fun _ => noInflight_of_query ?_
    cases queryFailed with
    | false => exact hn rfl
    | true => exact hc rfl d₀ hd₀
  | leave a hd₀ => exact h.checked d (List.mem_of_mem_eraseIdx hd) hp
  | skip hd₀ hp₀ hm =>
    refine noInflight_moves h.inv (h.checked d (List.mem_of_mem_eraseIdx hd) hp) hm ?_
    intro r hr hi
    cases hr <;> simp_all [DbStatus.isInflight]
  | create hd₀ hp₀ hm =>
    refine noInflight_moves h.inv (h.checked d (List.mem_of_mem_eraseIdx hd) hp) hm ?_
    intro r hr hi hj
    have hne := h.name_ne hd₀ hp₀ hd hp
    cases hr <;> simp_all

theorem serial_step (h : Serial s) (hc : Orderly s a) (hs : s.step scaleDelay a = some s') :
    Serial s' := by
  have hd := step_dispatches hs
  obtain ⟨inv, known⟩ := hd.inv h.inv h.known
  exact ⟨inv, known, mutex_step h.mutex hd, oneInflight_step h hd,
    fun _ hmem hp => checked_step h hc hd hmem hp⟩

end

/-- In every state of the run every job has at most one run in flight. -/
def SingleInflight (scaleDelay : ℕ → F64 → ℕ → ℕ) (jobs : List JobSpec) (as : List Move) : Prop :=
  ∀ pre post s job, as = pre ++ post →
    Runs.exec (Dispatching.step scaleDelay) (.init jobs) pre = some s →
    (inflightRunsOfJob s.db job).length ≤ 1

/-- A job has one run in flight at a time, for as long as the reaper does not queue a lost run
between the two statements of a dispatch, and the first of them does not fail for nothing. -/
theorem single_inflight_of_orderly (scaleDelay : ℕ → F64 → ℕ → ℕ) (jobs : List JobSpec)
    (as : List Move) (hc : Runs.Along (Dispatching.step scaleDelay) Orderly (.init jobs) as) :
    SingleInflight scaleDelay jobs as := by
  intro pre post s job has hs
  have hpre := ((Runs.along_append (Dispatching.step scaleDelay)).mp (has ▸ hc)).1
  have hserial : Serial s := Runs.exec_invariant_along (Dispatching.step scaleDelay) Orderly Serial
    (fun _ _ _ hc h hs => serial_step h hc hs) (serial_init jobs) hpre hs
  exact hserial.one.length_le hserial.inv.valid job

def retryJob : JobSpec := ⟨"j", true, .script, 1, 5, 0, [], .retry, [], 1⟩

/-- A dispatch of `j` up to its query for runs in flight. -/
def dispatchChecks : List Move :=
  [.start "j" false, .checkHold 0 false, .lock 0, .checkInflight 0 false]

/-- The run `r` of `j` is dispatched, claimed by `w`, and lost when its lease is over. -/
def lostRun : List Move :=
  [.manager (.statement (.upsertWorker "w")), .manager (.statement (.syncJob "j"))] ++
    dispatchChecks ++ [.create 0 "r" (some "w") 90,
      .manager (.statement (.updateRun (.claimRun "r" "w" "t" 100))), .manager (.reapList 400),
      .manager .reapNext]

/-- The reaper queues the lost run again, and a dispatch finds it in flight. -/
theorem single_inflight_requeued :
    SingleInflight (fun d _ _ => d) [retryJob]
      (lostRun ++ .manager (.reapRequeue "r'" none 400) :: dispatchChecks) :=
  single_inflight_of_orderly _ _ _ (by decide +kernel)

/-- The reaper queues the lost run again while a dispatch that saw none is on its way. -/
theorem reaper_and_dispatch_both_queue :
    ¬SingleInflight (fun d _ _ => d) [retryJob]
      (lostRun ++ dispatchChecks ++
        [.manager (.reapRequeue "r'" none 400), .create 0 "r''" none 400]) := by
  intro h
  have htwo : (Runs.exec (Dispatching.step fun d _ _ => d) (.init [retryJob])
      (lostRun ++ dispatchChecks ++
        [.manager (.reapRequeue "r'" none 400), .create 0 "r''" none 400])).any (fun s =>
        decide ((inflightRunsOfJob s.db "j").length = 2)) = true := by decide +kernel
  obtain ⟨s, hs, hlen⟩ := (Option.any_eq_true _ _).mp htwo
  have hle := h _ [] s "j" (by simp) hs
  simp [of_decide_eq_true hlen] at hle

end Synora.Manager
