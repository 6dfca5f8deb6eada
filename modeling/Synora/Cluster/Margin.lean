import Synora.Cluster.Clock

namespace Synora.Cluster
open Core Db Manager

/-! ## What the clock, the map and the messages in flight promise -/

/-- A heartbeat has been answered and the loop has not come round again. -/
def Main.answered : Main → Bool
  | .idle | .beating _ => false
  | .cancelling .. | .offered _ | .claiming .. => true

/-- The calls that something in flight still belongs to. -/
def Clocked.flying (s : Clocked) : List ℕ :=
  s.base.requests.map Prod.fst ++ s.base.responses.map Prod.fst ++ s.base.serving.map Prod.snd ++
    s.beats.map Beat.call ++ s.claims.map Prod.fst

/-- One deadline for leases that were granted at many times: whatever the main loop waits for
carries leases that count from `sent` at least, and so does what the map holds. -/
structure Leased (s : Clocked) : Prop where
  manager : Manager.Inv s.base.manager
  sent_le : s.sent ≤ s.clock
  deadline_le : s.deadline ≤ s.sent + heartbeatSafetySecs
  fresh : ∀ c ∈ s.flying, c < s.base.calls
  answered : s.worker.main.answered → s.deadline = s.sent + heartbeatSafetySecs
  /-- The heartbeat that the loop waits for reports the whole map, -/
  asked : ∀ c activeRuns, s.worker.main = .beating c →
    (c, Request.heartbeat activeRuns) ∈ s.base.requests →
    ∀ id ∈ s.worker.running, id ∈ activeRuns.map Prod.fst
  /-- the manager has renewed what it counts as valid, -/
  renewed : ∀ c, s.worker.main = .beating c → ∀ b ∈ s.beats, b.call = c →
    (∀ id ∈ s.worker.running, id ∈ b.activeRuns.map Prod.fst) ∧
      ∀ id ∈ b.valid, LeasedTo s.db id (s.sent + runLeaseSecs)
  /-- and the answer names every run that was not renewed. -/
  told : ∀ c ids offers, s.worker.main = .beating c →
    (c, Response.heartbeat ids offers) ∈ s.base.responses →
    ∀ id ∈ s.worker.running, id ∉ ids → LeasedTo s.db id (s.sent + runLeaseSecs)
  taken : ∀ c runId todo, s.worker.main = .claiming c runId todo → ∀ p ∈ s.claims, p.1 = c →
    LeasedTo s.db p.2 (s.sent + runLeaseSecs)
  granted : ∀ c runId todo a, s.worker.main = .claiming c runId todo →
    (c, Response.claim (some a)) ∈ s.base.responses →
    LeasedTo s.db a.runId (s.sent + runLeaseSecs)
  held : ∀ id ∈ s.worker.running, id ∉ s.cancels → LeasedTo s.db id (s.deadline + 60)

/-- A lease outlasts the deadline of the heartbeat it counts from. -/
theorem deadline_add_le (t : ℤ) : t + heartbeatSafetySecs + 60 ≤ t + runLeaseSecs := by
  unfold heartbeatSafetySecs runLeaseSecs
  omega

theorem leased_init (jobs : List JobSpec) (worker : String) (maxConcurrency : ℕ) (now : ℤ) :
    Leased (.init jobs worker maxConcurrency now) where
  manager := inv_init jobs
  sent_le := le_rfl
  deadline_le := le_rfl
  fresh := by simp [Clocked.flying, Clocked.init, System.init]
  answered h := by cases h
  asked c activeRuns h := by cases h
  renewed c h := by cases h
  told c ids offers h := by cases h
  taken c runId todo h := by cases h
  granted c runId todo a h := by cases h
  held id h := absurd h (AList.notMem_empty id)

section
variable {scaleDelay : ℕ → F64 → ℕ → ℕ} {s s' : Clocked}

/-! ### The manager moves -/

theorem Leased.setManager (h : Leased s) {m : State} {as : List Manager.Action}
    (ht : ∀ a ∈ as, a.Timely s.clock)
    (hm : Runs.exec (Manager.step scaleDelay) s.base.manager as = some m) :
    Leased { s with base := { s.base with manager := m } } := by
  have hinv : Manager.Inv m :=
    Runs.exec_invariant _ Manager.Inv (fun _ _ _ hi hs => inv_step hi hs) h.manager hm
  have hsent : s.sent + runLeaseSecs ≤ s.clock + runLeaseSecs := by have := h.sent_le; omega
  have hdead : s.deadline + 60 ≤ s.clock + runLeaseSecs := by
    have h1 := h.deadline_le
    have h2 := deadline_add_le s.sent
    omega
  have hkeep : ∀ {id u}, u ≤ s.clock + runLeaseSecs → LeasedTo s.db id u → LeasedTo m.db id u :=
    fun hu hl => hl.exec h.manager ht hm hu
  exact { h with
    manager := hinv
    renewed := fun c hc b hb hbc =>
      ⟨(h.renewed c hc b hb hbc).1, fun id hid => hkeep hsent ((h.renewed c hc b hb hbc).2 id hid)⟩
    told := fun c ids offers hc hr id hid hn => hkeep hsent (h.told c ids offers hc hr id hid hn)
    taken := fun c runId todo hc p hp hpc => hkeep hsent (h.taken c runId todo hc p hp hpc)
    granted := fun c runId todo a hc hr => hkeep hsent (h.granted c runId todo a hc hr)
    held := fun id hid hn => hkeep hdead (h.held id hid hn) }

/-- A statement of a handler is a step of the manager too. -/
theorem Leased.setDb (h : Leased s) {q : Stmt} (hf : free q)
    (ht : ∀ now, leaseStamp q = some now → now = s.clock) : Leased (s.setDb (after s.db q)) := by
  have hrun : Runs.exec (Manager.step fun d _ _ => d) s.base.manager [.statement q] =
      some { s.base.manager with db := after s.db q } := by simp [Manager.step, hf, Clocked.db]
  exact h.setManager (by simpa [Action.Timely] using ht) hrun

/-! ### Messages come and go -/

theorem mem_flying {c : ℕ} : c ∈ s.flying ↔ (∃ r, (c, r) ∈ s.base.requests) ∨
    (∃ r, (c, r) ∈ s.base.responses) ∨ (∃ i, (i, c) ∈ s.base.serving) ∨
    (∃ b ∈ s.beats, b.call = c) ∨ ∃ id, (c, id) ∈ s.claims := by
  simp [Clocked.flying]

/-- Fewer messages promise less. -/
theorem Leased.forget (h : Leased s) {requests : List (ℕ × Request)}
    {responses : List (ℕ × Response)} {beats : List Beat} {claims : List (ℕ × String)}
    (hq : ∀ p ∈ requests, p ∈ s.base.requests) (hr : ∀ p ∈ responses, p ∈ s.base.responses)
    (hb : ∀ b ∈ beats, b ∈ s.beats) (hc : ∀ p ∈ claims, p ∈ s.claims) :
    Leased { s with base := { s.base with requests, responses }, beats, claims } where
  manager := h.manager
  sent_le := h.sent_le
  deadline_le := h.deadline_le
  fresh c hf := by
    refine h.fresh c (mem_flying.mpr ?_)
    rcases mem_flying.mp hf with ⟨r, hr'⟩ | ⟨r, hr'⟩ | hserve | ⟨b, hb', hcall⟩ | ⟨id, hid⟩
    · exact Or.inl ⟨r, hq _ hr'⟩
    · exact Or.inr (Or.inl ⟨r, hr _ hr'⟩)
    · exact Or.inr (Or.inr (Or.inl hserve))
    · exact Or.inr (Or.inr (Or.inr (Or.inl ⟨b, hb b hb', hcall⟩)))
    · exact Or.inr (Or.inr (Or.inr (Or.inr ⟨id, hc _ hid⟩)))
  answered := h.answered
  asked c activeRuns hm hreq := h.asked c activeRuns hm (hq _ hreq)
  renewed c hm b hb' := h.renewed c hm b (hb b hb')
  told c ids offers hm hres := h.told c ids offers hm (hr _ hres)
  taken c runId todo hm p hp := h.taken c runId todo hm p (hc p hp)
  granted c runId todo a hm hres := h.granted c runId todo a hm (hr _ hres)
  held := h.held

theorem Leased.pull (h : Leased s) (i : ℕ) : Leased (s.pull i) :=
  h.forget (fun _ => List.mem_of_mem_eraseIdx) (fun _ hp => hp) (fun _ hb => hb) fun _ hp => hp

theorem Leased.dropBeat (h : Leased s) (j : ℕ) : Leased { s with beats := s.beats.eraseIdx j } :=
  h.forget (fun _ hp => hp) (fun _ hp => hp) (fun _ => List.mem_of_mem_eraseIdx) fun _ hp => hp

theorem Leased.dropClaim (h : Leased s) (j : ℕ) :
    Leased { s with claims := s.claims.eraseIdx j } :=
  h.forget (fun _ hp => hp) (fun _ hp => hp) (fun _ hb => hb) fun _ => List.mem_of_mem_eraseIdx

theorem Leased.serving_lt (h : Leased s) {p : ℕ × ℕ} (hp : p ∈ s.base.serving) :
    p.2 < s.base.calls :=
  h.fresh p.2 (mem_flying.mpr (Or.inr (Or.inr (Or.inl ⟨p.1, hp⟩))))

/-- The completions under way are none of the main loop's. -/
theorem Leased.setServing (h : Leased s) {serving : List (ℕ × ℕ)}
    (hs : ∀ p ∈ serving, p.2 < s.base.calls) :
    Leased { s with base := { s.base with serving } } :=
  { h with
    fresh := fun c hf => by
      rcases mem_flying.mp hf with hq | hr | ⟨i, hi⟩ | hrest
      · exact h.fresh c (mem_flying.mpr (Or.inl hq))
      · exact h.fresh c (mem_flying.mpr (Or.inr (Or.inl hr)))
      · exact hs _ hi
      · exact h.fresh c (mem_flying.mpr (Or.inr (Or.inr (Or.inr hrest)))) }

/-- An answer that keeps the promises of its call. -/
theorem Leased.push (h : Leased s) {call : ℕ} {r : Response} (hcall : call < s.base.calls)
    (hbeat : ∀ ids offers, r = .heartbeat ids offers → s.worker.main = .beating call →
      ∀ id ∈ s.worker.running, id ∉ ids → LeasedTo s.db id (s.sent + runLeaseSecs))
    (hclaim : ∀ a runId todo, r = .claim (some a) → s.worker.main = .claiming call runId todo →
      LeasedTo s.db a.runId (s.sent + runLeaseSecs)) :
    Leased (s.push call r) := by
  have hmem : ∀ {c r'}, (c, r') ∈ s.base.responses ++ [(call, r)] →
      (c, r') ∈ s.base.responses ∨ (c = call ∧ r' = r) := by simp
  exact { h with
    fresh := fun c hf => by
      rcases mem_flying.mp hf with hq | ⟨r', hr'⟩ | hrest
      · exact h.fresh c (mem_flying.mpr (Or.inl hq))
      · rcases hmem hr' with hr' | ⟨rfl, -⟩
        · exact h.fresh c (mem_flying.mpr (Or.inr (Or.inl ⟨r', hr'⟩)))
        · exact hcall
      · exact h.fresh c (mem_flying.mpr (Or.inr (Or.inr hrest)))
    told := fun c ids offers hm hres => by
      rcases hmem hres with hres | ⟨rfl, hr⟩
      · exact h.told c ids offers hm hres
      · exact hbeat ids offers hr.symm hm
    granted := fun c runId todo a hm hres => by
      rcases hmem hres with hres | ⟨rfl, hr⟩
      · exact h.granted c runId todo a hm hres
      · exact hclaim a runId todo hr.symm hm }

/-- An answer that neither a heartbeat nor a claim can use. -/
theorem Leased.pushOther (h : Leased s) {call : ℕ} {r : Response} (hcall : call < s.base.calls)
    (hbeat : ∀ ids offers, r ≠ .heartbeat ids offers) (hclaim : ∀ a, r ≠ .claim (some a)) :
    Leased (s.push call r) :=
  h.push hcall (fun ids offers hr => absurd hr (hbeat ids offers))
    fun a _ _ hr => absurd hr (hclaim a)

/-! ### The worker moves -/

/-- The loop waits for nothing new and the map has not grown. -/
structure Settles (w w' : Worker) : Prop where
  running : ∀ id ∈ w'.running, id ∈ w.running
  beating : ∀ c, w'.main = .beating c → w.main = .beating c
  claiming : ∀ c runId todo, w'.main = .claiming c runId todo → w.main = .claiming c runId todo
  answered : w'.main.answered → w.main.answered

theorem Settles.of_eq {w w' : Worker} (hm : w'.main = w.main)
    (hr : ∀ id ∈ w'.running, id ∈ w.running) : Settles w w' :=
  ⟨hr, fun _ h => hm ▸ h, fun _ _ _ h => hm ▸ h, fun h => hm ▸ h⟩

theorem Leased.setWorker (h : Leased s) {w : Worker} (hw : Settles s.worker w) :
    Leased { s with base := { s.base with worker := w } } :=
  { h with
    answered := fun ha => h.answered (hw.answered ha)
    asked := fun c activeRuns hm hreq id hid =>
      h.asked c activeRuns (hw.beating c hm) hreq id (hw.running id hid)
    renewed := fun c hm b hb hbc =>
      ⟨fun id hid => (h.renewed c (hw.beating c hm) b hb hbc).1 id (hw.running id hid),
        (h.renewed c (hw.beating c hm) b hb hbc).2⟩
    told := fun c ids offers hm hres id hid =>
      h.told c ids offers (hw.beating c hm) hres id (hw.running id hid)
    taken := fun c runId todo hm => h.taken c runId todo (hw.claiming c runId todo hm)
    granted := fun c runId todo a hm => h.granted c runId todo a (hw.claiming c runId todo hm)
    held := fun id hid => h.held id (hw.running id hid) }

/-- The call that the worker makes next is new to everything in flight. -/
theorem Leased.fresh_send (h : Leased s) (w : Worker) (request : Request) :
    ∀ c ∈ ({ s with base := s.base.send w request } : Clocked).flying, c < s.base.calls + 1 := by
  intro c hf
  have hlt : c < s.base.calls ∨ c = s.base.calls := by
    rcases mem_flying.mp hf with ⟨r, hr⟩ | hrest
    · rcases List.mem_append.mp hr with hr | hr
      · exact Or.inl (h.fresh c (mem_flying.mpr (Or.inl ⟨r, hr⟩)))
      · exact Or.inr (by simpa using congrArg Prod.fst (List.mem_singleton.mp hr))
    · exact Or.inl (h.fresh c (mem_flying.mpr (Or.inr hrest)))
  omega

/-- A call of a task is none of the main loop's. -/
theorem Leased.sendReport (h : Leased s) {w : Worker} (hw : Settles s.worker w)
    (body : CompleteRequest) : Leased { s with base := s.base.send w (.complete body) } := by
  have hset := h.setWorker hw
  exact { hset with
    fresh := h.fresh_send w (.complete body)
    asked := fun c activeRuns hm hreq => by
      rcases List.mem_append.mp hreq with hreq | hreq
      · exact hset.asked c activeRuns hm hreq
      · simp at hreq }

theorem mem_activeRuns {w : Worker} {id : String} (h : id ∈ w.running) :
    id ∈ w.activeRuns.map Prod.fst := by
  have hkeys : w.activeRuns.map Prod.fst = w.running.keys := by
    simp [Worker.activeRuns, AList.keys, List.keys]
  rw [hkeys]
  exact h

/-- Nothing in flight belongs to the next call. -/
theorem Leased.new_call (h : Leased s) : (∀ r, (s.base.calls, r) ∉ s.base.requests) ∧
    (∀ r, (s.base.calls, r) ∉ s.base.responses) ∧ (∀ b ∈ s.beats, b.call ≠ s.base.calls) ∧
    ∀ id, (s.base.calls, id) ∉ s.claims := by
  have hnew : s.base.calls ∉ s.flying := fun hc => absurd (h.fresh _ hc) (lt_irrefl _)
  simp only [mem_flying, not_or, not_exists, not_and] at hnew
  exact ⟨hnew.1, hnew.2.1, hnew.2.2.2.1, hnew.2.2.2.2⟩

theorem Leased.beat (h : Leased s) :
    let w := { s.worker with main := .beating s.base.calls }
    Leased { s with base := s.base.send w (.heartbeat s.worker.activeRuns), sent := s.clock } := by
  intro w
  obtain ⟨hreqs, hress, hbeats, -⟩ := h.new_call
  exact { h with
    sent_le := le_rfl
    deadline_le := by
      have h1 := h.deadline_le
      have h2 := h.sent_le
      simp only
      omega
    fresh := h.fresh_send w _
    answered := fun ha => by cases ha
    asked := fun c activeRuns hm hreq id hid => by
      obtain rfl : s.base.calls = c := Main.beating.inj hm
      rcases List.mem_append.mp hreq with hreq | hreq
      · exact absurd hreq (hreqs _)
      · obtain rfl : activeRuns = s.worker.activeRuns := by simpa using hreq
        exact mem_activeRuns hid
    renewed := fun c hm b hb hbc => absurd hbc (Main.beating.inj hm ▸ hbeats b hb)
    told := fun c ids offers hm hres => absurd hres (Main.beating.inj hm ▸ hress _)
    taken := fun c runId todo hm => by cases hm
    granted := fun c runId todo a hm => by cases hm }

theorem Leased.claimNext (h : Leased s) {runId : String} {todo : List String}
    (hm : s.worker.main = .offered (runId :: todo)) :
    let w := { s.worker with main := .claiming s.base.calls runId todo }
    Leased { s with base := s.base.send w (.claim runId) } := by
  intro w
  obtain ⟨-, hress, -, hclaims⟩ := h.new_call
  exact { h with
    fresh := h.fresh_send w _
    answered := fun _ => h.answered (by rw [hm]; rfl)
    asked := fun c activeRuns hm => by cases hm
    renewed := fun c hm => by cases hm
    told := fun c ids offers hm => by cases hm
    taken := fun c runId todo hm p hp hpc => by
      obtain ⟨rfl, -, -⟩ := Main.claiming.inj hm
      exact absurd (hpc ▸ hp : (s.base.calls, p.2) ∈ s.claims) (hclaims _)
    granted := fun c runId todo a hm hres => by
      obtain ⟨rfl, -, -⟩ := Main.claiming.inj hm
      exact absurd hres (hress _) }

/-! ### Responses reach the worker -/

theorem taskReturn_keeps (w : Worker) (call : ℕ) (ok : Bool) :
    (taskReturn w call ok).main = w.main ∧ (taskReturn w call ok).running = w.running := by
  unfold taskReturn
  split
  · exact ⟨rfl, rfl⟩
  split
  · split <;> exact ⟨rfl, rfl⟩
  · exact ⟨rfl, rfl⟩

theorem settles_taskReturn (w : Worker) (call : ℕ) (ok : Bool) :
    Settles w (taskReturn w call ok) :=
  .of_eq (taskReturn_keeps w call ok).1 fun _ h => (taskReturn_keeps w call ok).2 ▸ h

theorem settles_main {w : Worker} {main : Main} (hb : ∀ c, main ≠ .beating c)
    (hc : ∀ c runId todo, main ≠ .claiming c runId todo) (ha : main.answered → w.main.answered) :
    Settles w { w with main } :=
  ⟨fun _ h => h, fun c h => absurd h (hb c), fun c runId todo h => absurd h (hc c runId todo), ha⟩

theorem settles_giveUp (w : Worker) (call : ℕ) : Settles w (w.giveUp call) := by
  unfold Worker.giveUp
  split
  · split
    · exact settles_main (by simp) (by simp) (by simp [Main.answered])
    · exact settles_taskReturn ..
  · rename_i hm
    split
    · exact settles_main (by simp) (by simp) (by simp [hm, Main.answered])
    · exact settles_taskReturn ..
  · exact settles_taskReturn ..

/-- The heartbeat is answered: from now on the deadline counts from this beat. -/
theorem Leased.hear (h : Leased s) {c : ℕ} {ids offers : List String}
    (hm : s.worker.main = .beating c) (hr : (c, .heartbeat ids offers) ∈ s.base.responses) :
    let w := { s.worker with main := .cancelling ids (offers.take maxClaimsPerHeartbeat) }
    Leased { s with
      base := { s.base with worker := w }
      deadline := s.sent + heartbeatSafetySecs
      cancels := ids } := by
  intro w
  exact { h with
    deadline_le := le_rfl
    answered := fun _ => rfl
    asked := fun c activeRuns hm => by cases hm
    renewed := fun c hm => by cases hm
    told := fun c ids offers hm => by cases hm
    taken := fun c runId todo hm => by cases hm
    granted := fun c runId todo a hm => by cases hm
    held := fun id hid hn => by
      exact (h.told c ids offers hm hr id hid hn).mono (deadline_add_le s.sent) }

/-- A claim is answered: the run enters the map with a lease that outlasts the deadline. -/
theorem Leased.accept (h : Leased s) {c : ℕ} {runId : String} {todo : List String}
    {a : Assignment} (hm : s.worker.main = .claiming c runId todo)
    (hr : (c, .claim (some a)) ∈ s.base.responses) :
    let w := { s.worker.accept a with main := .offered todo }
    Leased { s with base := { s.base with worker := w } } := by
  intro w
  have hdead := h.answered (by rw [hm]; rfl)
  exact { h with
    answered := fun _ => hdead
    asked := fun c activeRuns hm => by cases hm
    renewed := fun c hm => by cases hm
    told := fun c ids offers hm => by cases hm
    taken := fun c runId todo hm => by cases hm
    granted := fun c runId todo a hm => by cases hm
    held := fun id hid hn => by
      rcases (AList.mem_insert _).mp hid with rfl | hid
      · refine (h.granted c runId todo a hm hr).mono ?_
        rw [hdead]
        exact deadline_add_le s.sent
      · exact h.held id hid hn }

theorem Leased.receive (h : Leased s) {i call : ℕ} {r : Response}
    (hi : s.base.responses[i]? = some (call, r)) :
    Leased (s.keepTime { s.base with
      worker := s.worker.receive call r
      responses := s.base.responses.eraseIdx i } (.receive i)) := by
  have hmem : (call, r) ∈ s.base.responses := List.mem_of_getElem? hi
  -- The worker takes the answer, then the answer is gone.
  have hdrop : ∀ {t : Clocked}, Leased t →
      Leased { t with base := { t.base with responses := t.base.responses.eraseIdx i } } :=
    fun ht => ht.forget (fun _ hp => hp) (fun _ => List.mem_of_mem_eraseIdx) (fun _ hb => hb)
      fun _ hp => hp
  have hsettle (hw : Settles s.worker (s.worker.receive call r)) (hn : s.heard i = none) :
      Leased (s.keepTime { s.base with
        worker := s.worker.receive call r
        responses := s.base.responses.eraseIdx i } (.receive i)) := by
    simp only [Clocked.keepTime, hn]
    exact hdrop (h.setWorker hw)
  cases hm : s.worker.main with
  | beating c =>
    by_cases hc : c = call
    · subst hc
      cases r with
      | heartbeat ids offers =>
        have hheard : s.heard i = some ids := by simp [Clocked.heard, hm, hi]
        have hrec : s.worker.receive c (.heartbeat ids offers) =
            { s.worker with main := .cancelling ids (offers.take maxClaimsPerHeartbeat) } := by
          simp [Worker.receive, hm]
        simp only [Clocked.keepTime, hheard, hrec]
        exact hdrop (h.hear hm hmem)
      | claim a | complete | rejected =>
        refine hsettle ?_ (by simp [Clocked.heard, hm, hi])
        simp only [Worker.receive, hm, if_true]
        exact settles_main (by simp) (by simp) (by simp [Main.answered])
    · refine hsettle ?_ (by cases r <;> simp [Clocked.heard, hm, hi, hc])
      simp only [Worker.receive, hm, if_neg hc]
      exact settles_taskReturn ..
  | claiming c runId todo =>
    have hheard : s.heard i = none := by simp [Clocked.heard, hm]
    by_cases hc : c = call
    · subst hc
      cases r with
      | claim a =>
        cases a with
        | none =>
          refine hsettle ?_ hheard
          simp only [Worker.receive, hm, if_true]
          exact settles_main (by simp) (by simp) (by simp [hm, Main.answered])
        | some a =>
          have hrec : s.worker.receive c (.claim (some a)) =
              { s.worker.accept a with main := .offered todo } := by simp [Worker.receive, hm]
          simp only [Clocked.keepTime, hheard, hrec]
          exact hdrop (h.accept hm hmem)
      | heartbeat ids offers | complete | rejected =>
        refine hsettle ?_ hheard
        simp only [Worker.receive, hm, if_true]
        exact settles_main (by simp) (by simp) (by simp [hm, Main.answered])
    · refine hsettle ?_ hheard
      simp only [Worker.receive, hm, if_neg hc]
      exact settles_taskReturn ..
  | idle | cancelling ids offers | offered todo =>
    refine hsettle ?_ (by simp [Clocked.heard, hm])
    simp only [Worker.receive, hm]
    exact settles_taskReturn ..

theorem Leased.restart (h : Leased s) :
    Leased (s.keepTime { s.base with worker := .init s.worker.id s.worker.maxConcurrency }
      .restart) :=
  { h with
    sent_le := le_rfl
    deadline_le := le_rfl
    answered := fun ha => by cases ha
    asked := fun c activeRuns hm => by cases hm
    renewed := fun c hm => by cases hm
    told := fun c ids offers hm => by cases hm
    taken := fun c runId todo hm => by cases hm
    granted := fun c runId todo a hm => by cases hm
    held := fun id hid => absurd hid (AList.notMem_empty id) }

/-! ### Every step keeps the promises -/

theorem leased_workerStep (h : Leased s) {a : Action} {base : System}
    (ha : workerStep s.base a = some base) : Leased (s.keepTime base a) := by
  cases a with
  | beat =>
    simp only [workerStep] at ha
    split at ha
    · obtain rfl := Option.some.inj ha
      exact h.beat
    · cases ha
  | cancelNext =>
    simp only [workerStep] at ha
    split at ha
    · rename_i hm
      obtain rfl := Option.some.inj ha
      exact h.setWorker
        (settles_main (by simp) (by simp) (by simp [Clocked.worker, hm, Main.answered]))
    · rename_i runId ids offers hm
      obtain rfl := Option.some.inj ha
      have hrun : (s.worker.cancelRun runId).running = s.worker.running := by
        unfold Worker.cancelRun
        split <;> rfl
      refine h.setWorker
        ⟨fun id hid => ?_, by simp, by simp, by simp [Clocked.worker, hm, Main.answered]⟩
      exact hrun ▸ hid
    · cases ha
  | claimNext =>
    simp only [workerStep] at ha
    split at ha
    · rename_i hm
      split at ha
      · obtain rfl := Option.some.inj ha
        exact h.claimNext hm
      · cases ha
    · cases ha
  | endClaims =>
    simp only [workerStep] at ha
    split at ha
    · obtain rfl := Option.some.inj ha
      exact h.setWorker (settles_main (by simp) (by simp) (by simp [Main.answered]))
    · cases ha
  | receive i =>
    obtain ⟨⟨call, r⟩, hi, rfl⟩ := Option.map_eq_some_iff.mp ha
    exact h.receive hi
  | giveUp call =>
    obtain rfl := Option.some.inj ha
    exact h.setWorker (settles_giveUp s.worker call)
  | runEnd i o =>
    obtain ⟨task, -, ha⟩ := Option.bind_eq_some_iff.mp ha
    split at ha
    · obtain rfl := Option.some.inj ha
      exact h.setWorker (.of_eq rfl fun _ hid => hid)
    · cases ha
  | report i =>
    obtain ⟨task, -, ha⟩ := Option.bind_eq_some_iff.mp ha
    split at ha
    · rename_i body tries _
      obtain rfl := Option.some.inj ha
      have hw : Settles s.worker
          (s.worker.setPhase i task (.reporting body tries (some s.base.calls))) :=
        .of_eq rfl fun _ hid => hid
      exact h.sendReport hw body
    · cases ha
  | leave i =>
    obtain ⟨task, -, ha⟩ := Option.bind_eq_some_iff.mp ha
    split at ha
    · obtain rfl := Option.some.inj ha
      exact h.setWorker (.of_eq rfl fun _ hid => (AList.mem_erase.mp hid).2)
    · cases ha
  | watchdog =>
    obtain rfl := Option.some.inj ha
    exact h.setWorker (.of_eq rfl fun _ hid => hid)
  | restart =>
    obtain rfl := Option.some.inj ha
    exact h.restart
  | _ => cases ha

theorem leased_networkStep (h : Leased s) {a : Action} {base : System}
    (ha : networkStep s.base a = some base) : Leased (s.keepTime base a) := by
  cases a with
  | loseRequest i =>
    obtain rfl := Option.some.inj ha
    exact h.pull i
  | loseResponse i =>
    obtain rfl := Option.some.inj ha
    exact h.forget (fun _ hp => hp) (fun _ => List.mem_of_mem_eraseIdx) (fun _ hb => hb)
      fun _ hp => hp
  | repeatRequest i =>
    obtain ⟨m, hm, rfl⟩ := Option.map_eq_some_iff.mp ha
    have hmem := List.mem_of_getElem? hm
    exact h.forget (by simpa [or_imp, forall_and] using hmem) (fun _ hp => hp) (fun _ hb => hb)
      fun _ hp => hp
  | repeatResponse i =>
    obtain ⟨m, hm, rfl⟩ := Option.map_eq_some_iff.mp ha
    have hmem := List.mem_of_getElem? hm
    exact h.forget (fun _ hp => hp) (by simpa [or_imp, forall_and] using hmem) (fun _ hb => hb)
      fun _ hp => hp
  | _ => cases ha

theorem leased_managerStep (h : Leased s) {a : Action} {base : System} (hal : s.Allowed a)
    (ha : managerStep scaleDelay s.base a = some base) : Leased (s.keepTime base a) := by
  cases a with
  | manager b =>
    obtain ⟨m, hm, rfl⟩ := Option.map_eq_some_iff.mp ha
    have hrun : Runs.exec (Manager.step scaleDelay) s.base.manager [b] = some m := by simp [hm]
    have htimely : b.Timely s.clock := hal
    exact h.setManager (by simpa using htimely) hrun
  | serveHeartbeat i now | serveClaim i token now => cases hal
  | serveComplete i =>
    simp only [managerStep] at ha
    split at ha
    · rename_i call body hi
      obtain ⟨m, hm, rfl⟩ := Option.map_eq_some_iff.mp ha
      have hrun : Runs.exec (Manager.step scaleDelay) s.base.manager [.request body] = some m := by
        simp [hm]
      have hset := (h.setManager (by simp [Action.Timely]) hrun).pull i
      refine hset.setServing fun p hp => ?_
      rcases List.mem_append.mp hp with hp | hp
      · exact h.serving_lt hp
      · rw [List.mem_singleton.mp hp]
        exact h.fresh call (mem_flying.mpr (Or.inl ⟨_, List.mem_of_getElem? hi⟩))
    · cases ha
  | answer i =>
    obtain ⟨p, hp, ha⟩ := Option.bind_eq_some_iff.mp ha
    obtain ⟨hd, -, ha⟩ := Option.bind_eq_some_iff.mp ha
    split at ha
    · rename_i code _
      obtain rfl := Option.some.inj ha
      have hcall : p.2 < s.base.calls := h.serving_lt (List.mem_of_getElem? hp)
      have hpush : Leased (s.push p.2 (if code = .ok then .complete else .rejected)) := by
        split <;> exact h.pushOther hcall (by simp) (by simp)
      exact hpush.setServing fun p hp => h.serving_lt (List.mem_of_mem_eraseIdx hp)
    · cases ha
  | _ => cases ha

theorem leased_cluster (h : Leased s) {a : Action} {base : System} (hal : s.Allowed a)
    (ha : Cluster.step scaleDelay s.base a = some base) : Leased (s.keepTime base a) := by
  unfold Cluster.step at ha
  cases a with
  | manager _ | serveHeartbeat _ _ | serveClaim _ _ _ | serveComplete _ | answer _ =>
    exact leased_managerStep h hal ha
  | loseRequest _ | repeatRequest _ | loseResponse _ | repeatResponse _ =>
    exact leased_networkStep h ha
  | _ => exact leased_workerStep h ha

theorem Leased.startBeat (h : Leased s) {i call : ℕ} {activeRuns : List (String × String)}
    (hi : s.base.requests[i]? = some (call, .heartbeat activeRuns)) :
    Leased { (s.pull i).setDb (touchHeartbeat s.db s.worker.id) with
      beats := s.beats ++ [⟨call, activeRuns, activeRuns.take 256, []⟩] } := by
  have hmem : (call, Request.heartbeat activeRuns) ∈ s.base.requests := List.mem_of_getElem? hi
  have htouch : Leased ((s.pull i).setDb (touchHeartbeat s.db s.worker.id)) := by
    unfold touchHeartbeat
    split
    · exact (h.pull i).setDb rfl (by simp [leaseStamp])
    · exact h.pull i
  exact { htouch with
    fresh := fun c hf => by
      rcases mem_flying.mp hf with hq | hr | hs | ⟨b, hb, hbc⟩ | hc
      · exact htouch.fresh c (mem_flying.mpr (Or.inl hq))
      · exact htouch.fresh c (mem_flying.mpr (Or.inr (Or.inl hr)))
      · exact htouch.fresh c (mem_flying.mpr (Or.inr (Or.inr (Or.inl hs))))
      · rcases List.mem_append.mp hb with hb | hb
        · exact htouch.fresh c (mem_flying.mpr (Or.inr (Or.inr (Or.inr (Or.inl ⟨b, hb, hbc⟩)))))
        · rw [← hbc, List.mem_singleton.mp hb]
          exact h.fresh call (mem_flying.mpr (Or.inl ⟨_, hmem⟩))
      · exact htouch.fresh c (mem_flying.mpr (Or.inr (Or.inr (Or.inr (Or.inr hc)))))
    renewed := fun c hm b hb hbc => by
      rcases List.mem_append.mp hb with hb | hb
      · exact htouch.renewed c hm b hb hbc
      · obtain rfl := List.mem_singleton.mp hb
        obtain rfl : call = c := hbc
        exact ⟨h.asked call activeRuns hm hmem, by simp⟩ }

theorem Leased.renew (h : Leased s) {j : ℕ} {b : Beat} {runId token : String}
    {todo : List (String × String)} (hj : s.beats[j]? = some b) :
    let q : Stmt := .updateRun (.renewRunLease runId s.worker.id token s.clock)
    let valid := if 0 < changed s.db q then runId :: b.valid else b.valid
    Leased { s.setDb (after s.db q) with beats := s.beats.set j { b with todo, valid } } := by
  intro q valid
  have hset : Leased (s.setDb (after s.db q)) := h.setDb rfl (by simp [q, leaseStamp])
  have hb := List.mem_of_getElem? hj
  exact { hset with
    fresh := by
      have hcalls : (s.beats.set j { b with todo, valid }).map Beat.call = s.beats.map Beat.call :=
        Slots.map_set_of_eq hj rfl
      simp only [Clocked.flying, hcalls]
      exact hset.fresh
    renewed := fun c hm x hx hxc => by
      rcases List.mem_or_eq_of_mem_set hx with hx | rfl
      · exact hset.renewed c hm x hx hxc
      · obtain ⟨hall, hvalid⟩ := hset.renewed c hm b hb hxc
        refine ⟨hall, fun id hid => ?_⟩
        have hcases : (0 < changed s.db q ∧ id = runId) ∨ id ∈ b.valid := by
          simp only [valid] at hid
          split at hid
          · rename_i hc
            exact (List.mem_cons.mp hid).imp_left fun hid => ⟨hc, hid⟩
          · exact Or.inr hid
        rcases hcases with ⟨hc, rfl⟩ | hid
        · -- A renewal that has just been made counts from now.
          have hsent := h.sent_le
          refine (leasedTo_of_renewed h.manager.valid hc).mono ?_
          exact Int.add_le_add_right hsent runLeaseSecs
        · exact hvalid id hid }

theorem Leased.respond (h : Leased s) {j : ℕ} {b : Beat} (hj : s.beats[j]? = some b) :
    Leased { s.push b.call (heartbeatResponse s.base.manager s.worker.id b.activeRuns b.valid) with
      beats := s.beats.eraseIdx j } := by
  have hb := List.mem_of_getElem? hj
  have hcall : b.call < s.base.calls :=
    h.fresh _ (mem_flying.mpr (Or.inr (Or.inr (Or.inr (Or.inl ⟨b, hb, rfl⟩)))))
  refine Leased.dropBeat (h.push hcall ?_ ?_) j
  · intro ids offers hr hm id hid hn
    obtain ⟨hall, hvalid⟩ := h.renewed b.call hm b hb rfl
    refine hvalid id ?_
    -- Reported and not named: its renewal has gone through.
    by_contra hinv
    obtain ⟨rfl, -⟩ := Response.heartbeat.inj hr
    refine hn (List.mem_append_left _ (List.mem_filter.mpr ⟨hall id hid, ?_⟩))
    simpa using hinv
  · intro a runId todo hr
    cases hr

theorem Leased.take (h : Leased s) {call i : ℕ} {runId token : String} {m : State}
    (hi : s.base.requests[i]? = some (call, .claim runId))
    (hm : Cluster.takeRun s.base.manager s.worker.id runId token s.clock = (m, none)) :
    Leased { (s.pull i).setDb m.db with claims := s.claims ++ [(call, runId)] } := by
  obtain ⟨queued, -, -, hc, rfl⟩ := takeRun_none hm
  have hclaimed : Leased ((s.pull i).setDb (after s.db (claim runId s.worker.id token s.clock))) :=
    (h.pull i).setDb rfl (by rintro _ ⟨⟩; rfl)
  have hset : Leased ((s.pull i).setDb
      (afterClaim s.db runId s.worker.id token queued.jobId s.clock)) :=
    hclaimed.setDb rfl (by simp [leaseStamp])
  have hrow : LeasedTo (afterClaim s.db runId s.worker.id token queued.jobId s.clock) runId
      (s.clock + runLeaseSecs) := by
    obtain ⟨r, -, -, hr⟩ := hc.row h.manager.valid
    intro r' hr' _
    rw [run_afterClaim] at hr'
    rw [Clocked.db, hr, Option.some.injEq] at hr'
    exact ⟨s.clock + runLeaseSecs, by rw [← hr']; rfl, le_rfl⟩
  exact { hset with
    fresh := fun c hf => by
      rcases mem_flying.mp hf with hq | hr | hs | hb | ⟨id, hid⟩
      · exact hset.fresh c (mem_flying.mpr (Or.inl hq))
      · exact hset.fresh c (mem_flying.mpr (Or.inr (Or.inl hr)))
      · exact hset.fresh c (mem_flying.mpr (Or.inr (Or.inr (Or.inl hs))))
      · exact hset.fresh c (mem_flying.mpr (Or.inr (Or.inr (Or.inr (Or.inl hb)))))
      · rcases List.mem_append.mp hid with hid | hid
        · exact hset.fresh c (mem_flying.mpr (Or.inr (Or.inr (Or.inr (Or.inr ⟨id, hid⟩)))))
        · obtain ⟨rfl, -⟩ : c = call ∧ id = runId := by simpa using hid
          exact h.fresh c (mem_flying.mpr (Or.inl ⟨_, List.mem_of_getElem? hi⟩))
    taken := fun c id todo hmain p hp hpc => by
      rcases List.mem_append.mp hp with hp | hp
      · exact hset.taken c id todo hmain p hp hpc
      · rw [List.mem_singleton.mp hp]
        exact hrow.mono (Int.add_le_add_right h.sent_le runLeaseSecs) }

theorem Leased.answerClaim (h : Leased s) {j : ℕ} {p : ℕ × String} (hj : s.claims[j]? = some p) :
    Leased { s.push p.1 (claimResponse s.base.manager p.2) with claims := s.claims.eraseIdx j } := by
  have hp := List.mem_of_getElem? hj
  have hcall : p.1 < s.base.calls :=
    h.fresh _ (mem_flying.mpr (Or.inr (Or.inr (Or.inr (Or.inr ⟨p.2, hp⟩)))))
  refine Leased.dropClaim (h.push hcall ?_ ?_) j
  · intro ids offers hr
    unfold claimResponse at hr
    split at hr
    · cases hr
    · split at hr <;> cases hr
  · intro a runId todo hr hm
    have hid : a.runId = p.2 := by
      unfold claimResponse at hr
      split at hr
      · cases hr
      · split at hr <;> cases hr
        rfl
    rw [hid]
    exact h.taken p.1 runId todo hm p hp rfl

theorem leased_step {e : Event} (h : Leased s) (hs : s.step scaleDelay e = some s') :
    Leased s' := by
  cases e with
  | tick =>
    obtain rfl := Option.some.inj hs
    exact { h with
      sent_le := by
        have := h.sent_le
        simp only
        omega }
  | cluster a =>
    simp only [Clocked.step] at hs
    split at hs
    · rename_i hal
      obtain ⟨base, hbase, rfl⟩ := Option.map_eq_some_iff.mp hs
      exact leased_cluster h hal hbase
    · cases hs
  | startBeat i =>
    simp only [Clocked.step] at hs
    split at hs
    · rename_i hi
      obtain rfl := Option.some.inj hs
      exact h.startBeat hi
    · cases hs
  | renew j =>
    obtain ⟨b, hj, hs⟩ := Option.bind_eq_some_iff.mp hs
    split at hs
    · cases hs
    · obtain rfl := Option.some.inj hs
      exact h.renew hj
  | respond j =>
    obtain ⟨b, hj, hs⟩ := Option.bind_eq_some_iff.mp hs
    split at hs
    · obtain rfl := Option.some.inj hs
      exact h.respond hj
    · cases hs
  | failBeat j =>
    obtain ⟨b, hj, rfl⟩ := Option.map_eq_some_iff.mp hs
    have hcall := h.fresh b.call
      (mem_flying.mpr (Or.inr (Or.inr (Or.inr (Or.inl ⟨b, List.mem_of_getElem? hj, rfl⟩)))))
    exact (h.pushOther hcall (by simp) (by simp)).dropBeat j
  | takeRun i token =>
    simp only [Clocked.step] at hs
    split at hs
    · rename_i call runId hi
      have hcall := h.fresh call (mem_flying.mpr (Or.inl ⟨_, List.mem_of_getElem? hi⟩))
      split at hs
      · rename_i r hm
        obtain rfl := Option.some.inj hs
        rcases (takeRun_some hm).2 with rfl | rfl <;>
          exact (h.pull i).pushOther hcall (by simp) (by simp)
      · rename_i hm
        obtain rfl := Option.some.inj hs
        exact h.take hi hm
    · cases hs
  | answerClaim j =>
    obtain ⟨p, hj, rfl⟩ := Option.map_eq_some_iff.mp hs
    exact h.answerClaim hj
  | failClaim j =>
    obtain ⟨p, hj, rfl⟩ := Option.map_eq_some_iff.mp hs
    have hcall := h.fresh p.1
      (mem_flying.mpr (Or.inr (Or.inr (Or.inr (Or.inr ⟨p.2, List.mem_of_getElem? hj⟩)))))
    exact (h.pushOther hcall (by simp) (by simp)).dropClaim j
  | look =>
    obtain rfl := Option.some.inj hs
    have hw : Settles s.worker (if s.deadline ≤ s.clock then s.worker.watchdog else s.worker) := by
      split <;> exact .of_eq rfl fun _ hid => hid
    exact { h.setWorker hw with }

theorem leased_exec {es : List Event} (h : Leased s)
    (hs : Runs.exec (Clocked.step scaleDelay) s es = some s') : Leased s' :=
  Runs.exec_invariant _ Leased (fun _ _ _ hl hs => leased_step hl hs) h hs

end

end Synora.Cluster
