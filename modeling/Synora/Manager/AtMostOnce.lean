import Synora.Lib.Slots
import Synora.Manager.Invariant

namespace Synora.Manager
open Core Db Table Slots Engine

variable {scaleDelay : ℕ → F64 → ℕ → ℕ} {s s' : State} {a : Action}

/-- The row has left the attempt of the pair: it is on a later one, or has ended on this one. -/
def Past (attempt : ℕ) (r : RunRow) : Prop :=
  attempt < r.retryCount ∨ (r.retryCount = attempt ∧ r.status.isTerminal)

theorem Past.move {q : Stmt} {attempt : ℕ} {r r' : RunRow} (h : Past attempt r)
    (hm : RowMove q r r') : Past attempt r' := by
  have hle := hm.retryCount_le
  rcases h with hlt | ⟨hn, ht⟩
  · exact Or.inl (by omega)
  · obtain ⟨hs', hn'⟩ := hm.of_terminal ht
    exact Or.inr ⟨hn'.trans hn, by rw [hs']; exact ht⟩

theorem not_past_of_active {r : RunRow} (h : r.status.isActive) : ¬Past r.retryCount r := by
  rintro (hlt | ⟨-, ht⟩)
  · omega
  · rw [DbStatus.not_active_of_terminal ht] at h
    cases h

/-- The request has won its row for this pair and `applied` is not yet known to it. -/
def Handler.unapplied (p : String × ℕ) (h : Handler) : Bool :=
  match h.phase with
  | .won run _ => decide ((h.body.runId, run.retryCount) = p)
  | _ => false

/-- The request has won its row for this pair and has not counted it. -/
def Handler.uncounted (p : String × ℕ) (h : Handler) : Bool :=
  match h.phase with
  | .won run _ | .applied run _ => decide ((h.body.runId, run.retryCount) = p)
  | _ => false

/-- Completions applied for a pair, with those that are about to be. -/
def State.appliedTo (s : State) (p : String × ℕ) : ℕ :=
  s.applied.count p + s.handlers.countP (Handler.unapplied p)

/-- Increments of a counter for a pair, with those that are about to be made. -/
def State.countedTo (s : State) (c : Counter) (p : String × ℕ) : ℕ :=
  s.counted.count (c, p) + s.handlers.countP (Handler.uncounted p)

/-- Each pair is applied and counted once, and by then its row is past the attempt. -/
structure Once (s : State) : Prop where
  applied : ∀ p, s.appliedTo p ≤ 1
  counted : ∀ c p, s.countedTo c p ≤ 1
  past : ∀ p, (0 < s.appliedTo p ∨ ∃ c, 0 < s.countedTo c p) → RowHas s p.1 (Past p.2)

/-- A step that wins no row for any pair. -/
def NoWin (s s' : State) : Prop :=
  ∀ p, s'.appliedTo p ≤ s.appliedTo p ∧ ∀ c, s'.countedTo c p ≤ s.countedTo c p

/-- A step that wins the row of one pair, which was still open and is past it afterwards. -/
def Wins (s s' : State) (p₀ : String × ℕ) : Prop :=
  ¬RowHas s p₀.1 (Past p₀.2) ∧ RowHas s' p₀.1 (Past p₀.2) ∧
    ∀ p, s'.appliedTo p ≤ s.appliedTo p + (if p = p₀ then 1 else 0) ∧
      ∀ c, s'.countedTo c p ≤ s.countedTo c p + (if p = p₀ then 1 else 0)

theorem counters_count_le (body : CompleteRequest) (v : Verdict) (c : Counter)
    (p p' : String × ℕ) :
    ((v.counters body).map fun c => (c, p)).count (c, p') ≤ if p = p' then 1 else 0 := by
  by_cases hp : p = p'
  · subst hp
    rw [if_pos rfl]
    have hinj : Function.Injective fun c : Counter => (c, p) := fun c c' h => (Prod.ext_iff.mp h).1
    exact List.nodup_iff_count_le_one.mp ((v.counters_nodup body).map hinj) _
  · rw [if_neg hp, Nat.le_zero, List.count_eq_zero]
    simp [hp]

theorem appliedTo_setPhase {i : ℕ} {h : Handler} (phase : Phase) (hh : s.handlers[i]? = some h)
    (p : String × ℕ) :
    (s.setPhase i h phase).appliedTo p + (if h.unapplied p then 1 else 0) =
      s.appliedTo p + (if Handler.unapplied p { h with phase } then 1 else 0) := by
  have hset := countP_set_add (p := Handler.unapplied p) { h with phase } hh
  simp only [State.appliedTo, State.setPhase]
  omega

theorem countedTo_setPhase {i : ℕ} {h : Handler} (phase : Phase) (hh : s.handlers[i]? = some h)
    (c : Counter) (p : String × ℕ) :
    (s.setPhase i h phase).countedTo c p + (if h.uncounted p then 1 else 0) =
      s.countedTo c p + (if Handler.uncounted p { h with phase } then 1 else 0) := by
  have hset := countP_set_add (p := Handler.uncounted p) { h with phase } hh
  simp only [State.countedTo, State.setPhase]
  omega

/-- A request that moves to a phase where it owes nothing wins nothing. -/
theorem noWin_setPhase {i : ℕ} {h : Handler} {phase : Phase} (hh : s.handlers[i]? = some h)
    (hp : ∀ p, Handler.uncounted p { h with phase } = false) :
    NoWin s (s.setPhase i h phase) := by
  intro p
  have hu : Handler.unapplied p { h with phase } = false := by
    have := hp p
    cases phase <;> first | rfl | exact this
  constructor
  · have ha := appliedTo_setPhase phase hh p
    simp only [hu, Bool.false_eq_true, if_false] at ha
    omega
  · intro c
    have hc := countedTo_setPhase phase hh c p
    simp only [hp p, Bool.false_eq_true, if_false] at hc
    omega

/-- The guarded update of a verdict: its row was on the attempt and active, and is past it. -/
theorem update_past (inv : Inv s) {h : Handler} {run : RunRow} {v : Verdict} {now : Time}
    {u : RunStmt} (hh : h ∈ s.handlers) (hp : h.phase = .decided run v)
    (hu : v.update h.body run now = some u) (hc : 0 < changed s.db (.updateRun u)) :
    ∃ r, s.db.run h.body.runId = some r ∧ ¬Past run.retryCount r ∧
      ∀ r', (after s.db (.updateRun u)).run h.body.runId = some r' → Past run.retryCount r' := by
  have hsound := inv.verdicts h hh run v hp
  have hid : ∀ r, u.update.guard s.db r → r.id = h.body.runId ∧ r.retryCount = run.retryCount ∧
      r.status.isActive ∧ Past run.retryCount (u.update.write r) := by
    intro r hg
    cases v with
    | answer code => cases hu
    | finish c =>
      cases hu
      simp only [RunStmt.update, finishActiveRunFenced, decide_eq_true_eq] at hg
      exact ⟨hg.1, hg.2.1, hg.2.2.2, Or.inr ⟨hg.2.1, hsound⟩⟩
    | retry nextRetryAt count =>
      cases hu
      simp only [RunStmt.update, setRetryFromActiveFenced, decide_eq_true_eq] at hg
      have hcount : count = run.retryCount + 1 := hsound
      refine ⟨hg.1, hg.2.1, hg.2.2.2, Or.inl ?_⟩
      change run.retryCount < count
      omega
  obtain ⟨r, hr, hg, hafter⟩ := changed_updateRun_row inv.valid (fun r hg => (hid r hg).1) hc
  obtain ⟨-, hn, ha, hpast⟩ := hid r hg
  refine ⟨r, hr, ?_, ?_⟩
  · rw [← hn]
    exact not_past_of_active ha
  · intro r' hr'
    rw [hafter, Option.some.injEq] at hr'
    exact hr' ▸ hpast

theorem Moves.wins (inv : Inv s) (h : Moves scaleDelay s a s') :
    NoWin s s' ∨ ∃ p, Wins s s' p := by
  cases h with
  | request body =>
    refine Or.inl fun p => ?_
    simp [State.appliedTo, State.countedTo, Handler.unapplied, Handler.uncounted]
  | load hh hp hr => exact Or.inl (noWin_setPhase hh fun _ => rfl)
  | decide hh hp hv => exact Or.inl (noWin_setPhase hh fun _ => rfl)
  | requeue hh hp hid => exact Or.inl (noWin_setPhase hh fun _ => rfl)
  | log hh hp => exact Or.inl (noWin_setPhase hh fun _ => rfl)
  | answer a code hh => exact Or.inl (noWin_setPhase hh fun _ => rfl)
  | update hh hp hu hc =>
    rename_i i now h run v u
    -- The guarded update is the one step that can win: its row leaves the attempt with it.
    right
    refine ⟨(h.body.runId, run.retryCount), ?_, ?_, ?_⟩
    · intro hpast
      obtain ⟨r, hr, hnot, -⟩ := update_past inv (List.mem_of_getElem? hh) hp hu hc
      exact hnot (hpast.row r hr)
    · obtain ⟨r, hr, -, hpast⟩ := update_past inv (List.mem_of_getElem? hh) hp hu hc
      exact ⟨inv.issued _ r hr, hpast⟩
    · intro p
      have ha := appliedTo_setPhase (.won run v) hh p
      have hd (c : Counter) := countedTo_setPhase (.won run v) hh c p
      simp only [Handler.unapplied, Handler.uncounted, hp, decide_eq_true_eq, Bool.false_eq_true,
        if_false, eq_comm (b := p)] at ha hd
      exact ⟨Nat.le_of_eq ha, fun c => Nat.le_of_eq (hd c)⟩
  | project hh hp =>
    rename_i i h run v
    -- The request moves from owing `applied` to having it; the sum stays.
    refine Or.inl fun p => ⟨?_, fun c => ?_⟩
    · have ha := appliedTo_setPhase (.applied run v) hh p
      simp only [Handler.unapplied, hp, decide_eq_true_eq, Bool.false_eq_true, if_false] at ha
      simp only [State.appliedTo, State.setPhase, List.count_cons, beq_iff_eq] at ha ⊢
      omega
    · have hd := countedTo_setPhase (.applied run v) hh c p
      simp only [Handler.uncounted, hp] at hd
      exact Nat.le_of_eq (Nat.add_right_cancel hd)
  | count hh hp =>
    rename_i i h run v
    generalize hphase : (if .lost ∈ v.counters h.body then Phase.requeue run
      else .logging run) = phase
    have hquiet (p : String × ℕ) : Handler.uncounted p { h with phase } = false := by
      rw [← hphase]
      split <;> rfl
    refine Or.inl fun p => ⟨(noWin_setPhase hh hquiet p).1, fun c => ?_⟩
    have hd := countedTo_setPhase phase hh c p
    have hle := counters_count_le h.body v c (h.body.runId, run.retryCount) p
    simp only [hquiet p, Bool.false_eq_true, if_false] at hd
    simp only [Handler.uncounted, hp, decide_eq_true_eq] at hd
    simp only [State.countedTo, State.setPhase, List.count_append] at hd ⊢
    omega
  | _ => exact Or.inl fun p => ⟨le_rfl, fun c => le_rfl⟩

theorem once_init (jobs : List JobSpec) : Once (State.init jobs) where
  applied p := Nat.zero_le 1
  counted c p := Nat.zero_le 1
  past p h := by
    rcases h with h | ⟨c, h⟩
    · exact absurd h (lt_irrefl 0)
    · exact absurd h (lt_irrefl 0)

theorem once_step (inv : Inv s) (ho : Once s) (h : step scaleDelay s a = some s') : Once s' := by
  have hm := step_moves h
  have hkeep (p : String × ℕ) (hp : RowHas s p.1 (Past p.2)) : RowHas s' p.1 (Past p.2) :=
    hp.step inv hm fun q r r' _ _ hpast hmove => hpast.move hmove
  obtain hno | ⟨p₀, hopen, hpast, hle⟩ := hm.wins inv
  · refine ⟨fun p => Nat.le_trans (hno p).1 (ho.applied p),
      fun c p => Nat.le_trans ((hno p).2 c) (ho.counted c p), fun p hp => hkeep p (ho.past p ?_)⟩
    rcases hp with hp | ⟨c, hp⟩
    · exact Or.inl (Nat.lt_of_lt_of_le hp (hno p).1)
    · exact Or.inr ⟨c, Nat.lt_of_lt_of_le hp ((hno p).2 c)⟩
  · -- Nothing has been applied to, or counted for, a pair whose row is still open.
    have ha₀ : s.appliedTo p₀ = 0 := by
      by_contra hne
      exact hopen (ho.past p₀ (Or.inl (Nat.pos_of_ne_zero hne)))
    have hc₀ (c : Counter) : s.countedTo c p₀ = 0 := by
      by_contra hne
      exact hopen (ho.past p₀ (Or.inr ⟨c, Nat.pos_of_ne_zero hne⟩))
    refine ⟨fun p => ?_, fun c p => ?_, fun p hp => ?_⟩
    · have hp := (hle p).1
      have hold := ho.applied p
      split at hp
      · subst p
        omega
      · omega
    · have hp := (hle p).2 c
      have hold := ho.counted c p
      split at hp
      · subst p
        have := hc₀ c
        omega
      · omega
    · by_cases hpp : p = p₀
      · exact hpp ▸ hpast
      · apply hkeep p
        apply ho.past p
        rcases hp with hp | ⟨c, hp⟩
        · have hle' := (hle p).1
          rw [if_neg hpp] at hle'
          exact Or.inl (by omega)
        · have hle' := (hle p).2 c
          rw [if_neg hpp] at hle'
          exact Or.inr ⟨c, by omega⟩

/-- A row in a terminal status keeps it through any further run. -/
theorem terminal_exec {as : List Action} {t : State} (inv : Inv t)
    (h : Runs.exec (step scaleDelay) t as = some s) {id : String} {r r' : RunRow}
    (hr : t.db.run id = some r) (ht : r.status.isTerminal) (hr' : s.db.run id = some r') :
    r'.status = r.status := by
  have hinv : Inv s ∧ RowHas s id fun x => x.status = r.status := by
    refine Runs.exec_invariant (step scaleDelay)
      (fun u => Inv u ∧ RowHas u id fun x => x.status = r.status) ?_ ?_ h
    · rintro u a u' ⟨hu, hrow⟩ hstep
      refine ⟨inv_step hu hstep, hrow.step hu (step_moves hstep) ?_⟩
      intro q x x' _ _ hx hm
      exact (hm.of_terminal (by rw [hx]; exact ht)).1.trans hx
    · refine ⟨inv, inv.issued id r hr, ?_⟩
      intro x hx
      rw [hr, Option.some.injEq] at hx
      rw [hx]
  exact hinv.2.row r' hr'

/-- Along every run of the manager, for any requests and any order of its parts: each pair
`(run, retry_count)` sees at most one applied completion and one increment of each counter, and
a row in a terminal status keeps it. -/
theorem complete_at_most_once (scaleDelay : ℕ → F64 → ℕ → ℕ) (jobs : List JobSpec)
    (as : List Action) (s : State)
    (h : Runs.exec (step scaleDelay) (State.init jobs) as = some s) :
    (∀ id attempt, s.applied.count (id, attempt) ≤ 1) ∧
    (∀ c id attempt, s.counted.count (c, id, attempt) ≤ 1) ∧
    ∀ pre post t id r r', as = pre ++ post →
      Runs.exec (step scaleDelay) (State.init jobs) pre = some t →
      t.db.run id = some r → r.status.isTerminal → s.db.run id = some r' →
      r'.status = r.status := by
  have honce : Inv s ∧ Once s :=
    Runs.exec_invariant (step scaleDelay) (fun t => Inv t ∧ Once t)
      (fun _ _ _ hi hs => ⟨inv_step hi.1 hs, once_step hi.1 hi.2 hs⟩)
      ⟨inv_init jobs, once_init jobs⟩ h
  refine ⟨fun id attempt => ?_, fun c id attempt => ?_, ?_⟩
  · exact Nat.le_trans (Nat.le_add_right _ _) (honce.2.applied (id, attempt))
  · exact Nat.le_trans (Nat.le_add_right _ _) (honce.2.counted c (id, attempt))
  · intro pre post t id r r' has hpre hr ht hr'
    obtain ⟨t', ht', hpost⟩ := (Runs.exec_append_eq_some (step scaleDelay)).mp (has ▸ h)
    obtain rfl : t = t' := Option.some.inj (hpre.symm.trans ht')
    exact terminal_exec (inv_exec hpre) hpost hr ht hr'

/-- A job with one retry. -/
def flaky : JobSpec := ⟨"j", true, .script, 1, 60, 0, [], .retry, [], 1⟩

def report (status token : String) (attempt : ℕ) (exitCode : ℤ) : CompleteRequest :=
  ⟨"r", token, "w", some attempt, status, some exitCode, none, none, some 5, none, none⟩

/-- The run `r` is queued for `j` and claimed by `w` under the token `t`. -/
def claimed : List Action :=
  [.statement (.upsertWorker "w"), .statement (.syncJob "j"), .dispatch "r" "j" none 0 90,
    .statement (.updateRun (.claimRun "r" "w" "t" 100))]

/-- The attempt of `claimed` is reported failed twice, retried, and ends in a success. -/
def retriedOnce : List Action := claimed ++
  [.request (report "failed" "t" 0 1), .request (report "failed" "t" 0 1),
    .load 0, .load 1, .decide 0 110, .decide 1 110, .update 0 110, .update 1 110, .project 0,
    .count 0, .tickList 170, .tickNext false, .tickRequeue,
    .statement (.updateRun (.claimRun "r" "w" "t'" 180)),
    .request (report "success" "t'" 1 0), .load 2, .decide 2 190, .update 2 190, .project 2,
    .count 2]

theorem complete_at_most_once_retried :
    ∃ s r, Runs.exec (step fun d _ _ => d) (State.init [flaky])
        (retriedOnce ++ [.request (report "success" "t'" 1 0), .load 3, .decide 3 195,
          .update 3 195]) = some s ∧
      s.applied = [("r", 1), ("r", 0)] ∧ s.db.run "r" = some r ∧ r.status = .success ∧
      (∀ id attempt, s.applied.count (id, attempt) ≤ 1) ∧
      ∀ c id attempt, s.counted.count (c, id, attempt) ≤ 1 := by
  let run := complete_at_most_once (fun d _ _ => d) [flaky]
    (retriedOnce ++ [.request (report "success" "t'" 1 0), .load 3, .decide 3 195, .update 3 195])
    _ rfl
  exact ⟨_, _, rfl, rfl, rfl, run.2.2 retriedOnce _ _ "r" _ _ rfl rfl rfl rfl rfl, run.1, run.2.1⟩

end Synora.Manager
