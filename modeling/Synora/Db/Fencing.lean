import Synora.Db.SingleActive

namespace Synora.Db
open Core Table Tables

/-- How the daemon issues the two unconditional updates: `execute_run` starts the run it has
just claimed, and `finish_run` is only given statuses that end a run. -/
def Issued (t : Tables) : Stmt → Prop
  | .updateRun (.setRunStatus id status) => (toDb status).isActive → t.Active id
  | .updateRun (.finishRun _ c _) => (toDb c.status).isActive = false
  | _ => True

/-- The requests that carry a lease: renewal, completion, retry and log upload. -/
inductive Fenced (id worker token : String) (now : Time) : Stmt → Prop
  | renew : Fenced id worker token now (.updateRun (.renewRunLease id worker token now))
  | finish (expected : ℕ) (c : Completion) : Fenced id worker token now
      (.updateRun (.finishActiveRunFenced id expected c (some (worker, token)) now))
  | retry (expected : ℕ) (nextRetryAt : Time) (retryCount : ℕ) : Fenced id worker token now
      (.updateRun (.setRetryFromActiveFenced id expected nextRetryAt retryCount
        (some (worker, token)) now))
  | log (job content : String) : Fenced id worker token now
      (.insertLogFenced id worker token job content now)

/-- `worker` made the most recent successful claim of `id`, it issued `token`, and the run has
been active in every state since. -/
def LastClaim (qs : List Stmt) (id worker token : String) : Prop :=
  ∃ pre post now, qs = pre ++ claim id worker token now :: post ∧
    Claims (afterAll empty pre) id worker token now ∧
    (∀ k ≤ post.length,
      (afterAll empty (pre ++ claim id worker token now :: post.take k)).Active id) ∧
    ∀ p p' worker' token' now', post = p ++ claim id worker' token' now' :: p' →
      ¬Claims (afterAll empty (pre ++ claim id worker token now :: p)) id worker' token' now'

theorem not_claims_of_active_self {t : Tables} (hv : t.Valid) {id worker token : String}
    {now : Time} (ha : t.Active id) : ¬Claims t id worker token now := by
  obtain ⟨r, hr, hact⟩ := ha
  exact not_claims_of_active hv hr hact hr rfl

theorem LastClaim.of_claims {qs : List Stmt} {id worker token : String} {now : Time}
    (h : Claims (afterAll empty qs) id worker token now) :
    LastClaim (qs ++ [claim id worker token now]) id worker token := by
  refine ⟨qs, [], now, rfl, h, ?_, ?_⟩
  · intro k _
    simpa [afterAll_append] using h.active (afterAll_valid empty_valid qs)
  · intro p p' worker' token' now' hp
    simp at hp

theorem LastClaim.concat {qs : List Stmt} {id worker token : String} {q : Stmt}
    (h : LastClaim qs id worker token) (ha : (afterAll empty (qs ++ [q])).Active id) :
    LastClaim (qs ++ [q]) id worker token := by
  obtain ⟨pre, post, now, rfl, hc, hact, -⟩ := h
  have hact' : ∀ k ≤ (post ++ [q]).length,
      (afterAll empty (pre ++ claim id worker token now :: (post ++ [q]).take k)).Active id := by
    intro k hk
    by_cases hlast : k ≤ post.length
    · rw [List.take_append_of_le_length hlast]
      exact hact k hlast
    · rw [List.take_of_length_le (by simp at hk ⊢; omega)]
      simpa using ha
  refine ⟨pre, post ++ [q], now, by simp, hc, hact', ?_⟩
  intro p p' worker' token' now' hp
  apply not_claims_of_active_self (afterAll_valid empty_valid _)
  have hk := hact' p.length (by rw [hp]; simp)
  rwa [hp, List.take_left] at hk

/-- Where an active row's lease comes from: this statement's claim, or the row as it was. -/
theorem lease_origin {t : Tables} (hv : t.Valid) {q : Stmt} (hi : Issued t q)
    {id token : String} {r' : RunRow} (hr' : (after t q).run id = some r')
    (ha : r'.status.isActive) (htok : r'.leaseToken = some token) :
    (∃ worker now, q = claim id worker token now ∧ Claims t id worker token now ∧
      r'.workerId = some worker) ∨
    ∃ r, t.run id = some r ∧ r.status.isActive ∧ r.leaseToken = some token ∧
      r.workerId = r'.workerId := by
  obtain h | ⟨u, r, rfl, hr, hg, h, hc⟩ | ⟨-, r, h, hins⟩ | ⟨job, -, h⟩ := after_run hv q id
  · exact Or.inr ⟨r', by rw [← h, hr'], ha, htok, rfl⟩
  · rw [hr', Option.some.injEq] at h
    subst h
    have hid := (run_eq_some hr).2
    cases u with
    | claimRun cid worker tok now =>
      simp only [RunStmt.update, claimRun, decide_eq_true_eq, Option.some.injEq] at hg htok
      obtain rfl : cid = id := hg.1.symm.trans hid
      subst htok
      exact Or.inl ⟨worker, now, rfl, hc, rfl⟩
    | assignQueuedRun aid worker =>
      simp only [RunStmt.update, assignQueuedRun, decide_eq_true_eq] at hg ha
      rw [hg.2.1] at ha
      cases ha
    | unassignOffline =>
      simp only [RunStmt.update, unassignOffline, decide_eq_true_eq] at hg ha
      rw [hg.1] at ha
      cases ha
    | setRunStatus sid status =>
      simp only [RunStmt.update, setRunStatus, decide_eq_true_eq] at hg ha htok ⊢
      obtain rfl : sid = id := hg.symm.trans hid
      -- The update has no guard of its own; its issuer answers for the row.
      obtain ⟨r₀, hr₀, hact⟩ := hi ha
      obtain rfl : r = r₀ := Option.some.inj (hr.symm.trans hr₀)
      exact Or.inr ⟨r, hr, hact, htok, rfl⟩
    | finishRun fid c now =>
      simp only [Issued] at hi
      simp [RunStmt.update, finishRun, Completion.write, hi] at ha
    | markJobRunning worker job =>
      simp only [RunStmt.update, markJobRunning, decide_eq_true_eq] at hg htok ⊢
      refine Or.inr ⟨r, hr, ?_, htok, rfl⟩
      obtain ⟨-, -, hs | hs⟩ := hg <;> rw [hs] <;> rfl
    | setCancellingByJob job =>
      simp only [RunStmt.update, setCancellingByJob, decide_eq_true_eq] at hg htok ⊢
      refine Or.inr ⟨r, hr, ?_, htok, rfl⟩
      cases hs : r.status <;> rw [hs] at hg <;> first | rfl | exact absurd hg.2 (by decide)
    | renewRunLease lid worker tok now =>
      exact Or.inr ⟨r, hr, ha, htok, rfl⟩
    | finishActiveRunFenced fid expected c fence now =>
      simp only [RunStmt.update, finishActiveRunFenced, decide_eq_true_eq] at hg
      exact Or.inr ⟨r, hr, hg.2.2.2, htok, rfl⟩
    | dropSupersededRuns now => cases ha
    | cancelChanged job now => cases ha
    | expireRun eid now => cases ha
    | setRunLost eid now => cases ha
    | setRetry sid next count => cases ha
    | setRetryFromActiveFenced sid expected next count fence now => cases ha
    | requeueRetry qid count now => cases ha
  · rw [hr', Option.some.injEq] at h
    rw [h, hins.leaseToken] at htok
    cases htok
  · rw [hr'] at h
    cases h

/-- Every active, leased row belongs to the last claim of its run. -/
theorem lastClaim_of_active {qs : List Stmt} (hi : Runs.Along step Issued empty qs)
    {id token : String} {r : RunRow} (hr : (afterAll empty qs).run id = some r)
    (ha : r.status.isActive) (htok : r.leaseToken = some token) :
    ∃ worker, r.workerId = some worker ∧ LastClaim qs id worker token := by
  induction qs using List.reverseRecOn generalizing r with
  | nil => simp [empty, Tables.run, lookup] at hr
  | append_singleton qs q ih =>
    obtain ⟨hpre, hlast⟩ := (Runs.along_append step).mp hi
    have hact : (afterAll empty (qs ++ [q])).Active id := ⟨r, hr, ha⟩
    rw [afterAll_append, afterAll_cons, afterAll_nil] at hr
    obtain ⟨worker, now, rfl, hc, hw⟩ | ⟨r₀, hr₀, ha₀, ht₀, hw⟩ :=
      lease_origin (afterAll_valid empty_valid qs) (hlast _ (exec_step empty qs)).1 hr ha htok
    · exact ⟨worker, hw, LastClaim.of_claims hc⟩
    · obtain ⟨worker, hw₀, hl⟩ := ih hpre hr₀ ha₀ ht₀
      exact ⟨worker, hw.symm.trans hw₀, hl.concat hact⟩

/-- A fenced request that changes something meets a row that holds exactly its lease. -/
theorem Fenced.holdsLease {t : Tables} (hv : t.Valid) {id worker token : String} {now : Time}
    {q : Stmt} (h : Fenced id worker token now q) (hw : worker ≠ "") (hc : 0 < changed t q) :
    ∃ r, t.run id = some r ∧ Db.holdsLease worker token now r := by
  cases h with
  | renew =>
    obtain ⟨-, -, r, hr, hg⟩ := changed_updateRun_pos hc
    simp only [RunStmt.update, renewRunLease, decide_eq_true_eq] at hg
    obtain ⟨-, rfl, hl⟩ := hg
    exact ⟨r, hv.run_of_mem hr, hl⟩
  | finish expected c =>
    obtain ⟨-, -, r, hr, hg⟩ := changed_updateRun_pos hc
    simp only [RunStmt.update, finishActiveRunFenced, fenceOk, Option.getD_some, hw, false_or,
      decide_eq_true_eq] at hg
    obtain ⟨rfl, -, ⟨h1, h2, h3⟩, h4⟩ := hg
    exact ⟨r, hv.run_of_mem hr, h1, h2, h3, h4⟩
  | retry expected next count =>
    obtain ⟨-, -, r, hr, hg⟩ := changed_updateRun_pos hc
    simp only [RunStmt.update, setRetryFromActiveFenced, fenceOk, Option.getD_some, hw, false_or,
      decide_eq_true_eq] at hg
    obtain ⟨rfl, -, ⟨h1, h2, h3⟩, h4⟩ := hg
    exact ⟨r, hv.run_of_mem hr, h1, h2, h3, h4⟩
  | log job content =>
    obtain ⟨-, hn, -⟩ | ⟨-, hn⟩ := after_eq t (.insertLogFenced id worker token job content now)
    · rw [hn] at hc
      simp only [Stmt.effect, insertLogFenced] at hc
      split at hc
      · simp at hc
      · rename_i r hr
        split at hc
        · simp at hc
        · rename_i hl
          exact ⟨r, hr, not_not.mp hl⟩
    · omega

/-- A fenced request that reports no row leaves the tables alone. -/
theorem Fenced.after_of_changed_eq_zero {t : Tables} {id worker token : String} {now : Time}
    {q : Stmt} (h : Fenced id worker token now q) (hc : changed t q = 0) : after t q = t := by
  cases h with
  | log job content =>
    obtain ⟨he, hn, -⟩ | ⟨he, -⟩ := after_eq t (.insertLogFenced id worker token job content now)
    · rw [hn] at hc
      rw [he]
      simp only [Stmt.effect, insertLogFenced] at hc ⊢
      split <;> rename_i hrun
      · rfl
      simp only [hrun] at hc
      split <;> rename_i hl
      · rfl
      rw [if_neg hl] at hc
      split <;> rename_i hnone
      · simp [hnone] at hc
      rw [if_neg hnone] at hc
      split <;> rename_i hjob
      · rw [if_pos hjob] at hc
        simp only [updateLogs] at hc ⊢
        rw [update_of_matched_eq_zero _ hc]
      · rfl
    · exact he
  | renew => exact Db.after_of_changed_eq_zero hc
  | finish expected c => exact Db.after_of_changed_eq_zero hc
  | retry expected next count => exact Db.after_of_changed_eq_zero hc

/-- The token a statement stores, if it is a claim. -/
def claimToken : Stmt → Option String
  | .updateRun (.claimRun _ _ token _) => some token
  | _ => none

/-- A request that carries a lease takes effect only for the most recent claim of its run: that
claim was made by its worker and issued its token, the run has been active ever since, and the
lease is unexpired. With tokens issued once, the token of an earlier claim changes nothing. -/
theorem stale_worker_fenced {qs : List Stmt} (hi : Runs.Along step Issued empty qs)
    (hfresh : (qs.filterMap claimToken).Nodup) {id worker token : String} {now : Time} {q : Stmt}
    (hq : Fenced id worker token now q) (hw : worker ≠ "") :
    (0 < changed (afterAll empty qs) q → LastClaim qs id worker token ∧
      ∃ r, (afterAll empty qs).run id = some r ∧ leaseLive now r) ∧
    ∀ pre mid post worker₁ now₁ worker₂ token₂ now₂,
      qs = pre ++ claim id worker₁ token now₁ :: (mid ++ claim id worker₂ token₂ now₂ :: post) →
      Claims (afterAll empty (pre ++ claim id worker₁ token now₁ :: mid))
        id worker₂ token₂ now₂ →
      after (afterAll empty qs) q = afterAll empty qs := by
  have hlive : 0 < changed (afterAll empty qs) q → LastClaim qs id worker token ∧
      ∃ r, (afterAll empty qs).run id = some r ∧ leaseLive now r := by
    intro hc
    obtain ⟨r, hr, hwr, htr, hl, ha⟩ := hq.holdsLease (afterAll_valid empty_valid qs) hw hc
    obtain ⟨w, hw', hlast⟩ := lastClaim_of_active hi hr ha htr
    obtain rfl : worker = w := Option.some.inj (hwr.symm.trans hw')
    exact ⟨hlast, r, hr, hl⟩
  refine ⟨hlive, ?_⟩
  intro pre mid post worker₁ now₁ worker₂ token₂ now₂ hqs hc₂
  apply hq.after_of_changed_eq_zero
  by_contra hne
  obtain ⟨⟨pre', post', now', hqs', -, -, hno⟩, -⟩ := hlive (Nat.pos_of_ne_zero hne)
  -- One position of the run issues the token, so both splits are the same.
  rw [hqs] at hfresh hqs'
  have hb : claimToken (claim id worker₁ token now₁) = some token := rfl
  have hb' : claimToken (claim id worker token now') = some token := rfl
  have hlen := hqs'
  obtain ⟨rfl, rfl⟩ := Runs.split_unique hfresh hb hb' hqs'
  have hclaim := (List.cons.inj (List.append_cancel_left hlen)).1
  rw [hclaim] at hc₂
  exact hno mid post worker₂ token₂ now₂ rfl hc₂

/-- A run that is retried and claimed again by the same worker under a second token. -/
def reclaimed : List Stmt :=
  [.upsertWorker "w", .syncJob "j", .createRun "r" "j" (some "w") .queued 0 90,
    claim "r" "w" "t1" 100,
    .updateRun (.setRetryFromActiveFenced "r" 0 111 1 (some ("w", "t1")) 110),
    .updateRun (.requeueRetry "r" 1 112), claim "r" "w" "t2" 120]

theorem reclaimed_issued : Runs.Along step Issued empty reclaimed :=
  Runs.along_of_forall step (by
    intro q hq t
    simp only [reclaimed, List.mem_cons, List.not_mem_nil, or_false] at hq
    rcases hq with rfl | rfl | rfl | rfl | rfl | rfl | rfl <;> trivial) empty

/-- The second token renews the lease; a completion with the first one is a no-op. -/
theorem stale_worker_fenced_reclaimed :
    (LastClaim reclaimed "r" "w" "t2" ∧
      ∃ r, (afterAll empty reclaimed).run "r" = some r ∧ leaseLive 130 r) ∧
    after (afterAll empty reclaimed) (.updateRun (.finishActiveRunFenced "r" 1
      ⟨.success, some 0, none, none, none, none, 30⟩ (some ("w", "t1")) 130)) =
        afterAll empty reclaimed :=
  ⟨(stale_worker_fenced reclaimed_issued (by decide) (@Fenced.renew _ _ _ 130) (by decide)).1
      (by decide),
    (stale_worker_fenced reclaimed_issued (by decide) (Fenced.finish 1 _) (by decide)).2
      (reclaimed.take 3) [reclaimed[4], reclaimed[5]] [] "w" 100 "w" "t2" 120 rfl (by decide)⟩

end Synora.Db
