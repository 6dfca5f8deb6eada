import Synora.Manager.System

namespace Synora.Manager
open Core Db Engine

variable {scaleDelay : ℕ → F64 → ℕ → ℕ}

/-- Everything a step can do, with the guards it has passed. -/
inductive Moves (scaleDelay : ℕ → F64 → ℕ → ℕ) (s : State) : Action → State → Prop
  | statement {q : Stmt} (hf : free q) :
      Moves scaleDelay s (.statement q) { s with db := after s.db q }
  | reload (jobs : List JobSpec) (ht : s.ticker = .idle) (hr : s.reaper = .idle) :
      Moves scaleDelay s (.reload jobs) { s with jobs }
  | dispatch {id job : String} {worker : Option String} {priority : ℤ} {now : Time}
      (hid : id ∉ s.runIds) :
      Moves scaleDelay s (.dispatch id job worker priority now) { s with
        db := after s.db (.createRun id job worker .queued priority now)
        runIds := id :: s.runIds }
  | skip {id job dep : String} {now : Time} (hid : id ∉ s.runIds) :
      Moves scaleDelay s (.skip id job dep now) { s with
        db := after s.db (.createRun id job none .skipped 0 now)
        runIds := id :: s.runIds
        skips := (id, dep) :: s.skips }
  | skipFinish {i : ℕ} {now : Time} {p : String × String} (hp : p ∈ s.skips) :
      Moves scaleDelay s (.skipFinish i now) { s with
        db := after s.db (.updateRun (.finishRun p.1 (skipCompletion p.2) now)) }
  | request (body : CompleteRequest) :
      Moves scaleDelay s (.request body) { s with handlers := s.handlers ++ [⟨body, .received⟩] }
  | load {i : ℕ} {h : Handler} {run : RunRow} (hh : s.handlers[i]? = some h)
      (hp : h.phase = .received) (hr : s.db.run h.body.runId = some run) :
      Moves scaleDelay s (.load i) (s.setPhase i h (.loaded run))
  | decide {i : ℕ} {ended : Time} {h : Handler} {run : RunRow} {v : Verdict}
      (hh : s.handlers[i]? = some h) (hp : h.phase = .loaded run)
      (hv : judge scaleDelay (s.job run.jobId) run h.body ended = v) :
      Moves scaleDelay s (.decide i ended) (s.setPhase i h (.decided run v))
  | update {i : ℕ} {now : Time} {h : Handler} {run : RunRow} {v : Verdict} {u : RunStmt}
      (hh : s.handlers[i]? = some h) (hp : h.phase = .decided run v)
      (hu : v.update h.body run now = some u) (hc : 0 < changed s.db (.updateRun u)) :
      Moves scaleDelay s (.update i now)
        { s.setPhase i h (.won run v) with db := after s.db (.updateRun u) }
  | project {i : ℕ} {h : Handler} {run : RunRow} {v : Verdict} (hh : s.handlers[i]? = some h)
      (hp : h.phase = .won run v) :
      Moves scaleDelay s (.project i) { s.setPhase i h (.applied run v) with
        db := after s.db (.setJobStatusForRun h.body.runId)
        applied := (h.body.runId, run.retryCount) :: s.applied }
  | count {i : ℕ} {h : Handler} {run : RunRow} {v : Verdict} (hh : s.handlers[i]? = some h)
      (hp : h.phase = .applied run v) :
      Moves scaleDelay s (.count i)
        { s.setPhase i h (if .lost ∈ v.counters h.body then .requeue run else .logging run) with
          counted := (v.counters h.body).map (fun c => (c, h.body.runId, run.retryCount)) ++
            s.counted }
  | requeue {i : ℕ} {newId : String} {worker : Option String} {now : Time} {h : Handler}
      {run : RunRow} (hh : s.handlers[i]? = some h) (hp : h.phase = .requeue run)
      (hid : newId ∉ s.runIds) :
      Moves scaleDelay s (.requeue i newId worker now) { s.setPhase i h (.logging run) with
        db := after s.db (.createLostRequeue newId h.body.runId worker now)
        runIds := newId :: s.runIds }
  | log {i : ℕ} {now : Time} {h : Handler} {run : RunRow} {log : String}
      (hh : s.handlers[i]? = some h) (hp : h.phase = .logging run) :
      Moves scaleDelay s (.log i now) { s.setPhase i h (.answered .ok) with
        db := after s.db (.insertLogWith h.body.runId run.jobId
          ("/var/log/synora/" ++ run.jobId ++ "/current.log") log now) }
  | answer (a : Action) {i : ℕ} {h : Handler} (code : StatusCode)
      (hh : s.handlers[i]? = some h) :
      Moves scaleDelay s a (s.setPhase i h (.answered code))
  | tickList {now : Time} (ht : s.ticker = .idle) :
      Moves scaleDelay s (.tickList now) { s with ticker := .loop now (dueRetries s.db now) }
  | tickEnd {queryFailed : Bool} {now : Time} (ht : s.ticker = .loop now []) :
      Moves scaleDelay s (.tickNext queryFailed) { s with ticker := .idle }
  | tickNext {queryFailed : Bool} {now : Time} {run : RunRow} {due : List RunRow}
      {ticker : Ticker} (ht : s.ticker = .loop now (run :: due))
      (hn : ticker = .drop now run due ∨ ticker = .loop now due ∨
        ticker = .requeue now run due) :
      Moves scaleDelay s (.tickNext queryFailed) { s with ticker }
  | tickDrop {now at_ : Time} {run : RunRow} {due : List RunRow}
      (ht : s.ticker = .drop now run due) :
      Moves scaleDelay s (.tickDrop at_) { s with
        db := after s.db (.updateRun (.finishRun run.id disabledCompletion at_))
        ticker := .loop now due }
  | tickRequeue {now : Time} {run : RunRow} {due : List RunRow}
      (ht : s.ticker = .requeue now run due) :
      Moves scaleDelay s .tickRequeue { s with
        db := after s.db (.updateRun (.requeueRetry run.id run.retryCount now))
        ticker := .loop now due }
  | tickFail {now : Time} {run : RunRow} {due : List RunRow}
      (ht : s.ticker = .drop now run due ∨ s.ticker = .requeue now run due) :
      Moves scaleDelay s .tickFail { s with ticker := .loop now due }
  | reapList {now : Time} (ht : s.reaper = .idle) :
      Moves scaleDelay s (.reapList now) { s with reaper := .loop now (expiredRuns s.db now) }
  | reapEnd {now : Time} (ht : s.reaper = .loop now []) :
      Moves scaleDelay s .reapNext { s with reaper := .idle }
  | reapNext {now : Time} {run : RunRow} {expired : List RunRow}
      (ht : s.reaper = .loop now (run :: expired)) :
      Moves scaleDelay s .reapNext { s with
        db := after s.db (.updateRun (.expireRun run.id now))
        reaper := if 0 < changed s.db (.updateRun (.expireRun run.id now)) then
          .lost now run expired else .loop now expired }
  | reapRequeue {newId : String} {worker : Option String} {now at_ : Time} {run : RunRow}
      {expired : List RunRow} (ht : s.reaper = .lost now run expired)
      (hj : (s.job run.jobId).any fun j => decide (j.onWorkerLost = .retry))
      (hid : newId ∉ s.runIds) :
      Moves scaleDelay s (.reapRequeue newId worker at_) { s with
        db := after s.db (.createLostRequeue newId run.id worker at_)
        runIds := newId :: s.runIds
        reaper := .loop now expired }
  | reapSkip (a : Action) {now : Time} {run : RunRow} {expired : List RunRow}
      (ht : s.reaper = .loop now (run :: expired) ∨ s.reaper = .lost now run expired) :
      Moves scaleDelay s a { s with reaper := .loop now expired }

theorem completeStep_moves {s s' : State} {i : ℕ} {h : Handler} {a : Action}
    (hh : s.handlers[i]? = some h) (hi : a.slot = some i)
    (hs : completeStep scaleDelay s i h a = some s') : Moves scaleDelay s a s' := by
  cases a with
  | load j =>
    obtain rfl : j = i := Option.some.inj hi
    simp only [completeStep] at hs
    split at hs
    · rename_i hp
      split at hs
      · rename_i run hr
        cases hs
        exact .load hh hp hr
      · cases hs
        exact .answer _ _ hh
    · cases hs
  | decide j ended =>
    obtain rfl : j = i := Option.some.inj hi
    simp only [completeStep] at hs
    split at hs
    · rename_i run hp
      split at hs
      · cases hs
        exact .answer _ _ hh
      · cases hs
        exact .decide hh hp rfl
    · cases hs
  | update j now =>
    obtain rfl : j = i := Option.some.inj hi
    simp only [completeStep] at hs
    split at hs
    · rename_i run v hp
      split at hs
      · rename_i u hu
        split at hs
        · rename_i hc
          cases hs
          exact .update hh hp hu hc
        · cases hs
          exact .answer _ _ hh
      · cases hs
    · cases hs
  | project j =>
    obtain rfl : j = i := Option.some.inj hi
    simp only [completeStep] at hs
    split at hs
    · rename_i run v hp
      cases hs
      exact .project hh hp
    · cases hs
  | count j =>
    obtain rfl : j = i := Option.some.inj hi
    simp only [completeStep] at hs
    split at hs
    · rename_i run v hp
      cases hs
      exact .count hh hp
    · cases hs
  | requeue j newId worker now =>
    obtain rfl : j = i := Option.some.inj hi
    simp only [completeStep] at hs
    split at hs
    · rename_i run hp
      split at hs
      · cases hs
      · rename_i hid
        cases hs
        exact .requeue hh hp hid
    · cases hs
  | log j now =>
    obtain rfl : j = i := Option.some.inj hi
    simp only [completeStep] at hs
    split at hs
    · rename_i run hp
      split at hs
      · cases hs
        exact .log hh hp
      · cases hs
        exact .answer _ _ hh
    · cases hs
  | abort j code =>
    cases hs
    exact .answer _ _ hh
  | _ => cases hi

theorem tickStep_moves {s s' : State} {a : Action} (hs : tickStep s a = some s') :
    Moves scaleDelay s a s' := by
  cases a with
  | tickList now =>
    simp only [tickStep] at hs
    split at hs
    · rename_i ht
      cases hs
      exact .tickList ht
    · cases hs
  | tickNext queryFailed =>
    simp only [tickStep] at hs
    split at hs
    · rename_i now ht
      cases hs
      exact .tickEnd ht
    · rename_i now run due ht
      split at hs
      · cases hs
        exact .tickNext ht (Or.inl rfl)
      split at hs
      · cases hs
        exact .tickNext ht (Or.inr (Or.inl rfl))
      · cases hs
        exact .tickNext ht (Or.inr (Or.inr rfl))
    · cases hs
  | tickDrop at_ =>
    simp only [tickStep] at hs
    split at hs
    · rename_i now run due ht
      cases hs
      exact .tickDrop ht
    · cases hs
  | tickRequeue =>
    simp only [tickStep] at hs
    split at hs
    · rename_i now run due ht
      cases hs
      exact .tickRequeue ht
    · cases hs
  | tickFail =>
    simp only [tickStep] at hs
    split at hs
    · rename_i now run due ht
      cases hs
      exact .tickFail (Or.inl ht)
    · rename_i now run due ht
      cases hs
      exact .tickFail (Or.inr ht)
    · cases hs
  | _ => cases hs

theorem reapStep_moves {s s' : State} {a : Action} (hs : reapStep s a = some s') :
    Moves scaleDelay s a s' := by
  cases a with
  | reapList now =>
    simp only [reapStep] at hs
    split at hs
    · rename_i ht
      cases hs
      exact .reapList ht
    · cases hs
  | reapNext =>
    simp only [reapStep] at hs
    split at hs
    · rename_i now ht
      cases hs
      exact .reapEnd ht
    · rename_i now run expired ht
      cases hs
      exact .reapNext ht
    · cases hs
  | reapRequeue newId worker at_ =>
    simp only [reapStep] at hs
    split at hs
    · rename_i now run expired ht
      split at hs
      · rename_i hj
        split at hs
        · cases hs
        · rename_i hid
          cases hs
          exact .reapRequeue ht hj hid
      · cases hs
        exact .reapSkip _ (Or.inr ht)
    · cases hs
  | reapFail =>
    simp only [reapStep] at hs
    split at hs
    · rename_i now run expired ht
      cases hs
      exact .reapSkip _ (Or.inl ht)
    · rename_i now run expired ht
      cases hs
      exact .reapSkip _ (Or.inr ht)
    · cases hs
  | _ => cases hs

theorem step_moves {s s' : State} {a : Action} (h : step scaleDelay s a = some s') :
    Moves scaleDelay s a s' := by
  cases a with
  | statement q =>
    simp only [step, Option.ite_none_right_eq_some, Option.some.injEq] at h
    obtain ⟨hf, rfl⟩ := h
    exact .statement hf
  | reload jobs =>
    simp only [step, Option.ite_none_right_eq_some, Option.some.injEq] at h
    obtain ⟨⟨ht, hr⟩, rfl⟩ := h
    exact .reload jobs ht hr
  | dispatch id job worker priority now =>
    simp only [step, Option.ite_none_left_eq_some, Option.some.injEq] at h
    obtain ⟨hid, rfl⟩ := h
    exact .dispatch hid
  | skip id job dep now =>
    simp only [step, Option.ite_none_left_eq_some, Option.some.injEq] at h
    obtain ⟨hid, rfl⟩ := h
    exact .skip hid
  | skipFinish i now =>
    simp only [step, Option.map_eq_some_iff] at h
    obtain ⟨p, hp, rfl⟩ := h
    exact .skipFinish (List.mem_of_getElem? hp)
  | request body =>
    cases h
    exact .request body
  | tickList now => exact tickStep_moves h
  | tickNext queryFailed => exact tickStep_moves h
  | tickDrop now => exact tickStep_moves h
  | tickRequeue => exact tickStep_moves h
  | tickFail => exact tickStep_moves h
  | reapList now => exact reapStep_moves h
  | reapNext => exact reapStep_moves h
  | reapRequeue newId worker now => exact reapStep_moves h
  | reapFail => exact reapStep_moves h
  | _ =>
    -- What is left are the steps of a request; each names its slot.
    simp only [step, Option.bind_eq_some_iff] at h
    obtain ⟨i, hi, hd, hh, h⟩ := h
    exact completeStep_moves hh hi h

end Synora.Manager
