import Synora.Standalone.LocalRuns

namespace Synora.Standalone
open Core Runs Strings Tally

/-! ## The control directory -/

/-- What `cmd_stop` leaves in the control directory, and when it did. -/
structure StopRequest where
  id : ℕ
  job : String
  /-- The cancel token that was registered for the job then. -/
  registered : Option ℕ
  /-- The cancel tokens that had been made by then. -/
  made : ℕ
deriving DecidableEq, Repr

structure Control where
  runs : LocalRuns
  /-- The last request that wrote the file `stop-<job>`, while the file is there. -/
  files : String → Option StopRequest
  requests : ℕ
  /-- The file that `process_control_dir` removes next. -/
  removing : Option String
  /-- The runs that `process_control_dir` has cancelled, with the requests it found. -/
  cancels : List (StopRequest × ℕ)

def Control.init (jobs : List JobSpec) : Control := ⟨.init jobs, fun _ => none, 0, none, []⟩

/-- `valid_job_name` -/
def validJobName (job : String) : Bool :=
  let t := job.toList
  !t.isEmpty && !decide (t.head? = some '.') &&
    !(segments t).any fun c => decide (c = [] ∨ c = "..".toList ∨ c = ".".toList)

inductive ControlMove
  | run (m : LocalMove)
  /-- `cmd_stop` -/
  | request (job : String)
  /-- `process_control_dir` comes to the file of the job. -/
  | entry (job : String)
  /-- `remove_file`, whose result is ignored. -/
  | remove (removed : Bool)
  /-- Another daemon process takes over the directory. -/
  | restart (jobs : List JobSpec)
deriving DecidableEq, Repr

def Control.step (s : Control) : ControlMove → Option Control
  | .run m => (s.runs.step m).map fun runs => { s with runs }
  | .request job =>
    -- With a slash the file would lie in a directory that is not there.
    if validJobName job && !decide ('/' ∈ job.toList) then
      some { s with
        files := Function.update s.files job
          (some ⟨s.requests, job, s.runs.activeRuns job, s.runs.nextToken⟩)
        requests := s.requests + 1 }
    else none
  | .entry job =>
    match s.removing, s.files job with
    | none, some q =>
      match s.runs.activeRuns job with
      | some token => some { s with
          runs := s.runs.stopJob job, removing := some job, cancels := s.cancels ++ [(q, token)] }
      -- `stop_job` fails and the file stays for the next tick.
      | none => some s
    | _, _ => none
  | .remove removed =>
    s.removing.map fun job =>
      { s with files := if removed then drop s.files job else s.files, removing := none }
  | .restart jobs =>
    some { s with
      runs := { LocalRuns.init jobs with nextToken := s.runs.nextToken }, removing := none }

/-- Every run that was cancelled was registered when the request was made: a request that found no
run cancels none, and a request cancels no second run. -/
structure Control.StopsRunning (s : Control) : Prop where
  registered : ∀ q token, (q, token) ∈ s.cancels → q.registered = some token
  idle : ∀ q ∈ s.cancels.map Prod.fst, q.registered ≠ none
  once : ∀ c ∈ s.cancels, ∀ c' ∈ s.cancels, c.1.id = c'.1.id → c.2 = c'.2

/-- A file that is found while a run is registered is newer than the cancel token of the run. -/
def Control.Newer (s : Control) : ControlMove → Prop
  | .entry job =>
    ∀ q ∈ s.files job, ∀ token ∈ s.runs.activeRuns job, s.removing = none → token < q.made
  | _ => True

/-! ## What holds of the requests anyway -/

/-- A request that is in a file, or that a run was cancelled for. -/
def Control.Known (s : Control) (q : StopRequest) : Prop :=
  (∃ job, s.files job = some q) ∨ ∃ token, (q, token) ∈ s.cancels

structure Control.Tracked (s : Control) : Prop where
  tokens : ∀ job token, s.runs.activeRuns job = some token → token < s.runs.nextToken
  made : ∀ job q, s.files job = some q → q.made ≤ s.runs.nextToken
  past : ∀ job q token, s.files job = some q → q.registered = some token → token < q.made
  /-- A run whose token is older than the request was there when the request was made. -/
  present : ∀ job q token, s.files job = some q → s.runs.activeRuns job = some token →
    token < q.made → q.registered = some token
  issued : ∀ q, s.Known q → q.id < s.requests
  unique : ∀ q q', s.Known q → s.Known q' → q.id = q'.id → q = q'

variable {s t : Control}

theorem tracked_init (jobs : List JobSpec) : (Control.init jobs).Tracked := by
  refine ⟨?_, ?_, ?_, ?_, ?_, ?_⟩ <;> simp [Control.init, LocalRuns.init, Control.Known]

/-- The runs go on and files are removed; no request is made. -/
theorem Control.Tracked.mono (h : s.Tracked) (hnext : s.runs.nextToken ≤ t.runs.nextToken)
    (htokens : ∀ job token, t.runs.activeRuns job = some token →
      s.runs.activeRuns job = some token ∨
        token = s.runs.nextToken ∧ token < t.runs.nextToken)
    (hfiles : ∀ job q, t.files job = some q → s.files job = some q)
    (hrequests : t.requests = s.requests) (hknown : ∀ q, t.Known q → s.Known q) : t.Tracked := by
  refine ⟨fun job token hrun => ?_, fun job q hq => ?_, fun job q token hq => ?_,
    fun job q token hq hrun hlt => ?_, fun q hq => ?_, fun q q' hq hq' => ?_⟩
  · rcases htokens job token hrun with hold | ⟨-, hnew⟩
    · exact (h.tokens job token hold).trans_le hnext
    · exact hnew
  · exact (h.made job q (hfiles job q hq)).trans hnext
  · exact h.past job q token (hfiles job q hq)
  · -- A token that the step has made is younger than every request.
    rcases htokens job token hrun with hold | ⟨rfl, -⟩
    · exact h.present job q token (hfiles job q hq) hold hlt
    · exact absurd (h.made job q (hfiles job q hq)) (Nat.not_le.mpr hlt)
  · rw [hrequests]
    exact h.issued q (hknown q hq)
  · exact h.unique q q' (hknown q hq) (hknown q' hq')

theorem Control.Tracked.request (h : s.Tracked) (job : String) :
    Control.Tracked { s with
      files := Function.update s.files job
        (some ⟨s.requests, job, s.runs.activeRuns job, s.runs.nextToken⟩)
      requests := s.requests + 1 } := by
  set new : StopRequest := ⟨s.requests, job, s.runs.activeRuns job, s.runs.nextToken⟩ with hnew
  have hfile (job' : String) (q : StopRequest)
      (hq : Function.update s.files job (some new) job' = some q) :
      job' = job ∧ q = new ∨ s.files job' = some q := by
    by_cases hj : job' = job
    · subst hj
      rw [Function.update_self] at hq
      exact Or.inl ⟨rfl, (Option.some.inj hq).symm⟩
    · rw [Function.update_of_ne hj] at hq
      exact Or.inr hq
  have hknown (q : StopRequest)
      (hq : Control.Known { s with
        files := Function.update s.files job (some new), requests := s.requests + 1 } q) :
      q = new ∨ s.Known q := by
    rcases hq with ⟨job', hq⟩ | hq
    · rcases hfile job' q hq with ⟨-, rfl⟩ | hold
      · exact Or.inl rfl
      · exact Or.inr (Or.inl ⟨job', hold⟩)
    · exact Or.inr (Or.inr hq)
  refine ⟨h.tokens, fun job' q hq => ?_, fun job' q token hq hreg => ?_,
    fun job' q token hq hrun hlt => ?_, fun q hq => ?_, fun q q' hq hq' hid => ?_⟩
  · rcases hfile job' q hq with ⟨-, rfl⟩ | hold
    · exact le_rfl
    · exact h.made job' q hold
  · rcases hfile job' q hq with ⟨-, rfl⟩ | hold
    · exact h.tokens job token hreg
    · exact h.past job' q token hold hreg
  · rcases hfile job' q hq with ⟨rfl, rfl⟩ | hold
    · exact hrun
    · exact h.present job' q token hold hrun hlt
  · rcases hknown q hq with rfl | hold
    · exact Nat.lt_succ_self _
    · exact (h.issued q hold).trans (Nat.lt_succ_self _)
  · -- The number of the new request has not been given to another one.
    rcases hknown q hq with rfl | hold <;> rcases hknown q' hq' with rfl | hold'
    · rfl
    · exact absurd (hid ▸ h.issued q' hold') (lt_irrefl _)
    · exact absurd (hid ▸ h.issued q hold) (lt_irrefl _)
    · exact h.unique q q' hold hold' hid

theorem tracked_step {m : ControlMove} (h : s.Tracked) (hstep : s.step m = some t) :
    t.Tracked := by
  cases m with
  | run m =>
    obtain ⟨runs, hrun, rfl⟩ := Option.map_eq_some_iff.mp hstep
    obtain ⟨hnext, htokens⟩ := activeRuns_step hrun
    exact h.mono hnext htokens (fun _ _ hq => hq) rfl fun _ hq => hq
  | request job =>
    simp only [Control.step] at hstep
    split at hstep
    · cases hstep
      exact h.request job
    · cases hstep
  | entry job =>
    simp only [Control.step] at hstep
    split at hstep
    · rename_i q _ hq
      split at hstep
      · rename_i token hrun
        cases hstep
        obtain ⟨cancelled, heq⟩ := stopJob_eq s.runs job
        rw [heq]
        refine h.mono le_rfl (fun _ _ => Or.inl) (fun _ _ hq => hq) rfl ?_
        rintro q' (hq' | ⟨token', hq'⟩)
        · exact Or.inl hq'
        · rcases List.mem_append.mp hq' with hold | hnew
          · exact Or.inr ⟨token', hold⟩
          · cases List.mem_singleton.mp hnew
            exact Or.inl ⟨job, hq⟩
      · cases hstep
        exact h
    · cases hstep
  | remove removed =>
    obtain ⟨job, -, rfl⟩ := Option.map_eq_some_iff.mp hstep
    have hfiles (job' : String) (q : StopRequest)
        (hq : (if removed then drop s.files job else s.files) job' = some q) :
        s.files job' = some q := by
      cases removed with
      | true => exact of_drop hq
      | false => exact hq
    refine h.mono le_rfl (fun _ _ => Or.inl) hfiles rfl ?_
    rintro q (⟨job', hq⟩ | hq)
    · exact Or.inl ⟨job', hfiles job' q hq⟩
    · exact Or.inr hq
  | restart jobs =>
    cases hstep
    exact h.mono le_rfl (fun _ _ htoken => by cases htoken) (fun _ _ hq => hq) rfl fun _ hq => hq

/-! ## What a stop request stops -/

theorem stopsRunning_init (jobs : List JobSpec) : (Control.init jobs).StopsRunning := by
  refine ⟨?_, ?_, ?_⟩ <;> simp [Control.init]

theorem Control.StopsRunning.of_registered (h : s.Tracked)
    (hreg : ∀ q token, (q, token) ∈ s.cancels → q.registered = some token) : s.StopsRunning := by
  refine ⟨hreg, fun q hq hidle => ?_, fun c hc c' hc' hid => ?_⟩
  · obtain ⟨⟨q, token⟩, hc, rfl⟩ := List.mem_map.mp hq
    cases hidle.symm.trans (hreg q token hc)
  · have heq : c.1 = c'.1 := h.unique c.1 c'.1 (Or.inr ⟨c.2, hc⟩) (Or.inr ⟨c'.2, hc'⟩) hid
    have htoken := hreg c.1 c.2 hc
    rw [heq, hreg c'.1 c'.2 hc'] at htoken
    exact (Option.some.inj htoken).symm

/-- A run is cancelled at the entry of its job and nowhere else. -/
theorem cancels_step {m : ControlMove} (hstep : s.step m = some t) :
    t.cancels = s.cancels ∨ ∃ job q token, m = .entry job ∧ s.removing = none ∧
      s.files job = some q ∧ s.runs.activeRuns job = some token ∧
      t.cancels = s.cancels ++ [(q, token)] := by
  cases m with
  | run m =>
    obtain ⟨runs, -, rfl⟩ := Option.map_eq_some_iff.mp hstep
    exact Or.inl rfl
  | request job =>
    simp only [Control.step] at hstep
    split at hstep
    · cases hstep
      exact Or.inl rfl
    · cases hstep
  | entry job =>
    simp only [Control.step] at hstep
    split at hstep
    · rename_i q hnone hq
      split at hstep
      · rename_i token hrun
        cases hstep
        exact Or.inr ⟨job, q, token, rfl, hnone, hq, hrun, rfl⟩
      · cases hstep
        exact Or.inl rfl
    · cases hstep
  | remove removed =>
    obtain ⟨job, -, rfl⟩ := Option.map_eq_some_iff.mp hstep
    exact Or.inl rfl
  | restart jobs =>
    cases hstep
    exact Or.inl rfl

theorem stopsRunning_step {m : ControlMove} (h : s.Tracked) (hs : s.StopsRunning)
    (hc : s.Newer m) (hstep : s.step m = some t) : t.StopsRunning := by
  refine .of_registered (tracked_step h hstep) fun q token hmem => ?_
  rcases cancels_step hstep with heq | ⟨job, q', token', rfl, hnone, hq, hrun, heq⟩
  · rw [heq] at hmem
    exact hs.registered q token hmem
  · rw [heq, List.mem_append, List.mem_singleton] at hmem
    rcases hmem with hold | hnew
    · exact hs.registered q token hold
    · cases hnew
      exact h.present job q token hq hrun (hc q hq token hrun hnone)

/-- An older file cancels a run that was not there when the request was made. -/
theorem not_stopsRunning_of_older {m : ControlMove} (h : s.Tracked) (hc : ¬s.Newer m) :
    ∃ t, s.step m = some t ∧ ¬t.StopsRunning := by
  cases m with
  | entry job =>
    simp only [Control.Newer, not_forall, Nat.not_lt] at hc
    obtain ⟨q, hq, token, hrun, hnone, hle⟩ := hc
    rw [Option.mem_def] at hq hrun
    refine ⟨{ s with
      runs := s.runs.stopJob job, removing := some job, cancels := s.cancels ++ [(q, token)] },
      by simp [Control.step, hnone, hq, hrun], fun ht => ?_⟩
    have hreg := ht.registered q token (List.mem_append_right _ (List.mem_singleton_self _))
    exact absurd (h.past job q token hq hreg) (Nat.not_lt.mpr hle)
  | _ => exact absurd trivial hc

/-- In every state of a run each stop request has stopped only what was running when it was made,
exactly when no file is older than the run that it is found with. -/
theorem stops_running_iff (jobs : List JobSpec) (moves : List ControlMove) :
    (∀ pre, pre <+: moves → ∀ s, exec Control.step (.init jobs) pre = some s → s.StopsRunning) ↔
      Along Control.step Control.Newer (.init jobs) moves :=
  forall_prefix_iff_along Control.step Control.Tracked
    (fun _ _ _ h hstep => tracked_step h hstep)
    (fun _ _ _ h hs hc hstep => stopsRunning_step h hs hc hstep)
    (fun _ _ h _ hc => not_stopsRunning_of_older h hc) (tracked_init jobs) (stopsRunning_init jobs)

/-- A stop is asked for while the job is idle; the job starts, and the next tick cancels it. -/
def stopThenStart : List ControlMove :=
  [.request "m", .entry "m", .run (.gate "m"), .run (.claim 0 true), .run (.register 0), .entry "m",
    .remove true]

theorem later_run_cancelled : ∃ s,
    exec Control.step (.init [mirrorJob]) stopThenStart = some s ∧
      s.cancels = [(⟨0, "m", none, 0⟩, 0)] ∧ s.runs.cancelled = [0] ∧ ¬s.StopsRunning :=
  ⟨_, rfl, rfl, rfl, fun h =>
    absurd (h.registered ⟨0, "m", none, 0⟩ 0 (List.mem_singleton_self _)) (by decide)⟩

end Synora.Standalone
