import Synora.Config.Resolve
import Synora.Lib.Tally

namespace Synora.Engine
open Strings Config Tally

/-! # Alerts -/

/-- A call of `Engine::notify`. -/
structure Event where
  event : Text
  job : Option Text
  message : Text
deriving DecidableEq, Repr

def Event.dedupKey (e : Event) : Text := e.job.getD []

def syncFailed : Text := "sync_failed".toList

def syncSuccess : Text := "sync_success".toList

def syncRecovered : Text := "sync_recovered".toList

/-- `failure_streak`, whose counters are `u32`. -/
abbrev Streaks := Text → Option ℕ

def threshold (cfg : NotificationConfig) : ℕ := max cfg.alertAfterFailures 1

/-- The streaks after a call, and what goes to the webhook. -/
def notify (cfg : NotificationConfig) (streaks : Streaks) (e : Event) : Streaks × Option Event :=
  if cfg.webhookUrl = none then (streaks, none)
  else if e.event = syncFailed then
    let n := (count streaks e.dedupKey + 1) % 2 ^ 32
    (Function.update streaks e.dedupKey (some n), if n = threshold cfg then some e else none)
  else if e.event = syncSuccess then
    let wasAlerted := decide (threshold cfg ≤ count streaks e.dedupKey)
    (drop streaks e.dedupKey,
      if wasAlerted then some { e with event := syncRecovered } else none)
  else (streaks, some e)

/-- Calls in the order in which they take the lock, each with what it sends. -/
def notifyAll (cfg : NotificationConfig) : Streaks → List Event → List (Event × Option Event)
  | _, [] => []
  | streaks, e :: es => (e, (notify cfg streaks e).2) :: notifyAll cfg (notify cfg streaks e).1 es

/-- The streaks after a list of calls. -/
def streaksAfter (cfg : NotificationConfig) (streaks : Streaks) (es : List Event) : Streaks :=
  es.foldl (fun s e => (notify cfg s e).1) streaks

section
variable {cfg : NotificationConfig} {streaks : Streaks} {e : Event}

/-! ## One call -/

theorem notify_failed (hurl : cfg.webhookUrl ≠ none) (he : e.event = syncFailed) :
    notify cfg streaks e = (Function.update streaks e.dedupKey
      (some ((count streaks e.dedupKey + 1) % 2 ^ 32)),
      if (count streaks e.dedupKey + 1) % 2 ^ 32 = threshold cfg then some e else none) := by
  rw [notify, if_neg hurl, if_pos he]

theorem notify_success (hurl : cfg.webhookUrl ≠ none) (he : e.event = syncSuccess) :
    notify cfg streaks e = (drop streaks e.dedupKey,
      if threshold cfg ≤ count streaks e.dedupKey then some { e with event := syncRecovered }
      else none) := by
  have hne : e.event ≠ syncFailed := by
    rw [he]
    decide
  rw [notify, if_neg hurl, if_neg hne, if_pos he]
  simp only [decide_eq_true_eq]

/-- A call leaves the streaks of other jobs. -/
theorem notify_other {job : Text} (h : e.dedupKey ≠ job) :
    (notify cfg streaks e).1 job = streaks job := by
  unfold notify
  split_ifs
  · rfl
  · exact Function.update_of_ne (Ne.symm h) _ _
  · exact drop_of_ne _ h
  · rfl

/-- What a call does depends on the streak of its own job only. -/
theorem notify_congr {s s' : Streaks} (h : s e.dedupKey = s' e.dedupKey) :
    (notify cfg s e).2 = (notify cfg s' e).2 ∧
      (notify cfg s e).1 e.dedupKey = (notify cfg s' e).1 e.dedupKey := by
  have hcount : count s e.dedupKey = count s' e.dedupKey := congrArg (·.getD 0) h
  unfold notify
  rw [hcount]
  split_ifs
  all_goals simp [h, drop]

/-! ## Histories -/

@[simp] theorem streaksAfter_cons (es : List Event) :
    streaksAfter cfg streaks (e :: es) = streaksAfter cfg (notify cfg streaks e).1 es := rfl

theorem notifyAll_append (es es' : List Event) : notifyAll cfg streaks (es ++ es') =
    notifyAll cfg streaks es ++ notifyAll cfg (streaksAfter cfg streaks es) es' := by
  induction es generalizing streaks with
  | nil => rfl
  | cons e es ih =>
    rw [List.cons_append, notifyAll, notifyAll, ih, List.cons_append, streaksAfter_cons]

theorem map_fst_notifyAll (es : List Event) : (notifyAll cfg streaks es).map Prod.fst = es := by
  induction es generalizing streaks with
  | nil => rfl
  | cons e es ih => rw [notifyAll, List.map_cons, ih]

/-- A job's calls among those of other jobs send what they send on their own. -/
theorem filter_notifyAll (job : Text) {s s' : Streaks} (h : s job = s' job) (es : List Event) :
    (notifyAll cfg s es).filter (fun p => decide (p.1.dedupKey = job)) =
      notifyAll cfg s' (es.filter fun e => decide (e.dedupKey = job)) := by
  induction es generalizing s s' with
  | nil => rfl
  | cons e es ih =>
    rw [notifyAll]
    by_cases he : e.dedupKey = job
    · subst he
      obtain ⟨hsent, hnext⟩ := @notify_congr cfg e s s' h
      rw [List.filter_cons_of_pos (by simp), List.filter_cons_of_pos (by simp), notifyAll, hsent,
        ih hnext]
    · rw [List.filter_cons_of_neg (by simpa using he), List.filter_cons_of_neg (by simpa using he)]
      exact ih ((notify_other he).trans h)

/-! ## Runs of failures -/

/-- A run of failures alerts when its counter comes to the threshold. -/
theorem notifyAll_failures (hurl : cfg.webhookUrl ≠ none) {job : Text} {fails : List Event}
    (hkey : ∀ e ∈ fails, e.dedupKey = job) (hfail : ∀ e ∈ fails, e.event = syncFailed)
    (hlt : count streaks job + fails.length < 2 ^ 32) :
    notifyAll cfg streaks fails = fails.mapIdx (fun i e =>
      (e, if count streaks job + i + 1 = threshold cfg then some e else none)) ∧
      count (streaksAfter cfg streaks fails) job = count streaks job + fails.length := by
  induction fails generalizing streaks with
  | nil => exact ⟨rfl, rfl⟩
  | cons e fails ih =>
    obtain rfl := hkey e List.mem_cons_self
    have hmod : (count streaks e.dedupKey + 1) % 2 ^ 32 = count streaks e.dedupKey + 1 :=
      Nat.mod_eq_of_lt (by rw [List.length_cons] at hlt; omega)
    have hstep := @notify_failed cfg streaks e hurl (hfail e List.mem_cons_self)
    rw [hmod] at hstep
    have hcount : count (notify cfg streaks e).1 e.dedupKey = count streaks e.dedupKey + 1 := by
      rw [hstep, count]
      simp only [Function.update_self, Option.getD_some]
    obtain ⟨hsent, hafter⟩ := @ih (notify cfg streaks e).1
      (fun x hx => hkey x (List.mem_cons_of_mem e hx))
      (fun x hx => hfail x (List.mem_cons_of_mem e hx))
      (by rw [hcount]; rw [List.length_cons] at hlt; omega)
    constructor
    · rw [notifyAll, hsent, hcount, List.mapIdx_cons, hstep, Nat.add_zero]
      simp only [Nat.add_assoc, Nat.add_comm]
    · rw [streaksAfter_cons, hafter, hcount, List.length_cons]
      omega

/-- After a success a job has no streak. -/
theorem streaksAfter_success (hurl : cfg.webhookUrl ≠ none) {es : List Event} {last : Event}
    (hlast : es.getLast? = some last) (he : last.event = syncSuccess) :
    streaksAfter cfg streaks es last.dedupKey = none := by
  obtain ⟨init, rfl⟩ : ∃ init, es = init ++ [last] :=
    ⟨_, (List.dropLast_append_getLast? last hlast).symm⟩
  rw [streaksAfter, List.foldl_append, List.foldl_cons, List.foldl_nil, notify_success hurl he]
  exact drop_self _ _

end

/-- The calls about one job. -/
def ofJob (job : Text) (es : List Event) : List Event :=
  es.filter fun e => decide (e.dedupKey = job)

/-- `fails` is a run of failures that goes on neither to the left nor to the right. -/
structure MaximalRun (before fails after : List Event) : Prop where
  failed : ∀ e ∈ fails, e.event = syncFailed
  left : ∀ last, before.getLast? = some last → last.event ≠ syncFailed
  right : ∀ next, after.head? = some next → next.event ≠ syncFailed

/-- A run of failures alerts once, at its threshold, and the success that ends it says so exactly if
the run came that far, whatever other jobs do in between. -/
theorem notify_deduplicates (cfg : NotificationConfig) (es before fails after : List Event)
    (job : Text) (hurl : cfg.webhookUrl ≠ none)
    (hevents : ∀ e ∈ es, e.event = syncFailed ∨ e.event = syncSuccess)
    (hsplit : ofJob job es = before ++ fails ++ after) (hrun : MaximalRun before fails after)
    (hlt : fails.length < 2 ^ 32) :
    (notifyAll cfg (fun _ => none) es).filter (fun p => decide (p.1.dedupKey = job)) =
        notifyAll cfg (fun _ => none) (ofJob job es) ∧
      ∃ sent sent', notifyAll cfg (fun _ => none) (ofJob job es) = sent ++
          fails.mapIdx (fun i e => (e, if i + 1 = threshold cfg then some e else none)) ++ sent' ∧
        sent.map Prod.fst = before ∧ sent'.map Prod.fst = after ∧
        ∀ next, after.head? = some next → sent'.head? = some (next,
          if threshold cfg ≤ fails.length then some { next with event := syncRecovered }
          else none) := by
  have hmem : ∀ e ∈ before ++ fails ++ after, e.dedupKey = job ∧
      (e.event = syncFailed ∨ e.event = syncSuccess) := by
    intro e he
    rw [← hsplit, ofJob, List.mem_filter, decide_eq_true_eq] at he
    exact ⟨he.2, hevents e he.1⟩
  simp only [List.mem_append] at hmem
  have hclean : count (streaksAfter cfg (fun _ => none) before) job = 0 := by
    cases hlast : before.getLast? with
    | none =>
      rw [List.getLast?_eq_none_iff.mp hlast]
      rfl
    | some last =>
      obtain ⟨rfl, hevent⟩ := hmem last (.inl (.inl (List.mem_of_getLast? hlast)))
      rw [count, streaksAfter_success hurl hlast (hevent.resolve_left (hrun.left last hlast))]
      rfl
  obtain ⟨hfails, hcount⟩ := @notifyAll_failures cfg (streaksAfter cfg (fun _ => none) before)
    hurl job fails (fun e he => (hmem e (.inl (.inr he))).1) hrun.failed
    (by rwa [hclean, Nat.zero_add])
  rw [hclean] at hfails hcount
  simp only [Nat.zero_add] at hfails hcount
  refine ⟨filter_notifyAll job rfl es, notifyAll cfg (fun _ => none) before,
    notifyAll cfg (streaksAfter cfg (streaksAfter cfg (fun _ => none) before) fails) after,
    ?_, map_fst_notifyAll before, map_fst_notifyAll after, ?_⟩
  · rw [hsplit, List.append_assoc, notifyAll_append, notifyAll_append, hfails, List.append_assoc]
  · intro next hnext
    cases after with
    | nil => cases hnext
    | cons e after =>
      obtain rfl := Option.some.inj hnext
      obtain ⟨hkey, hevent⟩ := hmem e (.inr List.mem_cons_self)
      have hsuccess := hevent.resolve_left (hrun.right e rfl)
      rw [notifyAll, List.head?_cons, notify_success hurl hsuccess, hkey, hcount]

theorem notify_deduplicates_second :
    let cfg : NotificationConfig := ⟨some "https://hooks.example".toList, 2⟩
    let failed (job : String) : Event := ⟨syncFailed, some job.toList, "exit 1".toList⟩
    let done : Event := ⟨syncSuccess, some "debian".toList, "run succeeded".toList⟩
    let es := [failed "debian", failed "alpine", failed "debian", done]
    ∃ sent sent', notifyAll cfg (fun _ => none) (ofJob "debian".toList es) =
        sent ++ [(failed "debian", none), (failed "debian", some (failed "debian"))] ++ sent' ∧
      sent'.head? = some (done, some { done with event := syncRecovered }) := by
  intro cfg failed done es
  obtain ⟨-, sent, sent', hsent, -, -, hnext⟩ := notify_deduplicates cfg es []
    [failed "debian", failed "debian"] [done] "debian".toList (by decide) (by decide) (by decide)
    ⟨by decide, by decide, by decide⟩ (by decide)
  exact ⟨sent, sent', hsent, hnext done rfl⟩

end Synora.Engine
