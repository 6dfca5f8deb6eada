import Synora.Config.Resolve
import Synora.Lib.Runs
import Synora.Lib.Table
import Synora.Net.Listener

namespace Synora.Manager
open Strings Utf8 Net

/-! # Who may act for a worker -/

/-! ## Tokens -/

structure AuthUser where
  name : String
  permissions : List String
deriving DecidableEq

def allPermissions : List String :=
  ["metrics.read", "config.reload", "jobs.hooks.write", "jobs.provider.write",
    "jobs.storage.write", "proxies.write", "jobs.read", "jobs.write", "runs.manage",
    "workers.read", "workers.write", "logs.read"]

def roleDefaults (role : String) : List String :=
  match role with
  | "admin" => allPermissions
  | "operator" => ["jobs.read", "jobs.write", "runs.manage", "workers.read", "logs.read"]
  | "viewer" => ["jobs.read", "workers.read", "logs.read"]
  | _ => []

def findToken (tokens : List Config.ApiToken) (token : Text) : Option Config.ApiToken :=
  tokens.find? fun t => constantTimeEq (encode t.token.toList) (encode token)

/-- The permissions of the role, and behind them those of the token that the role lacks. -/
def permissionsOf (t : Config.ApiToken) : List String :=
  t.permissions.foldl (fun ps p => if p ∈ ps then ps else ps ++ [p]) (roleDefaults t.role)

/-- `authenticate`; the argument is the `Authorization` field as text. -/
def authenticate (tokens : List Config.ApiToken) (authorization : Option Text) :
    Option AuthUser := do
  let value ← authorization.bind (stripPrefix "Bearer ".toList)
  let t ← findToken tokens value
  return ⟨t.name, permissionsOf t⟩

def hasPerm (user : AuthUser) (perm : String) : Bool := decide (perm ∈ user.permissions)

/-! ## Registration -/

/-- The workers with the tokens they are bound to. A registration reads the binding of its worker
first, and stores its own afterwards; `history` is a record for the proofs, of what was stored. -/
structure Registry where
  workers : List (String × String)
  pending : ℕ → Option (String × String)
  history : List (String × String)

def Registry.start : Registry := ⟨[], fun _ => none, []⟩

namespace Registry

/-- `worker_token` -/
def workerToken (s : Registry) (id : String) : Option String :=
  (Table.lookup Prod.fst id s.workers).map Prod.snd

/-- `upsert_worker` of a worker and a token. -/
def upsertWorker (s : Registry) (worker : String × String) : Registry :=
  { s with
    workers := Table.upsert Prod.fst worker
      (fun r => (r.1, if r.2 = "" then worker.2 else r.2)) s.workers
    history := s.history ++ [worker] }

end Registry

inductive RegistryAction
  /-- A request reaches `register`; the read of the binding may fail. -/
  | register (i : ℕ) (authorization : Option Text) (name : Option String) (readable : Bool)
  /-- It stores its worker. -/
  | store (i : ℕ)
  /-- It ends without. -/
  | fail (i : ℕ)

section
variable (tokens : List Config.ApiToken)

/-- The checks of `register`: the worker and the token that are to be stored. -/
def Registry.granted (s : Registry) (authorization : Option Text) (name : Option String)
    (readable : Bool) : Option (String × String) :=
  match authenticate tokens authorization with
  | none => none
  | some user =>
    if hasPerm user "runs.manage" then
      let worker := (name.filter fun n => decide (n ≠ "")).getD user.name
      match (if readable then s.workerToken worker else none) with
      | some owner => if owner ≠ "" ∧ owner ≠ user.name then none else some (worker, user.name)
      | none => some (worker, user.name)
    else none

def Registry.step (s : Registry) : RegistryAction → Option Registry
  | .register i authorization name readable =>
    if s.pending i = none then
      some { s with
        pending := Function.update s.pending i (s.granted tokens authorization name readable) }
    else none
  | .store i => (s.pending i).map fun worker =>
    { s.upsertWorker worker with pending := Function.update s.pending i none }
  | .fail i => some { s with pending := Function.update s.pending i none }

/-- `token_owns_worker` -/
def Registry.tokenOwnsWorker (s : Registry) (user : AuthUser) (worker : String)
    (readable : Bool) : Bool :=
  decide (user.name = worker) ||
    match (if readable then s.workerToken worker else none) with
    | some t => decide (t = "") || decide (t = user.name)
    | none => false

/-- The gate of the worker-facing handlers: `require` and the identity. -/
def Registry.accepts (s : Registry) (authorization : Option Text) (worker : String)
    (readable : Bool) : Bool :=
  match authenticate tokens authorization with
  | some user => hasPerm user "runs.manage" && s.tokenOwnsWorker user worker readable
  | none => false

end

/-! ## What a token grants -/

/-- The request presents this token: the first one with this value. -/
def Presents (tokens : List Config.ApiToken) (authorization : Option Text) (t : Config.ApiToken) :
    Prop :=
  tokens.find? (fun t' => decide (authorization = some ("Bearer ".toList ++ t'.token.toList))) =
    some t

def Grants (t : Config.ApiToken) (perm : String) : Prop :=
  perm ∈ roleDefaults t.role ∨ perm ∈ t.permissions

theorem mem_permissionsOf {t : Config.ApiToken} {perm : String} :
    perm ∈ permissionsOf t ↔ Grants t perm := by
  have hall : ∀ (added start : List String),
      perm ∈ added.foldl (fun ps p => if p ∈ ps then ps else ps ++ [p]) start ↔
        perm ∈ start ∨ perm ∈ added := by
    intro added
    induction added with
    | nil => simp
    | cons p added ih =>
      intro start
      rw [List.foldl_cons, ih, List.mem_cons]
      split_ifs with hp
      · constructor
        · exact fun h => h.imp_right .inr
        · rintro (h | rfl | h)
          · exact .inl h
          · exact .inl hp
          · exact .inr h
      · rw [List.mem_append, List.mem_singleton, or_assoc]
  exact hall t.permissions _

theorem authenticate_eq_some {tokens : List Config.ApiToken} {authorization : Option Text}
    {user : AuthUser} : authenticate tokens authorization = some user ↔
      ∃ t, Presents tokens authorization t ∧ user = ⟨t.name, permissionsOf t⟩ := by
  have hfind : (authorization.bind (stripPrefix "Bearer ".toList)).bind (findToken tokens) =
      tokens.find? fun t' =>
        decide (authorization = some ("Bearer ".toList ++ t'.token.toList)) := by
    cases hvalue : authorization.bind (stripPrefix "Bearer ".toList) with
    | none =>
      refine (List.find?_eq_none.mpr fun t _ ht => ?_).symm
      rw [of_decide_eq_true ht, Option.bind_some, stripPrefix_append] at hvalue
      cases hvalue
    | some value =>
      obtain ⟨a, rfl, ha⟩ := Option.bind_eq_some_iff.mp hvalue
      rw [Option.bind_some, findToken]
      congr 1
      funext t
      rw [stripPrefix_eq_some_iff.mp ha, Bool.eq_iff_iff, constantTimeEq_iff, decide_eq_true_iff,
        Option.some.injEq, List.append_cancel_left_eq]
      exact ⟨fun h => (encode_injective h).symm, fun h => congrArg encode h.symm⟩
  have hbind : authenticate tokens authorization =
      ((authorization.bind (stripPrefix "Bearer ".toList)).bind (findToken tokens)).map
        fun t => ⟨t.name, permissionsOf t⟩ := by
    unfold authenticate
    cases authorization.bind (stripPrefix "Bearer ".toList) with
    | none => rfl
    | some value =>
      rw [Option.bind_some]
      cases h : findToken tokens value <;> simp [h]
  rw [hbind, hfind, Option.map_eq_some_iff]
  exact exists_congr fun t => and_congr_right fun _ => eq_comm

/-! ## Bindings -/

/-- The first token with a name under which a worker was stored. -/
def firstToken (history : List (String × String)) (worker : String) : Option String :=
  let stored := (history.filter fun e => decide (e.1 = worker)).map Prod.snd
  stored.head?.map fun _ => (stored.find? fun t => decide (t ≠ "")).getD ""

theorem find_named_singleton (t : String) :
    (([t] : List String).find? fun t => decide (t ≠ "")).getD "" = t := by
  rw [List.find?_singleton]
  by_cases ht : t = ""
  · rw [ht]
    rfl
  · rw [decide_eq_true ht]
    rfl

theorem firstToken_concat (history : List (String × String)) (w t worker : String) :
    firstToken (history ++ [(w, t)]) worker =
      if w = worker then
        some (((firstToken history worker).map fun t' => if t' = "" then t else t').getD t)
      else firstToken history worker := by
  unfold firstToken
  dsimp only
  rw [List.filter_append, List.filter_singleton, List.map_append]
  by_cases hw : w = worker
  · rw [if_pos hw, decide_eq_true hw, Bool.cond_true, List.map_singleton, List.find?_append]
    cases (history.filter fun e => decide (e.1 = worker)).map Prod.snd with
    | nil => exact congrArg some (find_named_singleton t)
    | cons t' stored =>
      rw [List.cons_append, List.head?_cons, List.head?_cons, Option.map_some, Option.map_some,
        Option.map_some, Option.getD_some]
      cases hfound : (t' :: stored).find? fun t => decide (t ≠ "") with
      | none =>
        rw [Option.none_or, find_named_singleton, Option.getD_none, if_pos rfl]
      | some owner =>
        have hne : owner ≠ "" := by simpa using List.find?_some hfound
        rw [Option.some_or, Option.getD_some, if_neg hne]
  · rw [if_neg hw, decide_eq_false hw]
    simp

structure Registry.Sound (tokens : List Config.ApiToken) (s : Registry) : Prop where
  bound : ∀ w, s.workerToken w = firstToken s.history w
  pending : ∀ i e, s.pending i = some e → ∃ t ∈ tokens, t.name = e.2 ∧ Grants t "runs.manage"
  history : ∀ e ∈ s.history, ∃ t ∈ tokens, t.name = e.2 ∧ Grants t "runs.manage"

section
variable {tokens : List Config.ApiToken} {s s' : Registry} {a : RegistryAction}

theorem granted_registrant {authorization : Option Text} {name : Option String} {readable : Bool}
    {e : String × String} (h : s.granted tokens authorization name readable = some e) :
    ∃ t ∈ tokens, t.name = e.2 ∧ Grants t "runs.manage" := by
  unfold Registry.granted at h
  split at h
  · cases h
  · rename_i user huser
    obtain ⟨t, hpresents, rfl⟩ := authenticate_eq_some.mp huser
    by_cases hperm : hasPerm ⟨t.name, permissionsOf t⟩ "runs.manage" = true
    · have hgrants := mem_permissionsOf.mp (of_decide_eq_true hperm)
      refine ⟨t, List.mem_of_find?_eq_some hpresents, ?_, hgrants⟩
      rw [if_pos hperm] at h
      dsimp only at h
      cases howner : (if readable = true then
          s.workerToken ((name.filter fun n => decide (n ≠ "")).getD t.name) else none) with
      | none =>
        rw [howner] at h
        cases h
        rfl
      | some owner =>
        rw [howner] at h
        dsimp only at h
        split_ifs at h
        cases h
        rfl
    · rw [if_neg hperm] at h
      cases h

theorem workerToken_upsertWorker (e : String × String) (w : String) :
    (s.upsertWorker e).workerToken w =
      if e.1 = w then
        some (((s.workerToken w).map fun t' => if t' = "" then e.2 else t').getD e.2)
      else s.workerToken w := by
  unfold Registry.upsertWorker Registry.workerToken
  dsimp only
  split_ifs with hw
  · subst hw
    have hself := @Table.lookup_upsert_self (String × String) String _ Prod.fst e
      (fun r => (r.1, if r.2 = "" then e.2 else r.2)) s.workers fun _ => rfl
    rw [hself]
    cases Table.lookup Prod.fst e.1 s.workers <;> rfl
  · have hother := @Table.lookup_upsert_of_ne (String × String) String _ Prod.fst w e
      (fun r => (r.1, if r.2 = "" then e.2 else r.2)) s.workers (fun _ => rfl) (Ne.symm hw)
    rw [hother]

/-- What a step does to the workers: nothing, or it stores one that was pending. -/
theorem registry_step (h : s.step tokens a = some s') :
    (s'.workers = s.workers ∧ s'.history = s.history) ∨
      ∃ i e, a = .store i ∧ s.pending i = some e ∧
        s' = { s.upsertWorker e with pending := Function.update s.pending i none } := by
  cases a with
  | register i authorization name readable =>
    rw [Registry.step] at h
    split_ifs at h
    cases h
    exact .inl ⟨rfl, rfl⟩
  | store i =>
    rw [Registry.step] at h
    obtain ⟨e, he, rfl⟩ := Option.map_eq_some_iff.mp h
    exact .inr ⟨i, e, rfl, he, rfl⟩
  | fail i =>
    rw [Registry.step] at h
    cases h
    exact .inl ⟨rfl, rfl⟩

theorem step_pending (hs : s.Sound tokens) (h : s.step tokens a = some s') :
    ∀ i e, s'.pending i = some e → ∃ t ∈ tokens, t.name = e.2 ∧ Grants t "runs.manage" := by
  have hclear : ∀ j i e, Function.update s.pending j none i = some e → s.pending i = some e := by
    intro j i e he
    by_cases hij : i = j
    · subst hij
      simp at he
    · rwa [Function.update_of_ne hij] at he
  intro i e he
  cases a with
  | register j authorization name readable =>
    rw [Registry.step] at h
    split_ifs at h
    cases h
    by_cases hij : i = j
    · subst hij
      exact granted_registrant (by simpa using he)
    · dsimp only at he
      rw [Function.update_of_ne hij] at he
      exact hs.pending i e he
  | store j =>
    rw [Registry.step] at h
    obtain ⟨e', -, rfl⟩ := Option.map_eq_some_iff.mp h
    exact hs.pending i e (hclear j i e he)
  | fail j =>
    rw [Registry.step] at h
    cases h
    exact hs.pending i e (hclear j i e he)

theorem step_sound (hs : s.Sound tokens) (h : s.step tokens a = some s') : s'.Sound tokens := by
  refine ⟨fun w => ?_, step_pending hs h, ?_⟩
  · obtain ⟨hworkers, hhistory⟩ | ⟨i, e, -, -, rfl⟩ := registry_step h
    · rw [hhistory, ← hs.bound w, Registry.workerToken, Registry.workerToken, hworkers]
    · refine (workerToken_upsertWorker e w).trans ?_
      rw [hs.bound w]
      exact (firstToken_concat s.history e.1 e.2 w).symm
  · obtain ⟨-, hhistory⟩ | ⟨i, e, -, he, rfl⟩ := registry_step h
    · rw [hhistory]
      exact hs.history
    · exact List.forall_mem_append.mpr ⟨hs.history,
        List.forall_mem_singleton.mpr (hs.pending i e he)⟩

theorem tokenOwnsWorker_iff {user : AuthUser} {w : String} :
    s.tokenOwnsWorker user w true = true ↔ user.name = w ∨
      ∃ owner, s.workerToken w = some owner ∧ (owner = "" ∨ owner = user.name) := by
  unfold Registry.tokenOwnsWorker
  rw [if_pos rfl]
  cases s.workerToken w <;> simp

/-- A step keeps the binding of a worker that has one. -/
theorem step_keeps_binding {w owner : String} (hne : owner ≠ "") (ho : s.workerToken w = some owner)
    (h : s.step tokens a = some s') : s'.workerToken w = some owner := by
  obtain ⟨hworkers, -⟩ | ⟨i, e, -, -, rfl⟩ := registry_step h
  · rw [← ho, Registry.workerToken, Registry.workerToken, hworkers]
  · refine (workerToken_upsertWorker e w).trans ?_
    rw [ho, Option.map_some, if_neg hne, Option.getD_some, ite_self]

end

/-- Under every interleaving of registrations, reads that fail and requests that end early: a worker
is bound to the first token with a name that was stored for it, and for good; tokens that register
may manage runs; and a request passes the gate of a worker exactly if it presents a token that may
manage runs and is the worker's namesake or the one it is bound to, or if the worker is registered
and not bound. -/
theorem workers_stay_bound (tokens : List Config.ApiToken) (actions : List RegistryAction)
    (s : Registry) (h : Runs.exec (Registry.step tokens) .start actions = some s) :
    (∀ w, s.workerToken w = firstToken s.history w) ∧
    (∀ e ∈ s.history, ∃ t ∈ tokens, t.name = e.2 ∧ Grants t "runs.manage") ∧
    (∀ authorization w, s.accepts tokens authorization w true ↔
      ∃ t, Presents tokens authorization t ∧ Grants t "runs.manage" ∧ (t.name = w ∨
        ∃ owner, firstToken s.history w = some owner ∧ (owner = "" ∨ owner = t.name))) ∧
    ∀ more s', Runs.exec (Registry.step tokens) s more = some s' → ∀ w owner, owner ≠ "" →
      s.workerToken w = some owner → s'.workerToken w = some owner := by
  have hs : s.Sound tokens := Runs.exec_invariant _ (Registry.Sound tokens)
    (fun _ _ _ hs hstep => step_sound hs hstep)
    ⟨fun _ => rfl, fun _ _ he => absurd he (Option.some_ne_none _).symm, List.forall_mem_nil _⟩ h
  refine ⟨hs.bound, hs.history, fun authorization w => ?_, fun more s' hmore w owner hne ho => ?_⟩
  · unfold Registry.accepts
    constructor
    · intro haccepts
      cases huser : authenticate tokens authorization with
      | none =>
        rw [huser] at haccepts
        cases haccepts
      | some user =>
        rw [huser] at haccepts
        obtain ⟨t, hpresents, rfl⟩ := authenticate_eq_some.mp huser
        obtain ⟨hperm, howns⟩ := Bool.and_eq_true_iff.mp haccepts
        rw [tokenOwnsWorker_iff, hs.bound w] at howns
        exact ⟨t, hpresents, mem_permissionsOf.mp (of_decide_eq_true hperm), howns⟩
    · rintro ⟨t, hpresents, hgrants, howns⟩
      rw [authenticate_eq_some.mpr ⟨t, hpresents, rfl⟩]
      rw [← hs.bound w] at howns
      exact Bool.and_eq_true_iff.mpr ⟨decide_eq_true (mem_permissionsOf.mpr hgrants),
        tokenOwnsWorker_iff.mpr howns⟩
  · exact Runs.exec_invariant _ (fun u => u.workerToken w = some owner)
      (fun _ _ _ ho hstep => step_keeps_binding hne ho hstep) ho hmore

/-! ### Two tokens that register one worker at once -/

def twoTokens : List Config.ApiToken :=
  [⟨"mirror", "0123456789abcdef0123456789abcdef", "operator", []⟩,
    ⟨"other", "fedcba9876543210fedcba9876543210", "viewer", ["runs.manage"]⟩]

def bearer (token : String) : Option Text := some ("Bearer ".toList ++ token.toList)

def raceForWorker : List RegistryAction :=
  [.register 0 (bearer "0123456789abcdef0123456789abcdef") (some "w1") true,
    .register 1 (bearer "fedcba9876543210fedcba9876543210") (some "w1") true, .store 1, .store 0]

theorem workers_stay_bound_race :
    (Runs.exec (Registry.step twoTokens) .start raceForWorker).isSome ∧
    ∀ s, Runs.exec (Registry.step twoTokens) .start raceForWorker = some s →
      (∀ w, s.workerToken w = firstToken s.history w) ∧
      (∀ e ∈ s.history, ∃ t ∈ twoTokens, t.name = e.2 ∧ Grants t "runs.manage") ∧
      (∀ authorization w, s.accepts twoTokens authorization w true ↔
        ∃ t, Presents twoTokens authorization t ∧ Grants t "runs.manage" ∧ (t.name = w ∨
          ∃ owner, firstToken s.history w = some owner ∧ (owner = "" ∨ owner = t.name))) ∧
      ∀ more s', Runs.exec (Registry.step twoTokens) s more = some s' → ∀ w owner, owner ≠ "" →
        s.workerToken w = some owner → s'.workerToken w = some owner :=
  ⟨by decide +kernel, fun s h => workers_stay_bound twoTokens raceForWorker s h⟩

end Synora.Manager
