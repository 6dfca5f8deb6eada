import Mathlib.Data.List.Rotate
import Mathlib.Tactic.Ring
import Synora.Lib.Runs

namespace Synora.Net
open Runs

/-! ## Routes -/

/-- Health and probe state of one proxy. -/
structure ProxyProbe where
  latencyMs : Option ℕ
  egressIp : Option String
  healthy : Bool
  lastProbeAt : Option ℤ
deriving DecidableEq, Repr

def ProxyProbe.default : ProxyProbe := ⟨none, none, false, none⟩

inductive ProxyKind
  | direct
  | forward (url : String) (env : List (String × String))
  | command (check : String) (env : List (String × String))
deriving DecidableEq, Repr

inductive Strategy
  | fixed | failover | roundRobin | random
  | other (name : String)
deriving DecidableEq, Repr

structure ProxyGroupConfig where
  proxies : List String
  strategy : Strategy
deriving DecidableEq, Repr

inductive Selection
  | direct
  | forward (name url : String) (env : List (String × String))
deriving DecidableEq, Repr

/-- The proxies with what the last probes of this route have recorded, and the cursor. -/
structure NetRoute where
  proxies : List (String × ProxyKind)
  proxyGroups : List (String × ProxyGroupConfig)
  defaultProxy : Option String
  probeStates : String → Option ProxyProbe
  rr : ℕ

namespace NetRoute

def new (proxies : List (String × ProxyKind)) (proxyGroups : List (String × ProxyGroupConfig))
    (defaultProxy : Option String) : NetRoute :=
  ⟨proxies, proxyGroups, defaultProxy, fun _ => none, 0⟩

/-- `Clone`: the copy has probe states of its own. -/
def clone (route : NetRoute) : NetRoute :=
  ⟨route.proxies, route.proxyGroups, route.defaultProxy, route.probeStates, route.rr⟩

/-! ## Probing -/

/-- `outcome` is what the network answers; a direct route is not asked. -/
def probeOne (kind : ProxyKind) (outcome : ProxyProbe) : ProxyProbe :=
  match kind with
  | .direct => { ProxyProbe.default with healthy := true, lastProbeAt := outcome.lastProbeAt }
  | .command _ _ | .forward _ _ => outcome

def probe (route : NetRoute) (name : String) (outcome : ProxyProbe) : ProxyProbe × NetRoute :=
  let result := match route.proxies.lookup name with
    | some kind => probeOne kind outcome
    | none => .default
  (result, { route with
    probeStates := fun n => if n = name then some result else route.probeStates n })

/-- One joined task of `probe_all`; a task that died has no outcome and is left out. -/
def joinNext (outcomes : String → Option ProxyProbe)
    (acc : NetRoute × List (String × ProxyProbe)) (name : String) :
    NetRoute × List (String × ProxyProbe) :=
  match outcomes name with
  | some outcome =>
    let (result, me) := acc.1.probe name outcome
    (me, (name, result) :: acc.2)
  | none => acc

/-- The tasks probe a copy of the route, which is dropped with what they recorded. -/
def probeAll (route : NetRoute) (outcomes : String → Option ProxyProbe) :
    List (String × ProxyProbe) × NetRoute :=
  let (_, out) := (route.proxies.map Prod.fst).foldl (joinNext outcomes) (route.clone, [])
  (out, route)

/-! ## Selecting -/

/-- Unprobed proxies count as healthy. -/
def healthy (route : NetRoute) (name : String) : Bool :=
  ((route.probeStates name).map ProxyProbe.healthy).getD true

/-- The members that can carry traffic. -/
def members (route : NetRoute) (group : ProxyGroupConfig) : List String :=
  group.proxies.filter fun n =>
    match route.proxies.lookup n with
    | some (.forward _ _) | some .direct => true
    | _ => false

/-- The first healthy member, looking round from `start`. -/
def firstHealthyFrom (route : NetRoute) (members : List String) (start : ℕ) : Option String :=
  (members.rotate (start % members.length)).find? fun n => route.healthy n

/-- `draw` is what the generator returns. -/
def pickFromGroup (route : NetRoute) (group : ProxyGroupConfig) (draw : ℕ) :
    Option String × NetRoute :=
  let members := route.members group
  if members = [] then (none, route)
  else
    match group.strategy with
    | .failover => (members.find? fun n => route.healthy n, route)
    | .roundRobin => (route.firstHealthyFrom members route.rr, { route with rr := route.rr + 1 })
    | .random => (route.firstHealthyFrom members draw, route)
    | .fixed | .other _ => (members.head?, route)

def selectionForName (name : String) : ProxyKind → Selection
  | .direct => .direct
  | .forward url env => .forward name url env
  | .command _ _ => .direct

def selectNamedProxy (route : NetRoute) (name : Option String) (draw : ℕ) : Selection × NetRoute :=
  match name with
  | none => (.direct, route)
  | some name =>
    match route.proxyGroups.lookup name with
    | some group =>
      let (picked, route') := route.pickFromGroup group draw
      ((picked.bind fun n => (route.proxies.lookup n).map (selectionForName n)).getD .direct, route')
    | none => (((route.proxies.lookup name).map (selectionForName name)).getD .direct, route)

def selectProxy (route : NetRoute) (name : Option String) (draw : ℕ) : Selection × NetRoute :=
  route.selectNamedProxy (name.or route.defaultProxy) draw

def selectJobProxy (route : NetRoute) (name : Option String) (draw : ℕ) : Selection × NetRoute :=
  route.selectNamedProxy name draw

end NetRoute

/-! ## Calls -/

inductive Call
  | probe (name : String) (outcome : ProxyProbe)
  | probeAll (outcomes : String → Option ProxyProbe)
  | selectProxy (name : Option String) (draw : ℕ)
  | selectJobProxy (name : Option String) (draw : ℕ)

/-- A route, and the map that `probe_all` returned if nothing was probed since. -/
structure Routing where
  route : NetRoute
  reported : Option (List (String × ProxyProbe))

def callStep (s : Routing) : Call → Option Routing
  | .probe name outcome => some ⟨(s.route.probe name outcome).2, none⟩
  | .probeAll outcomes =>
    let (m, route) := s.route.probeAll outcomes
    some ⟨route, some m⟩
  | .selectProxy name draw => some { s with route := (s.route.selectProxy name draw).2 }
  | .selectJobProxy name draw => some { s with route := (s.route.selectJobProxy name draw).2 }

/-- The name that a selection looks up. -/
def Call.asked (route : NetRoute) : Call → Option String
  | .selectProxy name _ => name.or route.defaultProxy
  | .selectJobProxy name _ => name
  | _ => none

/-- What a selection answers. -/
def Call.answer (route : NetRoute) : Call → Selection
  | .selectProxy name draw => (route.selectProxy name draw).1
  | .selectJobProxy name draw => (route.selectJobProxy name draw).1
  | _ => .direct

def Call.isSelection : Call → Bool
  | .selectProxy _ _ | .selectJobProxy _ _ => true
  | _ => false

/-- The map reports the proxy as unhealthy. -/
def Down (m : List (String × ProxyProbe)) (name : String) : Prop :=
  ∃ p, m.lookup name = some p ∧ p.healthy = false

/-- An unhealthy member is answered only when every member is unhealthy. -/
def Obeys (m : List (String × ProxyProbe)) (members : List String) (sel : Selection) : Prop :=
  ∀ name url env, sel = .forward name url env → Down m name → ∀ n ∈ members, Down m n

/-! ## What a selection can answer -/

/-- The members that a selection can settle on: with `failover` the first that is not recorded as
unhealthy, else any of them. -/
def Candidate (route : NetRoute) (group : ProxyGroupConfig) (n : String) : Prop :=
  match group.strategy with
  | .failover => (route.members group).find? (fun n => route.healthy n) = some n
  | _ => n ∈ route.members group ∧ route.healthy n = true

/-- The strategies that look at the health of the members. -/
def Strategy.isAdaptive : Strategy → Bool
  | .failover | .roundRobin | .random => true
  | _ => false

section

variable {route : NetRoute} {group : ProxyGroupConfig} {name n : String} {draw : ℕ}

theorem mem_of_candidate (h : Candidate route group n) :
    n ∈ route.members group ∧ route.healthy n = true := by
  rw [Candidate] at h
  split at h
  · exact ⟨List.mem_of_find?_eq_some h, by simpa using List.find?_some h⟩
  · exact h

theorem candidate_of_firstHealthyFrom {start : ℕ}
    (h : route.firstHealthyFrom (route.members group) start = some n) :
    n ∈ route.members group ∧ route.healthy n = true :=
  ⟨List.mem_rotate.mp (List.mem_of_find?_eq_some h), by simpa using List.find?_some h⟩

theorem candidate_of_pick (hs : group.strategy.isAdaptive = true)
    (h : (route.pickFromGroup group draw).1 = some n) : Candidate route group n := by
  rw [NetRoute.pickFromGroup] at h
  rw [Candidate]
  split at h
  · cases h
  · cases hstrategy : group.strategy with
    | failover => simpa [hstrategy] using h
    | roundRobin =>
      rw [hstrategy] at h
      exact candidate_of_firstHealthyFrom h
    | random =>
      rw [hstrategy] at h
      exact candidate_of_firstHealthyFrom h
    | fixed => simp [hstrategy, Strategy.isAdaptive] at hs
    | other text => simp [hstrategy, Strategy.isAdaptive] at hs

/-- From its own place on, a healthy member comes first. -/
theorem firstHealthyFrom_self {members : List String} (hn : n ∈ members)
    (hh : route.healthy n = true) : ∃ k < members.length, ∀ start, start % members.length = k →
      route.firstHealthyFrom members start = some n := by
  obtain ⟨k, hk, rfl⟩ := List.getElem_of_mem hn
  refine ⟨k, hk, fun start hstart => ?_⟩
  rw [NetRoute.firstHealthyFrom, hstart, List.rotate_eq_drop_append_take hk.le,
    List.drop_eq_getElem_cons hk, List.cons_append, List.find?_cons_of_pos]
  exact hh

/-- A selection moves the cursor and nothing else. -/
theorem selectNamedProxy_route (route : NetRoute) (name : Option String) (draw : ℕ) :
    ∃ r, (route.selectNamedProxy name draw).2 = { route with rr := r } := by
  have hself : ∃ r, route = { route with rr := r } := ⟨route.rr, rfl⟩
  unfold NetRoute.selectNamedProxy
  split
  · exact hself
  · split
    · simp only [NetRoute.pickFromGroup]
      split
      · exact hself
      · split
        · exact hself
        · exact ⟨_, rfl⟩
        · exact hself
        · exact hself
        · exact hself
    · exact hself

/-- What a selection of the group answers. -/
theorem answer_of_group {call : Call} (hask : call.asked route = some name)
    (hg : route.proxyGroups.lookup name = some group) : ∃ draw, call.answer route =
      ((((route.pickFromGroup group draw).1).bind fun n =>
        (route.proxies.lookup n).map (NetRoute.selectionForName n)).getD .direct) := by
  cases call with
  | probe name outcome => cases hask
  | probeAll outcomes => cases hask
  | selectProxy asked draw =>
    refine ⟨draw, ?_⟩
    rw [Call.asked] at hask
    rw [Call.answer, NetRoute.selectProxy, hask]
    simp only [NetRoute.selectNamedProxy, hg]
  | selectJobProxy asked draw =>
    refine ⟨draw, ?_⟩
    rw [Call.asked] at hask
    rw [Call.answer, NetRoute.selectJobProxy, hask]
    simp only [NetRoute.selectNamedProxy, hg]

/-- A selection of the group answers only candidates. -/
theorem candidate_of_answer {call : Call} (hs : group.strategy.isAdaptive = true)
    (hask : call.asked route = some name) (hg : route.proxyGroups.lookup name = some group)
    {url : String} {env : List (String × String)} (h : call.answer route = .forward n url env) :
    Candidate route group n := by
  obtain ⟨draw, hanswer⟩ := answer_of_group hask hg
  rw [hanswer] at h
  cases hpick : (route.pickFromGroup group draw).1 with
  | none => simp [hpick] at h
  | some picked =>
    cases hkind : route.proxies.lookup picked with
    | none => simp [hpick, hkind] at h
    | some kind =>
      simp only [hpick, Option.bind_some, hkind, Option.map_some, Option.getD_some] at h
      cases kind with
      | direct => cases h
      | command check env => cases h
      | forward url env =>
        cases h
        exact candidate_of_pick hs hpick

end

/-! ## Runs of calls -/

section

variable {s t : Routing} {group : ProxyGroupConfig} {name n : String}
  {m : List (String × ProxyProbe)}

/-- Selections leave everything but the cursor. -/
theorem exec_selections {bs : List Call} (hbs : ∀ b ∈ bs, b.isSelection = true)
    (h : exec callStep s bs = some t) :
    t.reported = s.reported ∧ ∃ r, t.route = { s.route with rr := r } := by
  induction bs generalizing s with
  | nil =>
    cases h
    exact ⟨rfl, t.route.rr, rfl⟩
  | cons b bs ih =>
    obtain ⟨u, hu, ht⟩ := (exec_cons_eq_some callStep).mp h
    obtain ⟨hreported, r, hroute⟩ := ih (fun b hb => hbs b (List.mem_cons_of_mem _ hb)) ht
    have hstep : u.reported = s.reported ∧ ∃ r, u.route = { s.route with rr := r } := by
      cases b with
      | probe name outcome => simp [Call.isSelection] at hbs
      | probeAll outcomes => simp [Call.isSelection] at hbs
      | selectProxy asked draw =>
        cases hu
        exact ⟨rfl, selectNamedProxy_route _ _ _⟩
      | selectJobProxy asked draw =>
        cases hu
        exact ⟨rfl, selectNamedProxy_route _ _ _⟩
    obtain ⟨hsame, r', hroute'⟩ := hstep
    exact ⟨hreported.trans hsame, r, by rw [hroute, hroute']⟩

/-- The map names direct routes as healthy. -/
def DirectUp (s : Routing) : Prop :=
  ∀ m, s.reported = some m → ∀ name p, m.lookup name = some p →
    s.route.proxies.lookup name = some .direct → p.healthy = true

/-- The joined tasks probe the proxies of the route. -/
theorem joined_directUp {proxies : List (String × ProxyKind)}
    {outcomes : String → Option ProxyProbe} (names : List String)
    (acc : NetRoute × List (String × ProxyProbe)) (hacc : acc.1.proxies = proxies)
    (hup : ∀ e ∈ acc.2, proxies.lookup e.1 = some .direct → e.2.healthy = true) :
    ∀ e ∈ (names.foldl (NetRoute.joinNext outcomes) acc).2,
      proxies.lookup e.1 = some .direct → e.2.healthy = true := by
  induction names generalizing acc with
  | nil => exact hup
  | cons name names ih =>
    rw [List.foldl_cons]
    cases ho : outcomes name with
    | none =>
      have hsame : NetRoute.joinNext outcomes acc name = acc := by simp [NetRoute.joinNext, ho]
      rw [hsame]
      exact ih acc hacc hup
    | some outcome =>
      refine ih _ (by simpa [NetRoute.joinNext, ho, NetRoute.probe] using hacc) ?_
      simp only [NetRoute.joinNext, ho, NetRoute.probe, hacc, List.mem_cons, forall_eq_or_imp]
      refine ⟨fun hk => ?_, hup⟩
      simp [hk, NetRoute.probeOne]

theorem probeAll_directUp (route : NetRoute) (outcomes : String → Option ProxyProbe) {name : String}
    {p : ProxyProbe} (h : (route.probeAll outcomes).1.lookup name = some p)
    (hk : route.proxies.lookup name = some .direct) : p.healthy = true := by
  obtain ⟨l, l', hl, -⟩ := List.lookup_eq_some_iff.mp h
  have hmem : (name, p) ∈ (route.probeAll outcomes).1 := by rw [hl]; simp
  exact joined_directUp (route.proxies.map Prod.fst) (route.clone, []) rfl (by simp) (name, p) hmem
    hk

theorem directUp_step {call : Call} (h : callStep s call = some t) (hs : DirectUp s) :
    DirectUp t := by
  cases call with
  | probe name outcome =>
    cases h
    exact fun m hm => by cases hm
  | probeAll outcomes =>
    cases h
    intro m hm name p hp hk
    cases hm
    exact probeAll_directUp s.route outcomes hp hk
  | selectProxy asked draw =>
    cases h
    obtain ⟨r, hr⟩ := selectNamedProxy_route s.route (asked.or s.route.defaultProxy) draw
    intro m hm name p hp hk
    exact hs m hm name p hp (by simpa [NetRoute.selectProxy, hr] using hk)
  | selectJobProxy asked draw =>
    cases h
    obtain ⟨r, hr⟩ := selectNamedProxy_route s.route asked draw
    intro m hm name p hp hk
    exact hs m hm name p hp (by simpa [NetRoute.selectJobProxy, hr] using hk)

/-- A member that the map reports unhealthy is a forward proxy. -/
theorem forward_of_down (hup : DirectUp s) (hm : s.reported = some m) (hdown : Down m n)
    (hn : n ∈ s.route.members group) :
    ∃ url env, s.route.proxies.lookup n = some (.forward url env) := by
  obtain ⟨p, hp, hunhealthy⟩ := hdown
  have hkind := (List.mem_filter.mp hn).2
  split at hkind
  · rename_i url env hforward
    exact ⟨url, env, hforward⟩
  · rename_i hdirect
    rw [hup m hm n p hp hdirect] at hunhealthy
    cases hunhealthy
  · cases hkind

/-- The answer to a job that asks for the group, when a forward proxy is picked. -/
theorem answer_of_pick (route : NetRoute) (hg : route.proxyGroups.lookup name = some group)
    {url : String} {env : List (String × String)}
    (hkind : route.proxies.lookup n = some (.forward url env)) {draw : ℕ}
    (hpick : (route.pickFromGroup group draw).1 = some n) :
    (Call.selectJobProxy (some name) draw).answer route = .forward n url env := by
  simp [Call.answer, NetRoute.selectJobProxy, NetRoute.selectNamedProxy, hg, hpick, hkind,
    NetRoute.selectionForName]

/-- Selections of a round-robin group move the cursor on by one each. -/
theorem exec_cursor (hstrategy : group.strategy = .roundRobin)
    (hg : s.route.proxyGroups.lookup name = some group) (hne : s.route.members group ≠ []) (j : ℕ) :
    exec callStep s (List.replicate j (.selectJobProxy (some name) 0)) =
      some { s with route := { s.route with rr := s.route.rr + j } } := by
  induction j generalizing s with
  | zero => rfl
  | succ j ih =>
    have hstep : callStep s (.selectJobProxy (some name) 0) =
        some { s with route := { s.route with rr := s.route.rr + 1 } } := by
      simp [callStep, NetRoute.selectJobProxy, NetRoute.selectNamedProxy, hg,
        NetRoute.pickFromGroup, hne, hstrategy]
    rw [List.replicate_succ, exec_cons, hstep, Option.bind_some]
    refine (ih (s := { s with route := { s.route with rr := s.route.rr + 1 } }) hg hne).trans ?_
    simp only [Option.some.injEq, Routing.mk.injEq, NetRoute.mk.injEq, true_and, and_true]
    omega

/-- A candidate of the group is answered after some more selections. -/
theorem candidate_answered (hs : group.strategy.isAdaptive = true)
    (hg : s.route.proxyGroups.lookup name = some group) {url : String}
    {env : List (String × String)} (hkind : s.route.proxies.lookup n = some (.forward url env))
    (hc : Candidate s.route group n) :
    ∃ bs, (∀ b ∈ bs, b.isSelection = true) ∧ ∃ t, exec callStep s bs = some t ∧
      ∃ call : Call, call.asked t.route = some name ∧ call.answer t.route = .forward n url env := by
  obtain ⟨hmem, hhealthy⟩ := mem_of_candidate hc
  have hne : s.route.members group ≠ [] := List.ne_nil_of_mem hmem
  obtain ⟨k, hk, hfirst⟩ := firstHealthyFrom_self hmem hhealthy
  have hmod : k % (s.route.members group).length = k := Nat.mod_eq_of_lt hk
  cases hstrategy : group.strategy with
  | failover =>
    refine ⟨[], by simp, s, rfl, .selectJobProxy (some name) 0, rfl,
      answer_of_pick s.route hg hkind ?_⟩
    rw [Candidate, hstrategy] at hc
    simpa [NetRoute.pickFromGroup, hne, hstrategy] using hc
  | random =>
    refine ⟨[], by simp, s, rfl, .selectJobProxy (some name) k, rfl,
      answer_of_pick s.route hg hkind ?_⟩
    simpa [NetRoute.pickFromGroup, hne, hstrategy] using hfirst k hmod
  | roundRobin =>
    -- the cursor gets to `k`, up to a multiple of the number of members
    obtain ⟨j, hj⟩ : ∃ j, (s.route.rr + j) % (s.route.members group).length = k := by
      obtain ⟨l, hl⟩ : ∃ l, (s.route.members group).length = l + 1 :=
        Nat.exists_eq_add_one.mpr (by omega)
      refine ⟨k + l * s.route.rr, ?_⟩
      have hsum : s.route.rr + (k + l * s.route.rr) =
          k + (s.route.members group).length * s.route.rr := by
        rw [hl]
        ring
      rw [hsum, Nat.add_mul_mod_self_left, hmod]
    refine ⟨_, ?_, _, exec_cursor hstrategy hg hne j, .selectJobProxy (some name) 0, rfl, ?_⟩
    · intro b hb
      rw [List.eq_of_mem_replicate hb]
      rfl
    · have hpick : (({ s.route with rr := s.route.rr + j } : NetRoute).pickFromGroup group 0).1 =
          some n := by
        rw [NetRoute.pickFromGroup, hstrategy]
        exact (congrArg Prod.fst (if_neg hne)).trans (hfirst _ hj)
      exact answer_of_pick { s.route with rr := s.route.rr + j } hg hkind hpick
  | fixed => simp [hstrategy, Strategy.isAdaptive] at hs
  | other text => simp [hstrategy, Strategy.isAdaptive] at hs

end

/-- After `probe_all` has returned a map, the later selections of an adaptive group follow it iff
each member that they can settle on, by what `probe` has recorded on this very route, is not
reported unhealthy, or every member is. -/
theorem selections_follow_iff (proxies : List (String × ProxyKind))
    (proxyGroups : List (String × ProxyGroupConfig)) (defaultProxy : Option String)
    (as : List Call) (s : Routing)
    (hrun : exec callStep ⟨.new proxies proxyGroups defaultProxy, none⟩ as = some s)
    (m : List (String × ProxyProbe)) (hm : s.reported = some m) (name : String)
    (group : ProxyGroupConfig) (hg : s.route.proxyGroups.lookup name = some group)
    (hs : group.strategy.isAdaptive = true) :
    (∀ bs, (∀ b ∈ bs, b.isSelection = true) → ∀ t, exec callStep s bs = some t →
      ∀ call : Call, call.asked t.route = some name →
        Obeys m (t.route.members group) (call.answer t.route)) ↔
      (∀ n, Candidate s.route group n → ¬Down m n) ∨ ∀ n ∈ s.route.members group, Down m n := by
  have hup : DirectUp s := exec_invariant callStep DirectUp
    (fun t call u ht hu => directUp_step hu ht) (fun _ h => by cases h) hrun
  constructor
  · intro h
    by_cases hall : ∀ n ∈ s.route.members group, Down m n
    · exact Or.inr hall
    · refine Or.inl fun n hc hdown => hall ?_
      obtain ⟨url, env, hkind⟩ := forward_of_down hup hm hdown (mem_of_candidate hc).1
      obtain ⟨bs, hbs, t, ht, call, hask, hanswer⟩ := candidate_answered hs hg hkind hc
      obtain ⟨-, r, hroute⟩ := exec_selections hbs ht
      have hobeys := h bs hbs t ht call hask n url env hanswer hdown
      rw [hroute] at hobeys
      exact hobeys
  · intro h bs hbs t ht call hask n url env hanswer hdown
    obtain ⟨-, r, hroute⟩ := exec_selections hbs ht
    have hgt : t.route.proxyGroups.lookup name = some group := by rw [hroute]; exact hg
    have hc := candidate_of_answer hs hask hgt hanswer
    rw [hroute] at hc ⊢
    rcases h with hfree | hall
    · exact absurd hdown (hfree n hc)
    · exact hall

/-! A failover group whose first proxy is down. -/

def failoverProxies : List (String × ProxyKind) :=
  [("bad", .forward "socks5h://127.0.0.1:1" []), ("good", .forward "http://127.0.0.1:2" [])]

def failoverGroup : ProxyGroupConfig := ⟨["bad", "good"], .failover⟩

def badProbe : ProxyProbe := ⟨some 1, none, false, some 0⟩

def goodProbe : ProxyProbe := ⟨some 1, some "192.0.2.1", true, some 0⟩

def failoverOutcomes (name : String) : Option ProxyProbe :=
  some (if name = "bad" then badProbe else goodProbe)

def failoverReport : List (String × ProxyProbe) := [("good", goodProbe), ("bad", badProbe)]

/-- `route` after the calls, with the report of the last one. -/
def failoverRouting (states : String → Option ProxyProbe) : Routing :=
  ⟨⟨failoverProxies, [("g", failoverGroup)], none, states, 0⟩, some failoverReport⟩

def recordedBad (name : String) : Option ProxyProbe := if name = "bad" then some badProbe else none

/-- Once `probe` itself has recorded the proxy as down, the selections pass over it. -/
theorem selections_follow_iff_recorded :
    Obeys failoverReport ["bad", "good"]
      ((failoverRouting recordedBad).route.selectJobProxy (some "g") 0).1 := by
  have hrun : exec callStep ⟨.new failoverProxies [("g", failoverGroup)] none, none⟩
      [.probe "bad" badProbe, .probeAll failoverOutcomes] = some (failoverRouting recordedBad) :=
    rfl
  have hfree : ∀ n, Candidate (failoverRouting recordedBad).route failoverGroup n →
      ¬Down failoverReport n := by
    rintro n hc ⟨p, hp, hdown⟩
    have hfirst : ((failoverRouting recordedBad).route.members failoverGroup).find?
        (fun n => (failoverRouting recordedBad).route.healthy n) = some "good" := by decide
    obtain rfl : "good" = n := Option.some.inj (hfirst.symm.trans hc)
    obtain rfl : goodProbe = p := Option.some.inj hp
    cases hdown
  exact (selections_follow_iff failoverProxies [("g", failoverGroup)] none _ _ hrun failoverReport rfl
    "g" failoverGroup rfl rfl).mpr (Or.inl hfree) [] (by simp) _ rfl
    (.selectJobProxy (some "g") 0) rfl

/-- What `probe_all` has found is lost: the group still answers the proxy that is down. -/
theorem probe_all_forgotten :
    exec callStep ⟨.new failoverProxies [("g", failoverGroup)] none, none⟩
        [.probeAll failoverOutcomes] = some (failoverRouting fun _ => none) ∧
      ¬Obeys failoverReport ((failoverRouting fun _ => none).route.members failoverGroup)
        ((failoverRouting fun _ => none).route.selectJobProxy (some "g") 0).1 := by
  refine ⟨rfl, fun h => ?_⟩
  obtain ⟨p, hp, hdown⟩ := h "bad" "socks5h://127.0.0.1:1" [] (by decide) ⟨badProbe, rfl, rfl⟩ "good"
    (by decide)
  obtain rfl : goodProbe = p := Option.some.inj hp
  cases hdown

end Synora.Net
