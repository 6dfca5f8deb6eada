import Mathlib.Data.Nat.ModEq
import Synora.Net.Route

namespace Synora.Net

/-! # The cursor of the round-robin groups -/

structure EgressGroupConfig where
  addresses : List String
  strategy : Strategy
deriving DecidableEq, Repr

/-- A `NetRoute` with its egress side; proxy groups and egress groups share the cursor, a `u64`. -/
structure Dispatcher where
  route : NetRoute
  egresses : List (String × String)
  egressGroups : List (String × EgressGroupConfig)
  egressHealth : String → Option Bool
  rr_lt : route.rr < 2 ^ 64

namespace Dispatcher

/-- The route with its cursor moved by `fetch_add`, which wraps around. -/
def moveTo (s : Dispatcher) (rr : ℕ) : Dispatcher :=
  { s with route := { s.route with rr := rr % 2 ^ 64 }, rr_lt := Nat.mod_lt _ (by decide) }

def selectJobProxy (s : Dispatcher) (name : Option String) (draw : ℕ) : Selection × Dispatcher :=
  let (sel, route) := s.route.selectJobProxy name draw
  (sel, s.moveTo route.rr)

/-- The members that are configured. -/
def egressMembers (s : Dispatcher) (group : EgressGroupConfig) : List String :=
  group.addresses.filter fun n => (s.egresses.lookup n).isSome

def pickEgressFromGroup (s : Dispatcher) (group : EgressGroupConfig) (draw : ℕ) :
    Option String × Dispatcher :=
  let members := s.egressMembers group
  let healthy (n : String) : Bool := (s.egressHealth n).getD true
  let address (n : String) : Option String := s.egresses.lookup n
  if members = [] then (none, s)
  else
    match group.strategy with
    | .failover => ((members.find? healthy).bind address, s)
    | .roundRobin => (((members.rotate (s.route.rr % members.length)).find? healthy).bind address,
        s.moveTo (s.route.rr + 1))
    | .random => (((members.rotate (draw % members.length)).find? healthy).bind address, s)
    | .fixed | .other _ => (members.head?.bind address, s)

def selectEgress (s : Dispatcher) (name : Option String) (draw : ℕ) : Option String × Dispatcher :=
  match name with
  | none => (none, s)
  | some name =>
    match s.egressGroups.lookup name with
    | some group => s.pickEgressFromGroup group draw
    | none => (s.egresses.lookup name, s)

end Dispatcher

/-- What moves the cursor: a run that a heartbeat offers, a claim, and a run that the manager
executes itself, each for a job with this `proxy` or `egress`. -/
inductive RouteRequest
  | offer (proxy : Option String) (draw : ℕ)
  | claim (proxy : Option String) (draw : ℕ)
  | egress (egress : Option String) (draw : ℕ)
deriving DecidableEq, Repr

namespace Dispatcher

def serve (s : Dispatcher) : RouteRequest → Dispatcher
  | .offer proxy draw | .claim proxy draw => (s.selectJobProxy proxy draw).2
  | .egress egress draw => (s.selectEgress egress draw).2

def serveAll (s : Dispatcher) (requests : List RouteRequest) : Dispatcher := requests.foldl serve s

/-- What the claim responses for the jobs of a group hand out. -/
def handed (name : String) : Dispatcher → List RouteRequest → List Selection
  | _, [] => []
  | s, r :: requests =>
    match r with
    | .claim proxy draw =>
      if proxy = some name then (s.selectJobProxy proxy draw).1 :: handed name (s.serve r) requests
      else handed name (s.serve r) requests
    | _ => handed name (s.serve r) requests

end Dispatcher

/-- Of every `m` consecutive ones, no two are equal. -/
def Rotates (m : ℕ) (l : List Selection) : Prop :=
  ∀ before a between b behind, l = before ++ a :: (between ++ b :: behind) →
    between.length + 1 < m → a ≠ b

/-! ## Turns -/

/-- A selection of this name moves the cursor on. -/
def NetRoute.advances (route : NetRoute) (proxy : Option String) : Bool :=
  (proxy.bind fun name => route.proxyGroups.lookup name).any fun group =>
    decide (group.strategy = .roundRobin ∧ route.members group ≠ [])

namespace Dispatcher

/-- The request moves the cursor on by one. -/
def takesTurn (s : Dispatcher) : RouteRequest → Bool
  | .offer proxy _ | .claim proxy _ => s.route.advances proxy
  | .egress egress _ => (egress.bind fun name => s.egressGroups.lookup name).any fun group =>
      decide (group.strategy = .roundRobin ∧ s.egressMembers group ≠ [])

def turns (s : Dispatcher) (requests : List RouteRequest) : ℕ := requests.countP s.takesTurn

/-- What the member at a place of the group is handed out as. -/
def handedAt (s : Dispatcher) (group : ProxyGroupConfig) (place : ℕ) : Selection :=
  ((s.route.members group)[place]?.bind fun n =>
    (s.route.proxies.lookup n).map (NetRoute.selectionForName n)).getD .direct

/-- The place of the group that the cursor points at after so many turns. -/
def placeAfter (s : Dispatcher) (group : ProxyGroupConfig) (turns : ℕ) : ℕ :=
  (s.route.rr + turns) % 2 ^ 64 % (s.route.members group).length

/-- Every member of the group counts as healthy. -/
def AllHealthy (s : Dispatcher) (group : ProxyGroupConfig) : Prop :=
  ∀ n ∈ s.route.members group, s.route.healthy n = true

end Dispatcher

/-- A claim for a job of the group. -/
def isClaimOf (name : String) : RouteRequest → Bool
  | .claim proxy _ => decide (proxy = some name)
  | _ => false

section
variable {s : Dispatcher} {name : String} {group : ProxyGroupConfig}

theorem selectNamedProxy_rr (route : NetRoute) (proxy : Option String) (draw : ℕ) :
    (route.selectNamedProxy proxy draw).2.rr =
      route.rr + if route.advances proxy then 1 else 0 := by
  unfold NetRoute.selectNamedProxy NetRoute.advances
  cases proxy with
  | none => rfl
  | some name =>
    cases hg : route.proxyGroups.lookup name with
    | none => simp [hg]
    | some group =>
      by_cases hne : route.members group = []
      · simp [hg, NetRoute.pickFromGroup, hne]
      · cases hs : group.strategy <;> simp [hg, NetRoute.pickFromGroup, hne, hs]

theorem moveTo_self (s : Dispatcher) : s.moveTo s.route.rr = s := by
  obtain ⟨route, egresses, egressGroups, egressHealth, hlt⟩ := s
  simp only [Dispatcher.moveTo, Nat.mod_eq_of_lt hlt]

/-- A request changes nothing but the cursor. -/
theorem serve_eq (s : Dispatcher) (r : RouteRequest) :
    s.serve r = s.moveTo (s.route.rr + if s.takesTurn r then 1 else 0) := by
  have hproxy (proxy : Option String) (draw : ℕ) : (s.selectJobProxy proxy draw).2 =
      s.moveTo (s.route.rr + if s.route.advances proxy then 1 else 0) :=
    congrArg s.moveTo (selectNamedProxy_rr s.route proxy draw)
  cases r with
  | offer proxy draw => exact hproxy proxy draw
  | claim proxy draw => exact hproxy proxy draw
  | egress egress draw =>
    unfold Dispatcher.serve Dispatcher.selectEgress Dispatcher.takesTurn
    cases egress with
    | none => exact (moveTo_self s).symm
    | some name =>
      cases hg : s.egressGroups.lookup name with
      | none => simp [hg, moveTo_self]
      | some group =>
        by_cases hne : s.egressMembers group = []
        · simp [hg, Dispatcher.pickEgressFromGroup, hne, moveTo_self]
        · cases hs : group.strategy <;>
            simp [hg, Dispatcher.pickEgressFromGroup, hne, hs, moveTo_self]

/-- Two moves of the cursor in a row. -/
theorem moveTo_moveTo (s : Dispatcher) (a b : ℕ) :
    (s.moveTo a).moveTo ((s.moveTo a).route.rr + b) = s.moveTo (a + b) := by
  simp [Dispatcher.moveTo]

theorem serveAll_append (s : Dispatcher) (as bs : List RouteRequest) :
    s.serveAll (as ++ bs) = (s.serveAll as).serveAll bs := List.foldl_append

theorem serveAll_eq (s : Dispatcher) (requests : List RouteRequest) :
    s.serveAll requests = s.moveTo (s.route.rr + s.turns requests) := by
  induction requests using List.reverseRecOn with
  | nil => exact (moveTo_self s).symm
  | append_singleton requests r ih =>
    have hsame : (s.moveTo (s.route.rr + s.turns requests)).takesTurn r = s.takesTurn r := rfl
    have hturns : s.turns (requests ++ [r]) =
        s.turns requests + if s.takesTurn r then 1 else 0 := by
      simp [Dispatcher.turns, List.countP_singleton]
    rw [serveAll_append, ih]
    exact (serve_eq _ r).trans (by rw [hsame, moveTo_moveTo, hturns, Nat.add_assoc])

/-- While all are healthy, the member at the cursor is picked. -/
theorem firstHealthyFrom_cursor {route : NetRoute} {members : List String}
    (h : ∀ n ∈ members, route.healthy n = true) (start : ℕ) :
    route.firstHealthyFrom members start = members[start % members.length]? := by
  unfold NetRoute.firstHealthyFrom
  cases hlen : members with
  | nil => rfl
  | cons n rest =>
    rw [← hlen]
    have hlt : start % members.length < members.length := Nat.mod_lt _ (by rw [hlen]; simp)
    rw [List.rotate_eq_drop_append_take hlt.le, List.drop_eq_getElem_cons hlt, List.cons_append,
      List.find?_cons_of_pos, List.getElem?_eq_getElem hlt]
    exact h _ (List.getElem_mem hlt)

/-- What a claim of the group hands out after some requests. -/
theorem selectJobProxy_after (hg : s.route.proxyGroups.lookup name = some group)
    (hrr : group.strategy = .roundRobin) (hh : s.AllHealthy group) (requests : List RouteRequest)
    (draw : ℕ) : ((s.serveAll requests).selectJobProxy (some name) draw).1 =
      s.handedAt group (s.placeAfter group (s.turns requests)) := by
  have hpick (rr : ℕ) : (({ s.route with rr } : NetRoute).pickFromGroup group draw).1 =
      (s.route.members group)[rr % (s.route.members group).length]? := by
    unfold NetRoute.pickFromGroup
    by_cases hne : s.route.members group = []
    · rw [hne]
      exact congrArg Prod.fst (if_pos hne)
    · rw [hrr]
      exact (congrArg Prod.fst (if_neg hne)).trans (firstHealthyFrom_cursor hh rr)
  rw [serveAll_eq]
  unfold Dispatcher.selectJobProxy NetRoute.selectJobProxy NetRoute.selectNamedProxy
    Dispatcher.moveTo
  dsimp only
  rw [hg]
  dsimp only
  rw [hpick]
  rfl

/-! ## What is handed out -/

theorem claim_of {r : RouteRequest} (h : isClaimOf name r = true) :
    ∃ draw, r = .claim (some name) draw := by
  cases r with
  | offer proxy draw => cases h
  | egress egress draw => cases h
  | claim proxy draw =>
    obtain rfl : proxy = some name := of_decide_eq_true h
    exact ⟨draw, rfl⟩

theorem handed_claim (s : Dispatcher) (name : String) (draw : ℕ) (requests : List RouteRequest) :
    s.handed name (.claim (some name) draw :: requests) =
      (s.selectJobProxy (some name) draw).1 ::
        (s.serve (.claim (some name) draw)).handed name requests := if_pos rfl

theorem handed_other {r : RouteRequest} (h : isClaimOf name r = false)
    (requests : List RouteRequest) :
    s.handed name (r :: requests) = (s.serve r).handed name requests := by
  cases r with
  | offer proxy draw => rfl
  | egress egress draw => rfl
  | claim proxy draw => exact if_neg (of_decide_eq_false h)

theorem handed_append (s : Dispatcher) (name : String) (as bs : List RouteRequest) :
    s.handed name (as ++ bs) = s.handed name as ++ (s.serveAll as).handed name bs := by
  induction as generalizing s with
  | nil => rfl
  | cons r as ih =>
    cases hr : isClaimOf name r with
    | true =>
      obtain ⟨draw, rfl⟩ := claim_of hr
      rw [List.cons_append, handed_claim, handed_claim, ih]
      rfl
    | false =>
      rw [List.cons_append, handed_other hr, handed_other hr, ih]
      rfl

theorem length_handed (s : Dispatcher) (name : String) (requests : List RouteRequest) :
    (s.handed name requests).length = requests.countP (isClaimOf name) := by
  induction requests generalizing s with
  | nil => rfl
  | cons r requests ih =>
    cases hr : isClaimOf name r with
    | true =>
      obtain ⟨draw, rfl⟩ := claim_of hr
      rw [handed_claim, List.length_cons, ih, List.countP_cons_of_pos hr]
    | false => rw [handed_other hr, ih, List.countP_cons_of_neg (by simp [hr])]

/-- Whatever is handed out, a claim has asked for it. -/
theorem handed_split {before rest : List Selection} {a : Selection} {requests : List RouteRequest}
    (h : s.handed name requests = before ++ a :: rest) :
    ∃ pre draw post, requests = pre ++ .claim (some name) draw :: post ∧
      s.handed name pre = before ∧
      ((s.serveAll pre).selectJobProxy (some name) draw).1 = a ∧
      ((s.serveAll pre).serve (.claim (some name) draw)).handed name post = rest := by
  induction requests generalizing s before with
  | nil => simp [Dispatcher.handed] at h
  | cons r requests ih =>
    cases hr : isClaimOf name r with
    | true =>
      obtain ⟨draw, rfl⟩ := claim_of hr
      rw [handed_claim] at h
      cases before with
      | nil =>
        obtain ⟨ha, hrest⟩ := List.cons.inj h
        exact ⟨[], draw, requests, rfl, rfl, ha, hrest⟩
      | cons b before =>
        obtain ⟨rfl, hrest⟩ := List.cons.inj h
        obtain ⟨pre, d, post, rfl, hpre, ha, hpost⟩ := ih hrest
        exact ⟨.claim (some name) draw :: pre, d, post, rfl,
          (handed_claim s name draw pre).trans (congrArg _ hpre), ha, hpost⟩
    | false =>
      rw [handed_other hr] at h
      obtain ⟨pre, d, post, rfl, hpre, ha, hpost⟩ := ih h
      exact ⟨r :: pre, d, post, rfl, (handed_other hr pre).trans hpre, ha, hpost⟩

/-- A group of two or more has a turn taken by each claim. -/
theorem turns_claim (hg : s.route.proxyGroups.lookup name = some group)
    (hrr : group.strategy = .roundRobin) (hne : s.route.members group ≠ [])
    (pre mid : List RouteRequest) (draw : ℕ) :
    s.turns (pre ++ .claim (some name) draw :: mid) = s.turns pre + 1 + s.turns mid := by
  have hturn : s.takesTurn (.claim (some name) draw) = true := by
    simp [Dispatcher.takesTurn, NetRoute.advances, hg, hrr, hne]
  simp only [Dispatcher.turns, List.countP_append, List.countP_cons, hturn, if_true]
  omega

end

/-- The claims of a round-robin group rotate exactly when every two of them that have fewer than
`m - 1` others in between find the cursor, which all groups and all offers move, at places of the
group that are handed out differently. -/
theorem rotates_iff (s : Dispatcher) (name : String) (group : ProxyGroupConfig)
    (hg : s.route.proxyGroups.lookup name = some group) (hrr : group.strategy = .roundRobin)
    (hh : s.AllHealthy group) (requests : List RouteRequest) :
    Rotates (s.route.members group).length (s.handed name requests) ↔
      ∀ pre draw mid draw' post,
        requests = pre ++ .claim (some name) draw :: (mid ++ .claim (some name) draw' :: post) →
        mid.countP (isClaimOf name) + 1 < (s.route.members group).length →
        s.handedAt group (s.placeAfter group (s.turns pre)) ≠
          s.handedAt group (s.placeAfter group (s.turns pre + 1 + s.turns mid)) := by
  have hafter := selectJobProxy_after hg hrr hh
  have hne {n : ℕ} (h : n + 1 < (s.route.members group).length) : s.route.members group ≠ [] :=
    List.ne_nil_of_length_pos (by omega)
  constructor
  · rintro hrot pre draw mid draw' post rfl hmid
    rw [← hafter pre draw, ← turns_claim hg hrr (hne hmid) pre mid draw,
      ← hafter _ draw']
    rw [handed_append, handed_claim, handed_append, handed_claim] at hrot
    rw [serveAll_append]
    exact hrot _ _ _ _ _ rfl (by rwa [length_handed])
  · intro hplaces before a between b behind hl hbetween
    obtain ⟨pre, draw, rest, rfl, -, ha, hrest⟩ := handed_split hl
    obtain ⟨mid, draw', post, rfl, hmid, hb, -⟩ := handed_split hrest
    rw [← hmid, length_handed] at hbetween
    have hplace := hplaces pre draw mid draw' post rfl hbetween
    rw [← hafter pre draw, ← turns_claim hg hrr (hne hbetween) pre mid draw, ← hafter _ draw',
      serveAll_append] at hplace
    rw [← ha, ← hb]
    exact hplace

/-- In a group that hands every member out differently, the two places are told apart by the turns
in between, as long as the cursor has not wrapped around. -/
theorem places_differ_iff {s : Dispatcher} {group : ProxyGroupConfig}
    (hdistinct : ∀ i < (s.route.members group).length, ∀ j < (s.route.members group).length,
      s.handedAt group i = s.handedAt group j → i = j)
    (hne : s.route.members group ≠ []) {before between : ℕ}
    (hlt : s.route.rr + (before + between) < 2 ^ 64) :
    s.handedAt group (s.placeAfter group before) ≠
        s.handedAt group (s.placeAfter group (before + between)) ↔
      ¬(s.route.members group).length ∣ between := by
  have hpos : 0 < (s.route.members group).length := List.length_pos_iff.mpr hne
  have hplace (n : ℕ) : s.placeAfter group n < (s.route.members group).length :=
    Nat.mod_lt _ hpos
  rw [not_iff_not]
  have hiff : s.handedAt group (s.placeAfter group before) =
      s.handedAt group (s.placeAfter group (before + between)) ↔
        s.placeAfter group before = s.placeAfter group (before + between) :=
    ⟨hdistinct _ (hplace _) _ (hplace _), congrArg _⟩
  have hlt' : s.route.rr + before < 2 ^ 64 := by omega
  rw [hiff]
  unfold Dispatcher.placeAfter
  rw [Nat.mod_eq_of_lt hlt', Nat.mod_eq_of_lt hlt, ← Nat.add_assoc]
  exact Nat.left_modEq_add_iff

/-! A group of two proxies. -/

def pairProxies : List (String × ProxyKind) :=
  [("a", .forward "http://192.0.2.1:3128" []), ("b", .forward "http://192.0.2.2:3128" [])]

def pairGroup : ProxyGroupConfig := ⟨["a", "b"], .roundRobin⟩

def pairDispatcher : Dispatcher :=
  ⟨.new pairProxies [("g", pairGroup)] none, [], [], fun _ => none, by decide⟩

/-- Two claims that nothing stands between are handed both proxies. -/
theorem rotates_iff_pair : Rotates 2 (pairDispatcher.handed "g"
    [.claim (some "g") 0, .claim (some "g") 0]) := by
  refine (rotates_iff pairDispatcher "g" pairGroup rfl rfl (fun _ _ => rfl) _).mpr ?_
  intro pre draw mid draw' post h _
  match pre, mid, h with
  | [], [], _ => decide
  | [], _ :: mid, h => simp at h
  | [_], mid, h => simp at h
  | _ :: _ :: pre, mid, h => simp at h

/-- Where every run is offered before it is claimed, each claim is handed the same proxy. -/
theorem offers_take_turns : pairDispatcher.handed "g"
      [.offer (some "g") 0, .claim (some "g") 0, .offer (some "g") 0, .claim (some "g") 0] =
        List.replicate 2 (.forward "b" "http://192.0.2.2:3128" []) ∧
    ¬Rotates (pairDispatcher.route.members pairGroup).length (pairDispatcher.handed "g"
      [.offer (some "g") 0, .claim (some "g") 0, .offer (some "g") 0, .claim (some "g") 0]) := by
  have hhanded : pairDispatcher.handed "g"
      [.offer (some "g") 0, .claim (some "g") 0, .offer (some "g") 0, .claim (some "g") 0] =
        List.replicate 2 (.forward "b" "http://192.0.2.2:3128" []) := by decide +kernel
  refine ⟨hhanded, fun h => ?_⟩
  rw [hhanded] at h
  exact h [] _ [] _ [] rfl (by decide) rfl

end Synora.Net
