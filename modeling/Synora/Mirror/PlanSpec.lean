import Synora.Lib.Runs
import Synora.Mirror.Plan

namespace Synora.Mirror
open Strings Utf8

/-- What a consumed listing tells the planner, in order. -/
inductive Item
  | manifest (key : Text)
  | entry (w : DirectoryWork) (e : Entry)
deriving DecidableEq, Repr

def Listing.items (env : Env) (l : Listing) : List Item :=
  match l.entries env with
  | .error _ => []
  | .ok es =>
    (if l.work.isManifest then [.manifest (manifestKey l.work)] else []) ++ es.map (.entry l.work)

/-- The key under which the planner remembers an item; unsafe and excluded entries have none. -/
def Item.key (env : Env) : Item → Option Text
  | .manifest key => some key
  | .entry w e =>
    if isSafeRel e.path ∧ ¬isExcluded env.ext env.excludes (keyOf w e) then some (keyOf w e)
    else none

def Item.isEntry : Item → Bool
  | .manifest _ => false
  | .entry _ _ => true

/-- The keys that the listings name. -/
def listedKeys (env : Env) (items : List Item) : List Text := items.filterMap (Item.key env)

/-- The entries that count towards the cap. -/
def entryCount (env : Env) (items : List Item) : ℕ :=
  items.countP fun i => i.isEntry && (i.key env).isSome

/-- An entry comes after the cap has been filled. -/
def CapHit (env : Env) : List Item → Prop :=
  Runs.Meets fun pre i => i.isEntry ∧ maxEntries ≤ entryCount env pre

/-- A directory that was not named before is listed at depth zero. -/
def DepthCut (env : Env) : List Item → Prop :=
  Runs.Meets fun pre i => ∃ w e, i = .entry w e ∧ e.kind = .dir ∧ w.depth = 0 ∧
    i.key env = some (keyOf w e) ∧ keyOf w e ∉ listedKeys env pre

/-- The crawl stopped early at the entry cap or at the depth limit. -/
def CutShort (env : Env) (items : List Item) : Prop := CapHit env items ∨ DepthCut env items

theorem listedKeys_append (env : Env) (is js : List Item) :
    listedKeys env (is ++ js) = listedKeys env is ++ listedKeys env js := List.filterMap_append

/-- The state of the crawl after the items `done`, none of which came after the cap. -/
structure Tracks (env : Env) (c : Crawl) (done : List Item) : Prop where
  remote : ∀ k, k ∈ c.remote ↔ k ∈ listedKeys env done
  seen : c.seen = entryCount env done
  incomplete : c.plan.incomplete = true ↔ c.listingFailed = true ∨ DepthCut env done
  uncapped : ¬CapHit env done
  open_ : c.entryCapReached = false

/-- What `enqueue` leaves alone, and when it marks the plan incomplete. -/
theorem enqueue_spec (env : Env) (w : DirectoryWork) (e : Entry) (c : Crawl) :
    (Crawl.enqueue env w e c).remote = c.remote ∧ (Crawl.enqueue env w e c).seen = c.seen ∧
    (Crawl.enqueue env w e c).listingFailed = c.listingFailed ∧
    (Crawl.enqueue env w e c).entryCapReached = c.entryCapReached ∧
    (Crawl.enqueue env w e c).consumed = c.consumed ∧
    ((Crawl.enqueue env w e c).plan.incomplete = true ↔
      c.plan.incomplete = true ∨ (e.kind = .dir ∧ w.depth = 0)) := by
  unfold Crawl.enqueue
  cases hk : e.kind with
  | dir =>
    by_cases hd : w.depth = 0
    · simp [hd]
    · simp [hd]
  | file =>
    cases hs : e.size <;> simp only <;> split <;> simp
  | symlink => simp

theorem visit_consumed (env : Env) (w : DirectoryWork) (c : Crawl) (e : Entry) :
    (c.visit env w e).consumed = c.consumed := by
  unfold Crawl.visit
  split
  · rfl
  split
  · rfl
  split
  · rfl
  · exact (enqueue_spec env w e _).2.2.2.2.1

theorem visit_listingFailed (env : Env) (w : DirectoryWork) (c : Crawl) (e : Entry) :
    (c.visit env w e).listingFailed = c.listingFailed := by
  unfold Crawl.visit
  split
  · rfl
  split
  · rfl
  split
  · rfl
  · exact (enqueue_spec env w e _).2.2.1

theorem visit_tracks {env : Env} {w : DirectoryWork} {c : Crawl} {done : List Item} (e : Entry)
    (h : Tracks env c done) (hcap : ¬maxEntries ≤ c.seen) :
    Tracks env (c.visit env w e) (done ++ [.entry w e]) := by
  have huncapped : ¬CapHit env (done ++ [.entry w e]) := by
    rw [CapHit, Runs.meets_concat, not_or, ← h.seen]
    exact ⟨h.uncapped, fun hc => hcap hc.2⟩
  have hcut : DepthCut env (done ++ [.entry w e]) ↔ DepthCut env done ∨
      (e.kind = .dir ∧ w.depth = 0 ∧ (Item.entry w e).key env = some (keyOf w e) ∧
        keyOf w e ∉ listedKeys env done) := by
    rw [DepthCut, Runs.meets_concat]
    refine or_congr_right ⟨?_, fun hd => ⟨w, e, rfl, hd⟩⟩
    rintro ⟨w', e', he, hd⟩
    cases he
    exact hd
  unfold Crawl.visit
  by_cases hacc : isSafeRel e.path ∧ ¬isExcluded env.ext env.excludes (keyOf w e)
  · have hkey : (Item.entry w e).key env = some (keyOf w e) := if_pos hacc
    have hkeys : ∀ k, k ∈ listedKeys env (done ++ [.entry w e]) ↔
        k ∈ listedKeys env done ∨ k = keyOf w e := by
      intro k
      rw [listedKeys_append, List.mem_append]
      simp [listedKeys, hkey]
    have hcount : entryCount env (done ++ [.entry w e]) = entryCount env done + 1 := by
      simp [entryCount, hkey, Item.isEntry]
    rw [if_neg (by simp [hacc.1]), if_neg hacc.2]
    split
    · rename_i hmem
      have hold : keyOf w e ∈ listedKeys env done := (h.remote _).mp hmem
      refine ⟨fun k => ?_, ?_, ?_, huncapped, h.open_⟩
      · rw [hkeys]
        refine ⟨fun hk => Or.inl ((h.remote k).mp hk), ?_⟩
        rintro (hk | rfl)
        · exact (h.remote k).mpr hk
        · exact hmem
      · rw [hcount, ← h.seen]
      · rw [hcut]
        have hno : ¬(e.kind = .dir ∧ w.depth = 0 ∧ (Item.entry w e).key env = some (keyOf w e) ∧
            keyOf w e ∉ listedKeys env done) := fun hd => hd.2.2.2 hold
        simpa [hno] using h.incomplete
    · rename_i hmem
      have hnew : keyOf w e ∉ listedKeys env done := fun hk => hmem ((h.remote _).mpr hk)
      obtain ⟨hr, hs, hl, hc, -, hi⟩ := enqueue_spec env w e
        { c with seen := c.seen + 1, remote := c.remote ++ [keyOf w e] }
      refine ⟨fun k => ?_, ?_, ?_, huncapped, hc.trans h.open_⟩
      · rw [hr, hkeys, List.mem_append, List.mem_singleton, h.remote k]
      · rw [hs, hcount, ← h.seen]
      · rw [hi, hl, hcut]
        simp only [hkey, hnew, not_false_eq_true, and_true]
        rw [h.incomplete, or_assoc]
  · have hkey : (Item.entry w e).key env = none := if_neg hacc
    have hkeys : listedKeys env (done ++ [.entry w e]) = listedKeys env done := by
      simp [listedKeys, hkey]
    have hcount : entryCount env (done ++ [.entry w e]) = entryCount env done := by
      simp [entryCount, hkey]
    have hsame : Tracks env c (done ++ [.entry w e]) := by
      refine ⟨fun k => ?_, ?_, ?_, huncapped, h.open_⟩
      · rw [hkeys]
        exact h.remote k
      · rw [hcount]
        exact h.seen
      · rw [hcut, hkey]
        simpa using h.incomplete
    split
    · exact hsame
    · rename_i hsafe
      rw [if_pos]
      · exact hsame
      · by_contra hex
        exact hacc ⟨by simpa using hsafe, by simpa using hex⟩

theorem visitAll_consumed (env : Env) (w : DirectoryWork) (c : Crawl) (es : List Entry) :
    (c.visitAll env w es).consumed = c.consumed := by
  induction es generalizing c with
  | nil => rfl
  | cons e es ih =>
    rw [Crawl.visitAll]
    split
    · rfl
    · rw [ih, visit_consumed]

theorem visitAll_listingFailed (env : Env) (w : DirectoryWork) (c : Crawl) (es : List Entry) :
    (c.visitAll env w es).listingFailed = c.listingFailed := by
  induction es generalizing c with
  | nil => rfl
  | cons e es ih =>
    rw [Crawl.visitAll]
    split
    · rfl
    · rw [ih, visit_listingFailed]

/-- The entries of a listing are followed to the end, or the cap cuts them off. -/
theorem visitAll_tracks {env : Env} {w : DirectoryWork} {c : Crawl} {done : List Item}
    (es : List Entry) (h : Tracks env c done) :
    Tracks env (c.visitAll env w es) (done ++ es.map (.entry w)) ∨
      ((c.visitAll env w es).entryCapReached = true ∧
        (c.visitAll env w es).plan.incomplete = true ∧
        CapHit env (done ++ es.map (.entry w))) := by
  induction es generalizing c done with
  | nil => exact Or.inl (by simpa [Crawl.visitAll] using h)
  | cons e es ih =>
    rw [Crawl.visitAll]
    split
    · rename_i hcap
      refine Or.inr ⟨rfl, rfl, done, .entry w e, es.map (.entry w), rfl, rfl, ?_⟩
      rw [← h.seen]
      exact hcap
    · rename_i hcap
      have hrest := ih (visit_tracks (w := w) e h hcap)
      rw [List.append_assoc, List.singleton_append] at hrest
      exact hrest

/-- All items of the consumed listings. -/
def Crawl.items (env : Env) (c : Crawl) : List Item := c.consumed.flatMap (Listing.items env)

/-- A crawl that has not hit the cap tracks its items; one that has is marked incomplete. -/
def Sound (env : Env) (c : Crawl) : Prop :=
  (c.entryCapReached = false ∧ Tracks env c (c.items env)) ∨
    (c.entryCapReached = true ∧ c.plan.incomplete = true ∧ CapHit env (c.items env))

theorem Tracks.manifest {env : Env} {c : Crawl} {done : List Item} (h : Tracks env c done)
    (key : Text) (manifests : List (Path × Bytes)) (consumed : List Listing) :
    Tracks env { c with consumed, remote := c.remote ++ [key], plan := { c.plan with manifests } }
      (done ++ [.manifest key]) := by
  have hcut : DepthCut env (done ++ [.manifest key]) ↔ DepthCut env done := by
    rw [DepthCut, Runs.meets_concat, or_iff_left]
    rintro ⟨w, e, he, -⟩
    cases he
  refine ⟨fun k => ?_, ?_, ?_, ?_, h.open_⟩
  · rw [listedKeys_append, List.mem_append, List.mem_append, h.remote k]
    rfl
  · simp [entryCount, Item.isEntry, h.seen]
  · rw [hcut]
    exact h.incomplete
  · rw [CapHit, Runs.meets_concat, or_iff_left]
    · exact h.uncapped
    · rintro ⟨he, -⟩
      cases he

/-- A listing is consumed entry by entry; that of an RPM repository leaves its manifest too. -/
theorem consume_cases {env : Env} {c c' : Crawl} {l : Listing} (h : c.consume env l = .ok c') :
    ∃ es, l.entries env = .ok es ∧
      ((l.work.isManifest = true ∧ c' = Crawl.visitAll env l.work { c with
          consumed := c.consumed ++ [l]
          remote := c.remote ++ [manifestKey l.work]
          plan := { c.plan with manifests := c.plan.manifests ++
            [(env.storage.join (Path.ofText (manifestKey l.work)), l.body)] } } es) ∨
        ¬l.work.isManifest = true ∧
          c' = Crawl.visitAll env l.work { c with consumed := c.consumed ++ [l] } es) := by
  unfold Crawl.consume at h
  cases hes : l.entries env with
  | error e =>
    rw [hes] at h
    cases h
  | ok es =>
    rw [hes] at h
    dsimp only [bind, Except.bind] at h
    refine ⟨es, rfl, ?_⟩
    split at h
    · rename_i hm
      cases h
      exact Or.inl ⟨hm, rfl⟩
    · rename_i hm
      cases h
      exact Or.inr ⟨hm, rfl⟩

theorem consume_sound {env : Env} {c c' : Crawl} {l : Listing}
    (ht : Tracks env c (c.items env)) (h : c.consume env l = .ok c') : Sound env c' := by
  have key (c₀ : Crawl) (done : List Item) (es : List Entry) (hes : l.entries env = .ok es)
      (hc₀ : c₀.consumed = c.consumed ++ [l]) (h₀ : Tracks env c₀ done)
      (hdone : done ++ es.map (.entry l.work) = c.items env ++ l.items env) :
      Sound env (c₀.visitAll env l.work es) := by
    have hitems : (c₀.visitAll env l.work es).items env = done ++ es.map (.entry l.work) := by
      rw [Crawl.items, visitAll_consumed, hc₀, List.flatMap_append, hdone]
      simp [Crawl.items]
    rw [Sound, hitems]
    rcases visitAll_tracks es h₀ (w := l.work) with htracks | ⟨hcap, hinc, hhit⟩
    · exact Or.inl ⟨htracks.open_, htracks⟩
    · exact Or.inr ⟨hcap, hinc, hhit⟩
  obtain ⟨es, hes, ⟨hm, rfl⟩ | ⟨hm, rfl⟩⟩ := consume_cases h
  · refine key _ (c.items env ++ [.manifest (manifestKey l.work)]) es hes rfl
      (ht.manifest _ _ _) ?_
    simp [Listing.items, hes, hm]
  · refine key _ (c.items env) es hes rfl ⟨ht.remote, ht.seen, ht.incomplete, ht.uncapped,
      ht.open_⟩ ?_
    simp [Listing.items, hes, hm]

theorem Tracks.fail {env : Env} {c : Crawl} {done : List Item} (h : Tracks env c done) :
    Tracks env c.fail done :=
  ⟨h.remote, h.seen, by simp [Crawl.fail], h.uncapped, h.open_⟩

theorem fill_sound {env : Env} {c : Crawl} (h : Tracks env c (c.items env)) :
    Tracks env (c.fill env) ((c.fill env).items env) :=
  ⟨h.remote, h.seen, h.incomplete, h.uncapped, h.open_⟩

/-- A round of the loop that goes on: the listing is consumed, or the failure is remembered. -/
theorem onEvent_cases {env : Env} {c c' : Crawl} {event : Event}
    (h : c.onEvent env event = some (.ok c')) : ∃ task work result,
      event = .joined task result ∧ c.listings[task]? = some work ∧
      (((∀ body, result ≠ .fetched body) ∧
          c' = ({ c with listings := c.listings.eraseIdx task } : Crawl).fail) ∨
        ∃ body, result = .fetched body ∧
          Crawl.consume env { c with listings := c.listings.eraseIdx task } ⟨work, body⟩ =
            .ok c') := by
  cases event with
  | cancelled => cases h
  | joined task result =>
    obtain ⟨work, hwork, h⟩ := Option.map_eq_some_iff.mp h
    refine ⟨task, work, result, rfl, hwork, ?_⟩
    cases result with
    | panicked =>
      cases h
      exact Or.inl ⟨by simp, rfl⟩
    | failed e =>
      left
      cases e with
      | cancelled => cases h
      | _ =>
        dsimp only at h
        split at h
        · cases h
        · cases h
          exact ⟨by simp, rfl⟩
    | fetched body => exact Or.inr ⟨body, rfl, h⟩

theorem onEvent_sound {env : Env} {c c' : Crawl} {event : Event}
    (ht : Tracks env c (c.items env)) (h : c.onEvent env event = some (.ok c')) :
    Sound env c' := by
  obtain ⟨task, work, result, -, -, hcase⟩ := onEvent_cases h
  have ht' : Tracks env { c with listings := c.listings.eraseIdx task } (c.items env) :=
    ⟨ht.remote, ht.seen, ht.incomplete, ht.uncapped, ht.open_⟩
  rcases hcase with ⟨-, rfl⟩ | ⟨body, -, hc⟩
  · exact Or.inl ⟨ht.open_, ht'.fail⟩
  · exact consume_sound (l := ⟨work, body⟩) ht' hc

/-- A run that ends well: its tasks are all done, or one more event is handled and the rest is run,
unless that event filled the cap. -/
theorem run_cases {env : Env} {c c' : Crawl} {events : List Event}
    (h : c.run env events = some (.ok c')) :
    (events = [] ∧ c' = c.fill env) ∨ ∃ event rest c₁, events = event :: rest ∧
      (c.fill env).onEvent env event = some (.ok c₁) ∧
      ((c₁.entryCapReached = false ∧ c₁.run env rest = some (.ok c')) ∨
        (c₁.entryCapReached = true ∧ rest = [] ∧ c' = c₁)) := by
  cases events with
  | nil =>
    simp only [Crawl.run, Option.ite_none_right_eq_some, Option.some.injEq, Except.ok.injEq] at h
    exact Or.inl ⟨rfl, h.2.symm⟩
  | cons event rest =>
    rw [Crawl.run] at h
    split at h
    · cases h
    split at h
    · cases h
    · cases h
    · rename_i c₁ he
      refine Or.inr ⟨event, rest, c₁, rfl, he, ?_⟩
      split at h
      · rename_i hcap
        exact Or.inl ⟨by simpa using hcap, h⟩
      · rename_i hcap
        split at h
        · rename_i hrest
          cases h
          exact Or.inr ⟨by simpa using hcap, by simpa using hrest, rfl⟩
        · cases h

/-- The crawl a run ends with. -/
theorem run_sound {env : Env} {c c' : Crawl} {events : List Event}
    (ht : Tracks env c (c.items env)) (h : c.run env events = some (.ok c')) : Sound env c' := by
  induction events generalizing c with
  | nil =>
    obtain ⟨-, rfl⟩ | ⟨_, _, _, hnil, -⟩ := run_cases h
    · exact Or.inl ⟨ht.open_, fill_sound ht⟩
    · cases hnil
  | cons event events ih =>
    obtain ⟨hnil, -⟩ | ⟨_, _, c₁, hcons, he, hrest⟩ := run_cases h
    · cases hnil
    cases hcons
    have hs := onEvent_sound (fill_sound ht) he
    rcases hrest with ⟨hopen, hrest⟩ | ⟨-, -, rfl⟩
    · rcases hs with ⟨-, hs⟩ | ⟨hc, -⟩
      · exact ih hs hrest
      · rw [hopen] at hc
        cases hc
    · exact hs

theorem consume_listingFailed {env : Env} {c c' : Crawl} {l : Listing}
    (h : c.consume env l = .ok c') : c'.listingFailed = c.listingFailed := by
  obtain ⟨es, -, ⟨-, rfl⟩ | ⟨-, rfl⟩⟩ := consume_cases h
  · exact visitAll_listingFailed env _ _ es
  · exact visitAll_listingFailed env _ _ es

/-- A failed listing is never forgotten: without one, every task of the run was fetched. -/
theorem run_fetched {env : Env} {c c' : Crawl} {events : List Event}
    (h : c.run env events = some (.ok c')) (hf : c'.listingFailed = false) :
    c.listingFailed = false ∧ ∀ event ∈ events, ∃ task body, event = .joined task (.fetched body) := by
  induction events generalizing c with
  | nil =>
    obtain ⟨-, rfl⟩ | ⟨_, _, _, hnil, -⟩ := run_cases h
    · exact ⟨hf, by simp⟩
    · cases hnil
  | cons event events ih =>
    obtain ⟨hnil, -⟩ | ⟨_, _, c₁, hcons, he, hrest⟩ := run_cases h
    · cases hnil
    cases hcons
    have hnext : c₁.listingFailed = false ∧
        ∀ event ∈ events, ∃ task body, event = .joined task (.fetched body) := by
      rcases hrest with ⟨-, hrest⟩ | ⟨-, rfl, rfl⟩
      · exact ih hrest
      · exact ⟨hf, by simp⟩
    obtain ⟨task, work, result, rfl, -, ⟨-, rfl⟩ | ⟨body, rfl, hc⟩⟩ := onEvent_cases he
    · cases hnext.1
    · refine ⟨(consume_listingFailed hc).symm.trans hnext.1, ?_⟩
      exact List.forall_mem_cons.mpr ⟨⟨task, body, rfl⟩, hnext.2⟩

theorem start_tracks (env : Env) (baseUrl : Text) (depth : ℕ) :
    Tracks env (.start baseUrl depth) ((Crawl.start baseUrl depth).items env) where
  remote k := by simp [Crawl.start, Crawl.items, listedKeys]
  seen := rfl
  incomplete := by
    constructor
    · intro h
      cases h
    · rintro (h | h)
      · cases h
      · exact absurd h Runs.not_meets_nil
  uncapped := Runs.not_meets_nil
  open_ := rfl

/-! ## The invariant rule of the crawl -/

/-- What has to be shown of one entry, one manifest and the queue for `K` to hold of the plan and
the entry count, and `J` of the directories, all along a crawl. -/
structure Keeps (env : Env) (J : DirectoryWork → Prop) (K : Plan → ℕ → Prop) : Prop where
  enqueue : ∀ w e c n, J w → isSafeRel e.path → n < maxEntries → K c.plan n →
    K (Crawl.enqueue env w e c).plan (n + 1)
  queue : ∀ w e, J w → isSafeRel e.path →
    J ⟨joinSlash w.url e.path, keyOf w e, w.depth - 1, false⟩
  repeated : ∀ p n, n < maxEntries → K p n → K p (n + 1)
  incomplete : ∀ p n, K p n → K { p with incomplete := true } n
  manifest : ∀ w p n body, J w → K p n → K { p with
    manifests := p.manifests ++ [(env.storage.join (Path.ofText (manifestKey w)), body)] } n

/-- The plan and the queue of a crawl meet `K` and `J`. -/
def Kept (J : DirectoryWork → Prop) (K : Plan → ℕ → Prop) (c : Crawl) : Prop :=
  K c.plan c.seen ∧ ∀ w ∈ c.pending ++ c.listings, J w

section
variable {env : Env} {J : DirectoryWork → Prop} {K : Plan → ℕ → Prop}

theorem enqueue_queue (env : Env) (w : DirectoryWork) (e : Entry) (c : Crawl) :
    (Crawl.enqueue env w e c).listings = c.listings ∧
      ((Crawl.enqueue env w e c).pending = c.pending ∨ (Crawl.enqueue env w e c).pending =
        c.pending ++ [⟨joinSlash w.url e.path, keyOf w e, w.depth - 1, false⟩]) := by
  unfold Crawl.enqueue
  cases hk : e.kind with
  | dir =>
    by_cases hd : w.depth = 0
    · simp [hd]
    · simp [hd]
  | file =>
    cases hs : e.size <;> simp only <;> split <;> simp
  | symlink => simp

theorem visit_keeps (hk : Keeps env J K) {w : DirectoryWork} {c : Crawl} (e : Entry) (hw : J w)
    (hcap : c.seen < maxEntries) (h : Kept J K c) : Kept J K (c.visit env w e) := by
  unfold Crawl.visit
  split
  · exact h
  rename_i hsafe
  have hsafe : isSafeRel e.path := by simpa using hsafe
  split
  · exact h
  split
  · exact ⟨hk.repeated _ _ hcap h.1, h.2⟩
  · have hseen := (enqueue_spec env w e
      { c with seen := c.seen + 1, remote := c.remote ++ [keyOf w e] }).2.1
    obtain ⟨hl, hq⟩ := enqueue_queue env w e
      { c with seen := c.seen + 1, remote := c.remote ++ [keyOf w e] }
    refine ⟨?_, fun x hx => ?_⟩
    · rw [hseen]
      exact hk.enqueue w e _ _ hw hsafe hcap h.1
    · rw [hl] at hx
      rcases hq with hq | hq
      · rw [hq] at hx
        exact h.2 x hx
      · rw [hq, List.append_assoc, List.mem_append, List.singleton_append, List.mem_cons] at hx
        rcases hx with hx | rfl | hx
        · exact h.2 x (List.mem_append_left _ hx)
        · exact hk.queue w e hw hsafe
        · exact h.2 x (List.mem_append_right _ hx)

theorem visitAll_keeps (hk : Keeps env J K) {w : DirectoryWork} {c : Crawl} (es : List Entry)
    (hw : J w) (h : Kept J K c) : Kept J K (c.visitAll env w es) := by
  induction es generalizing c with
  | nil => exact h
  | cons e es ih =>
    rw [Crawl.visitAll]
    split
    · exact ⟨hk.incomplete _ _ h.1, by simp⟩
    · rename_i hcap
      exact ih (visit_keeps hk e hw (by omega) h)

theorem onEvent_keeps (hk : Keeps env J K) {c c' : Crawl} {event : Event} (h : Kept J K c)
    (he : c.onEvent env event = some (.ok c')) : Kept J K c' := by
  obtain ⟨task, work, result, -, hwork, hcase⟩ := onEvent_cases he
  have hw : J work := h.2 work (List.mem_append_right _ (List.mem_of_getElem? hwork))
  have hrest : Kept J K { c with listings := c.listings.eraseIdx task } := by
    refine ⟨h.1, fun x hx => h.2 x ?_⟩
    rcases List.mem_append.mp hx with hx | hx
    · exact List.mem_append_left _ hx
    · exact List.mem_append_right _ (List.mem_of_mem_eraseIdx hx)
  rcases hcase with ⟨-, rfl⟩ | ⟨body, -, hc⟩
  · exact ⟨hk.incomplete _ _ hrest.1, hrest.2⟩
  · obtain ⟨es, -, ⟨-, rfl⟩ | ⟨-, rfl⟩⟩ := consume_cases hc
    · exact visitAll_keeps hk es hw ⟨hk.manifest work _ _ body hw hrest.1, hrest.2⟩
    · exact visitAll_keeps hk es hw ⟨hrest.1, hrest.2⟩

theorem fill_keeps {c : Crawl} (h : Kept J K c) : Kept J K (c.fill env) := by
  refine ⟨h.1, fun x hx => h.2 x ?_⟩
  simp only [Crawl.fill, List.mem_append] at hx ⊢
  rcases hx with hx | hx | hx
  · exact Or.inl (List.mem_of_mem_drop hx)
  · exact Or.inr hx
  · exact Or.inl (List.mem_of_mem_take hx)

/-- The rule: what one entry keeps holds of the plan of every crawl. -/
theorem run_keeps (hk : Keeps env J K) {c c' : Crawl} {events : List Event} (h : Kept J K c)
    (hr : c.run env events = some (.ok c')) : Kept J K c' := by
  induction events generalizing c with
  | nil =>
    obtain ⟨-, rfl⟩ | ⟨_, _, _, hnil, -⟩ := run_cases hr
    · exact fill_keeps h
    · cases hnil
  | cons event events ih =>
    obtain ⟨hnil, -⟩ | ⟨_, _, c₁, hcons, he, hrest⟩ := run_cases hr
    · cases hnil
    cases hcons
    have hkept := onEvent_keeps hk (fill_keeps h) he
    rcases hrest with ⟨-, hrest⟩ | ⟨-, -, rfl⟩
    · exact ih hkept hrest
    · exact hkept

end

theorem planInner_run {env : Env} {baseUrl : Text} {depth : ℕ} {events : List Event}
    {c : Crawl} {plan : Plan} (h : planInner env baseUrl depth events = some (.ok (c, plan))) :
    (Crawl.start baseUrl depth).run env events = some (.ok c) ∧ c.finish env = .ok plan := by
  obtain ⟨r, hr, h⟩ := Option.map_eq_some_iff.mp h
  cases r with
  | error e => cases h
  | ok c₁ =>
    dsimp only [bind, Except.bind] at h
    cases hp : c₁.finish env with
    | error e =>
      rw [hp] at h
      cases h
    | ok p =>
      rw [hp] at h
      cases h
      exact ⟨hr, hp⟩

/-- A finished plan, to be evaluated. -/
def planned (env : Env) (baseUrl : Text) (depth : ℕ) (events : List Event) :
    Option (Crawl × Plan) :=
  match planInner env baseUrl depth events with
  | some (.ok p) => some p
  | _ => none

theorem planInner_of_planned {env : Env} {baseUrl : Text} {depth : ℕ} {events : List Event}
    {p : Crawl × Plan} (h : planned env baseUrl depth events = some p) :
    planInner env baseUrl depth events = some (.ok p) := by
  unfold planned at h
  split at h
  · cases h
    assumption
  · cases h

/-- The crawl itself plans no deletion. -/
theorem run_deletes {env : Env} {baseUrl : Text} {depth : ℕ} {events : List Event} {c : Crawl}
    (h : (Crawl.start baseUrl depth).run env events = some (.ok c)) :
    c.plan.deletes = [] ∧ c.plan.deleteDirs = [] := by
  refine (run_keeps (J := fun _ => True) (K := fun p _ => p.deletes = [] ∧ p.deleteDirs = [])
    ⟨?_, fun _ _ _ _ => trivial, fun _ _ _ hp => hp, fun _ _ hp => hp, fun _ _ _ _ _ hp => hp⟩
    ⟨⟨rfl, rfl⟩, fun _ _ => trivial⟩ h).1
  intro w e c n _ _ _ hp
  unfold Crawl.enqueue
  cases e.kind with
  | dir =>
    dsimp only
    split <;> exact hp
  | file =>
    dsimp only
    cases e.size <;> split <;> exact hp
  | symlink => exact hp

/-- What `finish` adds to the plan of the crawl. -/
theorem finish_eq {env : Env} {c : Crawl} {plan : Plan} (h : c.finish env = .ok plan) :
    plan.downloads = c.plan.downloads ∧ plan.symlinks = c.plan.symlinks ∧
    plan.manifests = c.plan.manifests ∧ plan.incomplete = c.plan.incomplete ∧
    ((plan.deletes = c.plan.deletes ∧ plan.deleteDirs = c.plan.deleteDirs ∧
        (env.delete = true → c.plan.incomplete = true ∧ c.listingFailed = false)) ∨
      ∃ w, walk (isExcluded env.ext env.excludes) env.root = some w ∧ env.delete = true ∧
        c.plan.incomplete = false ∧ c.listingFailed = false ∧
        plan.deletes = (localExtras env.storage c.remote w).1 ∧
        plan.deleteDirs = (localExtras env.storage c.remote w).2) := by
  unfold Crawl.finish at h
  dsimp only at h
  split at h
  · cases h
  rename_i hfailed
  split at h
  · rename_i hdel
    split at h
    · cases h
    · rename_i w hw
      cases h
      refine ⟨rfl, rfl, rfl, rfl, Or.inr ⟨w, hw, hdel.1, by simpa using hdel.2, ?_, rfl, rfl⟩⟩
      simpa [hdel.1] using hfailed
  · rename_i hdel
    cases h
    refine ⟨rfl, rfl, rfl, rfl, Or.inl ⟨rfl, rfl, fun hd => ⟨?_, ?_⟩⟩⟩
    · simpa [hd] using hdel
    · simpa [hd] using hfailed

end Synora.Mirror
