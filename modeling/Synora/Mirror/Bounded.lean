import Mathlib.Data.List.Perm.Basic
import Synora.Mirror.Taken

namespace Synora.Mirror
open Strings

/-! # Planning against any server -/

/-- The listing tasks that are spawned before the loop waits. -/
def Crawl.spawned (env : Env) (c : Crawl) : List DirectoryWork :=
  c.pending.take (max 1 (min env.threads 64) - c.listings.length)

/-- The listing tasks that are spawned while the loop goes through these events. -/
def tasks (env : Env) : Crawl → List Event → List DirectoryWork
  | c, [] => c.spawned env
  | c, event :: events => c.spawned env ++
    match c.next env event with
    | some c' => tasks env c' events
    | none => []

def rootWork (baseUrl : Text) (depth : ℕ) : DirectoryWork := ⟨baseUrl, [], min depth maxDepth, true⟩

/-- Reading an entry of `w` puts `x` on the queue. -/
def Queues (env : Env) (w x : DirectoryWork) : Prop :=
  ∃ (c : Crawl) (e : Entry), (c.visit env w e).pending = c.pending ++ [x]

/-- The work that an entry taken up brings. -/
def workOf (x : DirectoryWork × Entry) : Option DirectoryWork :=
  if x.2.kind = .dir ∧ x.1.depth ≠ 0 then some (x.1.child x.2) else none

/-! ## Entries taken up -/

/-- What is taken up has a key of its own, and no more is taken up than the cap allows. -/
structure Intake.Bounded (r : Intake) : Prop where
  keys : (r.taken.map fun x => keyOf x.1 x.2).Nodup
  named : ∀ x ∈ r.taken, keyOf x.1 x.2 ∈ r.keys
  safe : ∀ x ∈ r.taken, isSafeRel x.2.path
  length : r.taken.length ≤ r.count
  count : r.count ≤ maxEntries

theorem Intake.Bounded.read {env : Env} {r : Intake} (h : r.Bounded) (i : Item) :
    (r.read env i).Bounded := by
  unfold Intake.read
  cases i with
  | manifest key =>
    exact ⟨h.keys, fun x hx => List.mem_append_left _ (h.named x hx), h.safe, h.length, h.count⟩
  | entry w e =>
    dsimp only
    split_ifs with hcap hacc hold
    · exact h
    · exact ⟨h.keys, h.named, h.safe, h.length.trans (Nat.le_succ _), by dsimp only; omega⟩
    · refine ⟨?_, ?_, ?_, ?_, by dsimp only; omega⟩
      · rw [List.map_append, List.map_singleton]
        refine List.nodup_append.mpr ⟨h.keys, List.nodup_singleton _, ?_⟩
        rintro key hkey _ hself rfl
        obtain ⟨x, hx, rfl⟩ := List.mem_map.mp hkey
        rw [List.mem_singleton] at hself
        exact hold (hself ▸ h.named x hx)
      · intro x hx
        obtain hx | hx := List.mem_append.mp hx
        · exact List.mem_append_left _ (h.named x hx)
        · rw [List.mem_singleton.mp hx]
          exact List.mem_append_right _ List.mem_cons_self
      · intro x hx
        obtain hx | hx := List.mem_append.mp hx
        · exact h.safe x hx
        · rw [List.mem_singleton.mp hx]
          exact hacc.1
      · rw [List.length_append, List.length_singleton]
        exact Nat.succ_le_succ h.length
    · exact h

theorem readAll_bounded (env : Env) (items : List Item) : (Intake.readAll env items).Bounded := by
  unfold Intake.readAll
  induction items using List.reverseRecOn with
  | nil =>
    exact ⟨List.nodup_nil, List.forall_mem_nil _, List.forall_mem_nil _, le_rfl, Nat.zero_le _⟩
  | append_singleton items i ih =>
    rw [List.foldl_append]
    exact ih.read i

/-- The key of an entry is not that of the root. -/
theorem keyOf_ne_nil {w : DirectoryWork} {e : Entry} (h : isSafeRel e.path) : keyOf w e ≠ [] := by
  have hpath : ∃ c ∈ e.path, isSlash c = false := by
    unfold isSafeRel at h
    cases hp : e.path with
    | nil => simp [hp] at h
    | cons c rest =>
      refine ⟨c, List.mem_cons_self, Bool.eq_false_iff.mpr fun hc => ?_⟩
      have hslash : c = '/' := by simpa [isSlash] using hc
      simp [hp, hslash] at h
  obtain ⟨c, hc, hslash⟩ := hpath
  have hrel : c ∈ relOf w e := by
    unfold relOf
    split_ifs
    · exact hc
    · exact List.mem_append_right _ hc
  intro hnil
  rw [keyOf, trimEnd, List.rdropWhile_eq_nil_iff] at hnil
  rw [hnil c hrel] at hslash
  cases hslash

/-- Each directory has a key of its own, and there are no more of them than the cap allows. -/
theorem queue_bounded (root : DirectoryWork) (hroot : root.rel = []) {r : Intake}
    (h : r.Bounded) : ((root :: r.taken.filterMap workOf).map DirectoryWork.rel).Nodup ∧
      (root :: r.taken.filterMap workOf).length ≤ maxEntries + 1 := by
  have hrels : List.Sublist ((r.taken.filterMap workOf).map DirectoryWork.rel)
      (r.taken.map fun x => keyOf x.1 x.2) := by
    induction r.taken with
    | nil => exact List.nil_sublist _
    | cons x taken ih =>
      unfold workOf at ih ⊢
      rw [List.filterMap_cons, List.map_cons]
      split_ifs
      · exact ih.cons_cons _
      · exact ih.cons _
  refine ⟨?_, ?_⟩
  · rw [List.map_cons, List.nodup_cons, hroot]
    refine ⟨fun hnil => ?_, hrels.nodup h.keys⟩
    obtain ⟨x, hx, hkey⟩ := List.mem_map.mp (hrels.subset hnil)
    exact keyOf_ne_nil (h.safe x hx) hkey
  · rw [List.length_cons]
    exact Nat.succ_le_succ ((List.length_filterMap_le _ _).trans (h.length.trans h.count))

/-! ## The queue -/

section
variable {env : Env} {root w : DirectoryWork} {J : DirectoryWork → Prop} {c : Crawl}
  {gone : List DirectoryWork}

theorem enqueue_pending_eq (env : Env) (w : DirectoryWork) (e : Entry) (c : Crawl) :
    (Crawl.enqueue env w e c).pending = c.pending ++ (workOf (w, e)).toList := by
  unfold Crawl.enqueue workOf
  cases e.kind with
  | dir =>
    by_cases hd : w.depth = 0
    · simp [hd]
    · simp [hd, DirectoryWork.child]
  | file =>
    cases e.size <;> simp only <;> split <;> simp
  | symlink => simp

/-- An entry adds to the queue what it adds to the entries taken up. -/
theorem visit_pending {r : Intake} (e : Entry) (h : Follows env c r)
    (hcap : ¬maxEntries ≤ c.seen) : (c.visit env w e).listings = c.listings ∧
      (c.visit env w e).entryCapReached = c.entryCapReached ∧
      ∃ new, (r.read env (.entry w e)).taken = r.taken ++ new ∧
        (c.visit env w e).pending = c.pending ++ new.filterMap workOf ∧ new.length ≤ 1 := by
  unfold Crawl.visit Intake.read
  rw [h.seen] at hcap
  simp only [if_neg hcap]
  by_cases hsafe : isSafeRel e.path
  · by_cases hex : isExcluded env.ext env.excludes (keyOf w e)
    · simp only [hsafe, hex, Bool.not_true, Bool.false_eq_true, if_false, if_true,
        not_true_eq_false, and_false, true_and]
      exact ⟨[], by simp, by simp, Nat.zero_le _⟩
    · simp only [hsafe, hex, Bool.not_true, Bool.false_eq_true, if_false, not_false_eq_true,
        and_self, if_true, h.remote]
      by_cases hmem : keyOf w e ∈ r.keys
      · rw [if_pos hmem, if_pos hmem]
        exact ⟨rfl, rfl, [], by simp, by simp, Nat.zero_le _⟩
      · rw [if_neg hmem, if_neg hmem]
        refine ⟨(enqueue_queue env w e _).1, (enqueue_spec env w e _).2.2.2.1, [(w, e)], rfl, ?_,
          le_rfl⟩
        rw [enqueue_pending_eq]
        cases hwork : workOf (w, e) <;> simp [hwork]
  · simp only [hsafe, Bool.not_false, if_true, Bool.false_eq_true, false_and, if_false, true_and]
    exact ⟨[], by simp, by simp, Nat.zero_le _⟩

/-- The directories that left the queue, and those on it, are the root and the ones taken up. -/
structure Queued (root : DirectoryWork) (J : DirectoryWork → Prop) (gone : List DirectoryWork)
    (c : Crawl) (r : Intake) : Prop where
  perm : (gone ++ c.pending).Perm (root :: r.taken.filterMap workOf)
  holds : ∀ x ∈ gone ++ c.pending, J x

variable (hJ : ∀ w x, J w → Queues env w x → J x)
include hJ

theorem visit_queued {r : Intake} (e : Entry) (hf : Follows env c r) (hcap : ¬maxEntries ≤ c.seen)
    (hw : J w) (h : Queued root J gone c r) :
    Queued root J gone (c.visit env w e) (r.read env (.entry w e)) := by
  obtain ⟨-, -, new, htaken, hpending, hlen⟩ := visit_pending (w := w) e hf hcap
  constructor
  · rw [htaken, hpending, List.filterMap_append, ← List.append_assoc, ← List.cons_append]
    exact h.perm.append_right _
  · rw [hpending, ← List.append_assoc]
    intro x hx
    obtain hx | hx := List.mem_append.mp hx
    · exact h.holds x hx
    · have hone : new.filterMap workOf = [x] := by
        have hle := (List.length_filterMap_le workOf new).trans hlen
        obtain ⟨y, hy⟩ := List.length_eq_one_iff.mp
          (le_antisymm hle (List.length_pos_of_mem hx))
        rw [hy, List.mem_singleton] at hx
        rw [hy, hx]
      exact hJ w x hw ⟨c, e, by rw [hpending, hone]⟩

/-- The entries of a listing, up to the cap; there the queue is dropped. -/
theorem visitAll_queued {r : Intake} (es : List Entry) (hf : Follows env c r) (hw : J w)
    (h : Queued root J gone c r) :
    ((c.visitAll env w es).entryCapReached = true ∧ (c.visitAll env w es).pending = [] ∧
      (c.visitAll env w es).listings = [] ∧ ∃ lost, (gone ++ lost).Perm
        (root :: ((es.map (.entry w)).foldl (Intake.read env) r).taken.filterMap workOf)) ∨
    ((c.visitAll env w es).listings = c.listings ∧
      (c.visitAll env w es).entryCapReached = c.entryCapReached ∧
      Follows env (c.visitAll env w es) ((es.map (.entry w)).foldl (Intake.read env) r) ∧
      Queued root J gone (c.visitAll env w es)
        ((es.map (.entry w)).foldl (Intake.read env) r)) := by
  induction es generalizing c r with
  | nil => exact .inr ⟨rfl, rfl, hf, h⟩
  | cons e es ih =>
    rw [Crawl.visitAll]
    split
    · rename_i hcap
      rw [foldl_read_full (hf.seen ▸ hcap)]
      exact .inl ⟨rfl, rfl, rfl, c.pending, h.perm⟩
    · rename_i hcap
      obtain ⟨hlistings, hreached, -⟩ := visit_pending (w := w) e hf hcap
      rw [List.map_cons, List.foldl_cons, ← hlistings, ← hreached]
      exact ih (visit_follows e hf hcap) (visit_queued hJ e hf hcap hw h)

/-- After a listing the cap has dropped the queue, or all is as before. -/
theorem consume_queued {c' : Crawl} {l : Listing}
    (hf : Follows env c (Intake.readAll env (c.items env))) (hw : J l.work)
    (h : Queued root J gone c (Intake.readAll env (c.items env))) (hc : c.consume env l = .ok c') :
    c'.consumed = c.consumed ++ [l] ∧
      ((c'.entryCapReached = true ∧ c'.pending = [] ∧ c'.listings = [] ∧ ∃ lost,
        (gone ++ lost).Perm (root :: (takenUp env (c'.items env)).filterMap workOf)) ∨
      (c'.listings = c.listings ∧ c'.entryCapReached = c.entryCapReached ∧
        Follows env c' (Intake.readAll env (c'.items env)) ∧
        Queued root J gone c' (Intake.readAll env (c'.items env)))) := by
  have key (c₀ : Crawl) (r : Intake) (es : List Entry) (hc₀ : c₀.consumed = c.consumed ++ [l])
      (hlistings : c₀.listings = c.listings)
      (hreached : c₀.entryCapReached = c.entryCapReached) (h₀ : Follows env c₀ r)
      (hq : Queued root J gone c₀ r)
      (hr : (es.map (.entry l.work)).foldl (Intake.read env) r =
        (l.items env).foldl (Intake.read env) (Intake.readAll env (c.items env))) :
      (c₀.visitAll env l.work es).consumed = c.consumed ++ [l] ∧
        (((c₀.visitAll env l.work es).entryCapReached = true ∧
          (c₀.visitAll env l.work es).pending = [] ∧ (c₀.visitAll env l.work es).listings = [] ∧
          ∃ lost, (gone ++ lost).Perm (root ::
            (takenUp env ((c₀.visitAll env l.work es).items env)).filterMap workOf)) ∨
        ((c₀.visitAll env l.work es).listings = c.listings ∧
          (c₀.visitAll env l.work es).entryCapReached = c.entryCapReached ∧
          Follows env (c₀.visitAll env l.work es)
            (Intake.readAll env ((c₀.visitAll env l.work es).items env)) ∧
          Queued root J gone (c₀.visitAll env l.work es)
            (Intake.readAll env ((c₀.visitAll env l.work es).items env)))) := by
    have hconsumed : (c₀.visitAll env l.work es).consumed = c.consumed ++ [l] := by
      rw [visitAll_consumed, hc₀]
    have hread : Intake.readAll env ((c₀.visitAll env l.work es).items env) =
        (es.map (.entry l.work)).foldl (Intake.read env) r := by
      unfold Crawl.items Intake.readAll
      rw [hr, hconsumed, List.flatMap_append, List.foldl_append]
      simp [Intake.readAll, Crawl.items]
    unfold takenUp
    rw [hread, ← hlistings, ← hreached]
    exact ⟨hconsumed, visitAll_queued hJ es h₀ hw hq⟩
  obtain ⟨es, hes, ⟨hm, rfl⟩ | ⟨hm, rfl⟩⟩ := consume_cases hc
  · refine key _ ((Intake.readAll env (c.items env)).read env (.manifest (manifestKey l.work)))
      es rfl rfl rfl ⟨?_, hf.seen, ?_⟩ ⟨h.perm, h.holds⟩ ?_
    · exact congrArg (· ++ [manifestKey l.work]) hf.remote
    · exact ⟨hf.reflects.downloads, hf.reflects.symlinks, hf.reflects.sizeSum,
        hf.reflects.sizeUnknown⟩
    · simp [Listing.items, hes, hm]
  · refine key _ _ es rfl rfl rfl ⟨hf.remote, hf.seen, hf.reflects⟩ ⟨h.perm, h.holds⟩ ?_
    simp [Listing.items, hes, hm]

/-- Between two rounds: what has left the queue is in flight, listed or has failed. -/
structure Between (env : Env) (root : DirectoryWork) (J : DirectoryWork → Prop)
    (gone : List DirectoryWork) (c : Crawl) : Prop where
  follows : Follows env c (Intake.readAll env (c.items env))
  queued : Queued root J gone c (Intake.readAll env (c.items env))
  inflight : ∀ w ∈ c.listings, w ∈ gone
  uncapped : c.entryCapReached = false
  settled : c.listingFailed = false → gone.Perm (c.listings ++ c.consumed.map Listing.work)

/-- The cap has been reached: the queue is empty and nothing is in flight. -/
structure Capped (env : Env) (root : DirectoryWork) (gone : List DirectoryWork) (c : Crawl) :
    Prop where
  capped : c.entryCapReached = true
  pending : c.pending = []
  listings : c.listings = []
  lost : ∃ lost, (gone ++ lost).Perm (root :: (takenUp env (c.items env)).filterMap workOf)

theorem Between.onEvent {c' : Crawl} {event : Event} (h : Between env root J gone c)
    (he : c.onEvent env event = some (.ok c')) :
    c'.listings.length < c.listings.length ∧
      (Capped env root gone c' ∨ Between env root J gone c') := by
  obtain ⟨task, work, result, -, hwork, hcase⟩ := onEvent_cases he
  have hlt : task < c.listings.length := (List.getElem?_eq_some_iff.mp hwork).1
  have hshort : (c.listings.eraseIdx task).length < c.listings.length := by
    rw [List.length_eraseIdx_of_lt hlt]
    omega
  have hinflight : ∀ w ∈ c.listings.eraseIdx task, w ∈ gone :=
    fun w hw => h.inflight w (List.mem_of_mem_eraseIdx hw)
  obtain ⟨-, rfl⟩ | ⟨body, -, hc⟩ := hcase
  · refine ⟨hshort, .inr ⟨⟨h.follows.remote, h.follows.seen, ?_⟩, ⟨h.queued.perm, h.queued.holds⟩,
      hinflight, h.uncapped, fun hfailed => absurd hfailed (by simp [Crawl.fail])⟩⟩
    exact ⟨h.follows.reflects.downloads, h.follows.reflects.symlinks, h.follows.reflects.sizeSum,
      h.follows.reflects.sizeUnknown⟩
  · have hw : J work := h.queued.holds work
      (List.mem_append_left _ (h.inflight work (List.mem_of_getElem? hwork)))
    obtain ⟨hconsumed, hnext⟩ := consume_queued (l := ⟨work, body⟩)
      (c := { c with listings := c.listings.eraseIdx task }) hJ
      ⟨h.follows.remote, h.follows.seen, h.follows.reflects⟩ hw
      ⟨h.queued.perm, h.queued.holds⟩ hc
    obtain ⟨hcap, hpending, hlistings, hlost⟩ | ⟨hlistings, hreached, hfollows, hqueued⟩ := hnext
    · refine ⟨?_, .inl ⟨hcap, hpending, hlistings, hlost⟩⟩
      rw [hlistings]
      exact lt_of_le_of_lt (Nat.zero_le _) hlt
    · refine ⟨by rw [hlistings]; exact hshort,
        .inr ⟨hfollows, hqueued, ?_, hreached.trans h.uncapped, fun hfailed => ?_⟩⟩
      · rw [hlistings]
        exact hinflight
      · rw [consume_listingFailed hc] at hfailed
        rw [hlistings, hconsumed]
        have herase : (work :: c.listings.eraseIdx task).Perm c.listings := by
          obtain ⟨_, rfl⟩ := List.getElem?_eq_some_iff.mp hwork
          exact List.getElem_cons_eraseIdx_perm hlt
        rw [List.map_append, List.map_singleton, ← List.append_assoc]
        have hmoved : (c.listings ++ c.consumed.map Listing.work).Perm
            (work :: (c.listings.eraseIdx task ++ c.consumed.map Listing.work)) :=
          (herase.append_right _).symm
        exact (h.settled hfailed).trans (hmoved.trans (List.perm_append_singleton _ _).symm)

/-! ## Whole runs -/

omit hJ in
theorem tasks_idle (hpending : c.pending = []) (hlistings : c.listings = []) (events : List Event) :
    tasks env c events = [] := by
  have hspawned : c.spawned env = [] := by rw [Crawl.spawned, hpending, List.take_nil]
  cases events with
  | nil => exact hspawned
  | cons event events =>
    have hnext : c.next env event = none := by
      have hfill : (c.fill env).listings = [] := by
        simp [Crawl.fill, hpending, hlistings]
      unfold Crawl.next
      cases event with
      | cancelled => rfl
      | joined task result => simp [Crawl.onEvent, hfill]
    rw [tasks, hspawned, hnext]
    rfl

omit hJ in
theorem Between.fill (h : Between env root J gone c) :
    Between env root J (gone ++ c.spawned env) (c.fill env) := by
  have hqueue : gone ++ c.spawned env ++ (c.fill env).pending = gone ++ c.pending := by
    rw [List.append_assoc]
    exact congrArg (gone ++ ·) (List.take_append_drop _ _)
  refine ⟨⟨h.follows.remote, h.follows.seen, h.follows.reflects⟩, ⟨?_, ?_⟩, ?_, h.uncapped,
    fun hfailed => ?_⟩
  · rw [hqueue]
    exact h.queued.perm
  · rw [hqueue]
    exact h.queued.holds
  · intro w hw
    obtain hw | hw := List.mem_append.mp hw
    · exact List.mem_append_left _ (h.inflight w hw)
    · exact List.mem_append_right _ hw
  · have hsettled := (h.settled hfailed).append_right (c.spawned env)
    refine hsettled.trans ?_
    change (c.listings ++ _ ++ _).Perm (c.listings ++ c.spawned env ++ _)
    rw [List.append_assoc, List.append_assoc]
    exact List.perm_append_comm.append_left _

/-- The tasks of a run are directories of their own, out of those taken up. -/
theorem tasks_queued (h : Between env root J gone c) (events : List Event) :
    ∃ items lost, (gone ++ tasks env c events ++ lost).Perm
        (root :: (takenUp env items).filterMap workOf) ∧
      (∀ w ∈ gone ++ tasks env c events, J w) ∧
      ∀ c', c.run env events = some (.ok c') → items = c'.items env := by
  induction events generalizing c gone with
  | nil =>
    have hfill := h.fill
    refine ⟨c.items env, (c.fill env).pending, hfill.queued.perm, ?_, ?_⟩
    · exact fun w hw => hfill.queued.holds w (List.mem_append_left _ hw)
    · intro c' hrun
      obtain ⟨-, rfl⟩ | ⟨_, _, _, hnil, -⟩ := run_cases hrun
      · rfl
      · cases hnil
  | cons event events ih =>
    have hfill := h.fill
    have hholds : ∀ w ∈ gone ++ c.spawned env, J w :=
      fun w hw => hfill.queued.holds w (List.mem_append_left _ hw)
    rw [tasks]
    cases hnext : c.next env event with
    | none =>
      refine ⟨c.items env, (c.fill env).pending, ?_, ?_, ?_⟩
      · rw [List.append_nil]
        exact hfill.queued.perm
      · rwa [List.append_nil]
      · intro c' hrun
        obtain ⟨hnil, -⟩ | ⟨_, _, c₁, hcons, he, -⟩ := run_cases hrun
        · cases hnil
        · cases hcons
          rw [Crawl.next, he] at hnext
          cases hnext
    | some c₁ =>
      have he : (c.fill env).onEvent env event = some (.ok c₁) := by
        unfold Crawl.next at hnext
        split at hnext
        · cases hnext
          assumption
        · cases hnext
      dsimp only
      rw [← List.append_assoc]
      obtain ⟨-, hcapped | hbetween⟩ := hfill.onEvent hJ he
      · rw [tasks_idle hcapped.pending hcapped.listings, List.append_nil]
        obtain ⟨lost, hperm⟩ := hcapped.lost
        refine ⟨c₁.items env, lost, hperm, hholds, ?_⟩
        intro c' hrun
        obtain ⟨hnil, -⟩ | ⟨_, _, c₂, hcons, he', hrest⟩ := run_cases hrun
        · cases hnil
        cases hcons
        cases he.symm.trans he'
        obtain ⟨hopen, -⟩ | ⟨-, -, rfl⟩ := hrest
        · rw [hcapped.capped] at hopen
          cases hopen
        · rfl
      · obtain ⟨items, lost, hperm, hall, hitems⟩ := ih hbetween
        refine ⟨items, lost, hperm, hall, ?_⟩
        intro c' hrun
        obtain ⟨hnil, -⟩ | ⟨_, _, c₂, hcons, he', hrest⟩ := run_cases hrun
        · cases hnil
        cases hcons
        cases he.symm.trans he'
        obtain ⟨-, hrest⟩ | ⟨hcap, -, -⟩ := hrest
        · exact hitems c' hrest
        · rw [hbetween.uncapped] at hcap
          cases hcap

/-- Each round ends one of the tasks. -/
theorem length_events_le (h : Between env root J gone c) {events : List Event} {c' : Crawl}
    (hexec : Runs.exec (Crawl.next env) c events = some c') :
    events.length ≤ c.listings.length + (tasks env c events).length := by
  induction events generalizing c gone with
  | nil => exact Nat.zero_le _
  | cons event events ih =>
    obtain ⟨c₁, hnext, hrest⟩ := (Runs.exec_cons_eq_some _).mp hexec
    have he : (c.fill env).onEvent env event = some (.ok c₁) := by
      unfold Crawl.next at hnext
      split at hnext
      · cases hnext
        assumption
      · cases hnext
    obtain ⟨hlt, hcase⟩ := h.fill.onEvent hJ he
    have hfill : (c.fill env).listings.length = c.listings.length + (c.spawned env).length :=
      List.length_append
    have hle : events.length ≤ c₁.listings.length + (tasks env c₁ events).length := by
      obtain hcapped | hbetween := hcase
      · -- With nothing in flight no event is left.
        cases events with
        | nil => exact Nat.zero_le _
        | cons event' events =>
          obtain ⟨c₂, hnext₂, -⟩ := (Runs.exec_cons_eq_some _).mp hrest
          have hidle : (c₁.fill env).listings = [] := by
            simp [Crawl.fill, hcapped.pending, hcapped.listings]
          unfold Crawl.next at hnext₂
          cases event' with
          | cancelled => cases hnext₂
          | joined task result => simp [Crawl.onEvent, hidle] at hnext₂
      · exact ih hbetween hrest
    rw [tasks, hnext, List.length_cons, List.length_append]
    dsimp only
    omega

/-- A run that ends without a failure and below the cap has listed every directory taken up. -/
theorem run_listed (h : Between env root J gone c) {events : List Event} {c' : Crawl}
    (hrun : c.run env events = some (.ok c')) (hcap : c'.entryCapReached = false)
    (hfailed : c'.listingFailed = false) :
    (c'.consumed.map Listing.work).Perm
      (root :: (takenUp env (c'.items env)).filterMap workOf) := by
  induction events generalizing c gone with
  | nil =>
    have hidle : (c.fill env).listings = [] := by
      rw [Crawl.run, Option.ite_none_right_eq_some] at hrun
      exact List.isEmpty_iff.mp hrun.1
    obtain ⟨-, rfl⟩ | ⟨_, _, _, hnil, -⟩ := run_cases hrun
    · have hfill := h.fill
      have hpending : (c.fill env).pending = [] := by
        obtain ⟨hnone, htake⟩ := List.append_eq_nil_iff.mp hidle
        rw [hnone, List.length_nil, Nat.sub_zero, List.take_eq_nil_iff] at htake
        have hfree : max 1 (min env.threads 64) ≠ 0 := by omega
        simp [Crawl.fill, htake.resolve_left hfree]
      have hperm := hfill.queued.perm
      have hsettled := hfill.settled hfailed
      rw [hpending, List.append_nil] at hperm
      rw [hidle, List.nil_append] at hsettled
      exact hsettled.symm.trans hperm
    · cases hnil
  | cons event events ih =>
    obtain ⟨hnil, -⟩ | ⟨_, _, c₁, hcons, he, hrest⟩ := run_cases hrun
    · cases hnil
    cases hcons
    obtain ⟨-, hcapped | hbetween⟩ := h.fill.onEvent hJ he
    · obtain ⟨hopen, -⟩ | ⟨-, -, rfl⟩ := hrest
      · rw [hcapped.capped] at hopen
        cases hopen
      · rw [hcapped.capped] at hcap
        cases hcap
    · obtain ⟨-, hrest⟩ | ⟨hreached, -, -⟩ := hrest
      · exact ih hbetween hrest
      · rw [hbetween.uncapped] at hreached
        cases hreached

end

/-! ## What is left out -/

section
variable {env : Env}

theorem mem_taken_read {r : Intake} {x : DirectoryWork × Entry} (h : x ∈ r.taken) (i : Item) :
    x ∈ (r.read env i).taken := by
  unfold Intake.read
  cases i with
  | manifest key => exact h
  | entry w e =>
    dsimp only
    split_ifs
    · exact h
    · exact h
    · exact List.mem_append_left _ h
    · exact h

theorem mem_taken_readAll {items : List Item} {x : DirectoryWork × Entry}
    (h : x ∈ takenUp env items) (rest : List Item) : x ∈ takenUp env (items ++ rest) := by
  unfold takenUp Intake.readAll at *
  rw [List.foldl_append]
  induction rest using List.reverseRecOn with
  | nil => exact h
  | append_singleton rest i ih =>
    rw [List.foldl_append]
    exact mem_taken_read ih i

/-- Below the cap, what has been read is what the items name. -/
theorem readAll_uncapped {items : List Item} (h : ¬CapHit env items) :
    (∀ k, k ∈ (Intake.readAll env items).keys ↔ k ∈ listedKeys env items) ∧
      (Intake.readAll env items).count = entryCount env items := by
  induction items using List.reverseRecOn with
  | nil => exact ⟨fun k => Iff.rfl, rfl⟩
  | append_singleton items i ih =>
    rw [CapHit, Runs.meets_concat, not_or] at h
    obtain ⟨hkeys, hcount⟩ := ih h.1
    have hstep : Intake.readAll env (items ++ [i]) = (Intake.readAll env items).read env i := by
      rw [Intake.readAll, List.foldl_append]
      rfl
    rw [hstep, listedKeys_append, entryCount, List.countP_append, ← entryCount]
    cases i with
    | manifest key =>
      refine ⟨fun k => ?_, ?_⟩
      · simp [Intake.read, listedKeys, Item.key, hkeys k]
      · simp [Intake.read, Item.isEntry, hcount]
    | entry w e =>
      have hbelow : ¬maxEntries ≤ (Intake.readAll env items).count :=
        fun hcap => h.2 ⟨rfl, hcount ▸ hcap⟩
      unfold Intake.read
      dsimp only
      rw [if_neg hbelow]
      by_cases hacc : isSafeRel e.path ∧ ¬isExcluded env.ext env.excludes (keyOf w e)
      · have hkey : (Item.entry w e).key env = some (keyOf w e) := if_pos hacc
        rw [if_pos hacc]
        split_ifs with hold
        · refine ⟨fun k => ?_, by simp [hkey, Item.isEntry, hcount]⟩
          rw [hkeys, List.mem_append]
          refine ⟨.inl, fun hk => hk.elim id fun hk => ?_⟩
          have hself : k = keyOf w e := by simpa [listedKeys, hkey] using hk
          exact hself ▸ (hkeys _).mp hold
        · refine ⟨fun k => ?_, by simp [hkey, Item.isEntry, hcount]⟩
          rw [List.mem_append, List.mem_append, hkeys]
          simp [listedKeys, hkey]
      · have hkey : (Item.entry w e).key env = none := if_neg hacc
        rw [if_neg hacc]
        exact ⟨fun k => by simp [listedKeys, hkey, hkeys k], by simp [hkey, hcount]⟩

/-- Below the cap an entry with a new key is taken up. -/
theorem mem_takenUp_of_new {pre post : List Item} {w : DirectoryWork} {e : Entry}
    (hcap : ¬CapHit env (pre ++ .entry w e :: post)) (hsafe : isSafeRel e.path)
    (hex : ¬isExcluded env.ext env.excludes (keyOf w e)) (hnew : keyOf w e ∉ listedKeys env pre) :
    (w, e) ∈ takenUp env (pre ++ .entry w e :: post) := by
  have hsplit : pre ++ .entry w e :: post = (pre ++ [.entry w e]) ++ post := by simp
  rw [hsplit] at hcap ⊢
  have hpre : ¬CapHit env (pre ++ [.entry w e]) := fun h => hcap (h.append post)
  apply mem_taken_readAll
  rw [CapHit, Runs.meets_concat, not_or] at hpre
  obtain ⟨hkeys, hcount⟩ := readAll_uncapped hpre.1
  have hbelow : ¬maxEntries ≤ (Intake.readAll env pre).count :=
    fun hfull => hpre.2 ⟨rfl, hcount ▸ hfull⟩
  have hread : Intake.readAll env (pre ++ [.entry w e]) =
      (Intake.readAll env pre).read env (.entry w e) := by
    rw [Intake.readAll, List.foldl_append]
    rfl
  rw [takenUp, hread]
  unfold Intake.read
  dsimp only
  rw [if_neg hbelow, if_pos ⟨hsafe, hex⟩, if_neg (mt (hkeys _).mp hnew)]
  exact List.mem_append_right _ List.mem_cons_self

end

/-! ## The plan -/

/-- Directories, each queued by the listing of the next, down from the root. -/
structure Nested (env : Env) (root : DirectoryWork) (chain : List DirectoryWork) : Prop where
  queues : chain.IsChain fun x w => Queues env w x
  root : chain.getLast? = some root

section
variable {env : Env} {root w x : DirectoryWork}

theorem Queues.depth (h : Queues env w x) : x.depth + 1 = w.depth := by
  obtain ⟨c, e, hpending⟩ := h
  have hsame (hpending : c.pending = c.pending ++ [x]) : False := by simp at hpending
  unfold Crawl.visit at hpending
  split_ifs at hpending
  · exact (hsame hpending).elim
  · exact (hsame hpending).elim
  · exact (hsame hpending).elim
  · rw [enqueue_pending_eq] at hpending
    have hwork : (workOf (w, e)).toList = [x] := List.append_cancel_left hpending
    unfold workOf at hwork
    split_ifs at hwork with hdir
    · obtain rfl : w.child e = x := by simpa using hwork
      exact Nat.succ_pred_eq_of_ne_zero hdir.2
    · simp at hwork

theorem Nested.depth {chain : List DirectoryWork} (h : Nested env root (x :: chain)) :
    x.depth + chain.length = root.depth := by
  induction chain generalizing x with
  | nil =>
    obtain rfl : x = root := by simpa using h.root
    rfl
  | cons y chain ih =>
    obtain ⟨hqueues, hrest⟩ := List.isChain_cons_cons.mp h.queues
    have hnext := ih ⟨hrest, by simpa [List.getLast?_cons_cons] using h.root⟩
    have hdepth := Queues.depth hqueues
    rw [List.length_cons]
    omega

theorem start_between (env : Env) (baseUrl : Text) (depth : ℕ) :
    Between env (rootWork baseUrl depth)
      (fun w => ∃ chain, Nested env (rootWork baseUrl depth) (w :: chain)) []
      (.start baseUrl depth) where
  follows := ⟨rfl, rfl, rfl, rfl, rfl, by
    simp [Crawl.start, Plan.default, Crawl.items, Intake.readAll, fileSizes]⟩
  queued := ⟨List.Perm.refl _, fun w hw => ⟨[], .singleton _,
    congrArg some (List.mem_singleton.mp hw)⟩⟩
  inflight w hw := absurd hw List.not_mem_nil
  uncapped := rfl
  settled _ := List.Perm.refl _

theorem nested_queued (w x : DirectoryWork) (hw : ∃ chain, Nested env root (w :: chain))
    (hx : Queues env w x) : ∃ chain, Nested env root (x :: chain) := by
  obtain ⟨chain, hchain⟩ := hw
  refine ⟨w :: chain, List.isChain_cons_cons.mpr ⟨hx, hchain.queues⟩, ?_⟩
  rw [List.getLast?_cons_cons]
  exact hchain.root

end

/-- Whatever the server sends, in whatever order the listings come in: no more tasks are spawned
than the cap allows, one for a key, none nested deeper than the limit, and the loop comes to its
end. A finished plan takes up no key twice, and unless it is marked incomplete every directory that
was listed has been visited. -/
theorem planning_terminates (env : Env) (baseUrl : Text) (depth : ℕ) :
    (∀ events, (tasks env (.start baseUrl depth) events).length ≤ maxEntries + 1 ∧
      ((tasks env (.start baseUrl depth) events).map DirectoryWork.rel).Nodup ∧
      ∀ w ∈ tasks env (.start baseUrl depth) events,
        ∃ chain, Nested env (rootWork baseUrl depth) (w :: chain)) ∧
    (∀ events c, Runs.exec (Crawl.next env) (.start baseUrl depth) events = some c →
      events.length ≤ maxEntries + 1) ∧
    (∀ chain, Nested env (rootWork baseUrl depth) chain →
      chain.length ≤ min depth maxDepth + 1) ∧
    ∀ events c plan, planInner env baseUrl depth events = some (.ok (c, plan)) →
      ((takenUp env (c.items env)).map fun x => keyOf x.1 x.2).Nodup ∧
      (∃ lost, (tasks env (.start baseUrl depth) events ++ lost).Perm
        (rootWork baseUrl depth :: (takenUp env (c.items env)).filterMap workOf)) ∧
      plan.downloads = (takenUp env (c.items env)).filterMap (downloadOf env) ∧
      plan.symlinks.map Prod.fst = (takenUp env (c.items env)).filterMap (linkOf env) ∧
      (plan.incomplete = false → ∀ pre w e post, c.items env = pre ++ .entry w e :: post →
        e.kind = .dir → isSafeRel e.path → ¬isExcluded env.ext env.excludes (keyOf w e) →
        keyOf w e ∉ listedKeys env pre → w.child e ∈ c.consumed.map Listing.work) := by
  have hstart := start_between env baseUrl depth
  have hbounded (items : List Item) := queue_bounded (rootWork baseUrl depth) rfl
    (readAll_bounded env items)
  have htasks (events : List Event) :
      (tasks env (.start baseUrl depth) events).length ≤ maxEntries + 1 ∧
      ((tasks env (.start baseUrl depth) events).map DirectoryWork.rel).Nodup ∧
      ∀ w ∈ tasks env (.start baseUrl depth) events,
        ∃ chain, Nested env (rootWork baseUrl depth) (w :: chain) := by
    obtain ⟨items, lost, hperm, hall, -⟩ := tasks_queued nested_queued hstart events
    rw [List.nil_append] at hperm hall
    obtain ⟨hnodup, hlen⟩ := hbounded items
    refine ⟨?_, ?_, hall⟩
    · refine le_trans ?_ (hperm.length_eq.le.trans hlen)
      rw [List.length_append]
      exact Nat.le_add_right _ _
    · have hrels := (hperm.map DirectoryWork.rel).nodup_iff.mpr hnodup
      rw [List.map_append] at hrels
      exact (List.nodup_append.mp hrels).1
  refine ⟨htasks, ?_, ?_, ?_⟩
  · intro events c hexec
    have hle := length_events_le nested_queued hstart hexec
    exact hle.trans ((Nat.zero_add _).le.trans (htasks events).1)
  · intro chain hchain
    cases chain with
    | nil => exact Nat.zero_le _
    | cons w chain =>
      have hdepth := hchain.depth
      rw [List.length_cons]
      change w.depth + chain.length = min depth maxDepth at hdepth
      omega
  · intro events c plan hplan
    obtain ⟨hrun, hfinish⟩ := planInner_run hplan
    obtain ⟨hdownloads, hsymlinks, -, hincomplete, -⟩ := finish_eq hfinish
    have hreflects := planInner_reflects hplan
    refine ⟨(readAll_bounded env _).keys, ?_, hdownloads.trans hreflects.downloads, ?_, ?_⟩
    · obtain ⟨items, lost, hperm, -, hitems⟩ := tasks_queued nested_queued hstart events
      rw [hitems c hrun, List.nil_append] at hperm
      exact ⟨lost, hperm⟩
    · rw [hsymlinks]
      exact hreflects.symlinks
    · intro hcomplete pre w e post hitems hdir hsafe hex hnew
      rw [hincomplete] at hcomplete
      obtain ⟨huncapped, htracks⟩ | ⟨-, hmarked, -⟩ :=
        run_sound (start_tracks env baseUrl depth) hrun
      · have hwhole := mt htracks.incomplete.mpr (by simp [hcomplete])
        rw [not_or, Bool.not_eq_true] at hwhole
        have hlisted := run_listed nested_queued hstart hrun huncapped hwhole.1
        refine hlisted.mem_iff.mpr (List.mem_cons_of_mem _ ?_)
        have huncut := htracks.uncapped
        have hdeep := hwhole.2
        rw [hitems] at huncut hdeep ⊢
        refine List.mem_filterMap.mpr ⟨(w, e), mem_takenUp_of_new huncut hsafe hex hnew, ?_⟩
        refine if_pos ⟨hdir, fun hzero => hdeep ?_⟩
        exact ⟨pre, .entry w e, post, rfl, w, e, rfl, hdir, hzero, if_pos ⟨hsafe, hex⟩, hnew⟩
      · rw [hcomplete] at hmarked
        cases hmarked

end Synora.Mirror
