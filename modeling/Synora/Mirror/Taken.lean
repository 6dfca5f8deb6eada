import Synora.Mirror.Deletes

namespace Synora.Mirror
open Strings Utf8

/-! ## The entries that a plan takes up -/

/-- What has been read of the listings: the keys named so far, the number of entries counted and
the entries taken up. -/
structure Intake where
  keys : List Text
  count : ℕ
  taken : List (DirectoryWork × Entry)

/-- An entry is taken up when it is safe, not excluded, not named before and below the cap. -/
def Intake.read (env : Env) (r : Intake) : Item → Intake
  | .manifest key => { r with keys := r.keys ++ [key] }
  | .entry w e =>
    if maxEntries ≤ r.count then r
    else if isSafeRel e.path ∧ ¬isExcluded env.ext env.excludes (keyOf w e) then
      if keyOf w e ∈ r.keys then { r with count := r.count + 1 }
      else ⟨r.keys ++ [keyOf w e], r.count + 1, r.taken ++ [(w, e)]⟩
    else r

def Intake.readAll (env : Env) (items : List Item) : Intake :=
  items.foldl (Intake.read env) ⟨[], 0, []⟩

/-- The entries that are taken up from the listings. -/
def takenUp (env : Env) (items : List Item) : List (DirectoryWork × Entry) :=
  (Intake.readAll env items).taken

def downloadOf (env : Env) (x : DirectoryWork × Entry) : Option (Text × Path) :=
  if x.2.kind = .file ∧ localMatches env (destOf env x.1 x.2) x.2 = false then
    some (join x.1.url x.2.path, destOf env x.1 x.2)
  else none

/-- Where a link is planned. -/
def linkOf (env : Env) (x : DirectoryWork × Entry) : Option Path :=
  if x.2.kind = .symlink then some (env.storage.join (Path.ofText (keyOf x.1 x.2))) else none

/-- The sizes of the regular files. -/
def fileSizes (taken : List (DirectoryWork × Entry)) : List (Option ℕ) :=
  (taken.filter fun x => decide (x.2.kind = .file)).map fun x => x.2.size

/-- The known sizes, without a bound on their sum. -/
def exactSum (taken : List (DirectoryWork × Entry)) : ℕ :=
  ((fileSizes taken).map fun size => size.getD 0).sum

/-- The plan holds what the entries bring to it. -/
structure Reflects (env : Env) (p : Plan) (taken : List (DirectoryWork × Entry)) : Prop where
  downloads : p.downloads = taken.filterMap (downloadOf env)
  symlinks : p.symlinks.map Prod.fst = taken.filterMap (linkOf env)
  sizeSum : p.sizeSum = exactSum taken % 2 ^ 64
  sizeUnknown : p.sizeUnknown = true ↔ none ∈ fileSizes taken

section

variable {env : Env} {w : DirectoryWork} {c : Crawl} {taken : List (DirectoryWork × Entry)}

theorem fileSizes_concat (taken : List (DirectoryWork × Entry)) (x : DirectoryWork × Entry) :
    fileSizes (taken ++ [x]) = fileSizes taken ++ if x.2.kind = .file then [x.2.size] else [] := by
  unfold fileSizes
  rw [List.filter_append, List.map_append]
  by_cases hkind : x.2.kind = .file
  · simp [hkind]
  · simp [hkind]

theorem exactSum_concat (taken : List (DirectoryWork × Entry)) (x : DirectoryWork × Entry) :
    exactSum (taken ++ [x]) =
      exactSum taken + if x.2.kind = .file then x.2.size.getD 0 else 0 := by
  unfold exactSum
  rw [fileSizes_concat, List.map_append, List.sum_append]
  split_ifs
  · simp
  · simp

/-- A file without a size marks the plan; one with a size is added to the sum. -/
theorem enqueue_file (w : DirectoryWork) {e : Entry} (c : Crawl) (hkind : e.kind = .file) :
    (Crawl.enqueue env w e c).plan = { c.plan with
      downloads := c.plan.downloads ++ (downloadOf env (w, e)).toList
      sizeSum := match e.size with
        | some size => (c.plan.sizeSum + size) % 2 ^ 64
        | none => c.plan.sizeSum
      sizeUnknown := c.plan.sizeUnknown || e.size.isNone } := by
  unfold Crawl.enqueue downloadOf destOf
  simp only [hkind, true_and]
  cases e.size with
  | none =>
    cases localMatches env (env.storage.join (Path.ofText (relOf w e))) e <;> simp
  | some size =>
    cases localMatches env (env.storage.join (Path.ofText (relOf w e))) e <;> simp

theorem enqueue_reflects (e : Entry) (h : Reflects env c.plan taken) :
    Reflects env (Crawl.enqueue env w e c).plan (taken ++ [(w, e)]) := by
  obtain ⟨hdown, hlink, hsum, hunknown⟩ := h
  have hother (hkind : e.kind ≠ .file) (p : Plan) (hd : p.downloads = c.plan.downloads)
      (hl : p.symlinks.map Prod.fst =
        c.plan.symlinks.map Prod.fst ++ (linkOf env (w, e)).toList)
      (hs : p.sizeSum = c.plan.sizeSum) (hu : p.sizeUnknown = c.plan.sizeUnknown) :
      Reflects env p (taken ++ [(w, e)]) := by
    refine ⟨?_, ?_, ?_, ?_⟩
    · rw [hd, hdown, List.filterMap_append]
      simp [downloadOf, hkind]
    · rw [hl, hlink, List.filterMap_append]
      cases hx : linkOf env (w, e) <;> simp [hx]
    · rw [hs, hsum, exactSum_concat, if_neg hkind, Nat.add_zero]
    · rw [hu, hunknown, fileSizes_concat, if_neg hkind, List.append_nil]
  cases hkind : e.kind with
  | dir =>
    apply hother (by simp [hkind]) <;> simp only [Crawl.enqueue, linkOf, hkind] <;> split <;> simp
  | symlink =>
    apply hother (by simp [hkind]) <;> simp [Crawl.enqueue, linkOf, hkind]
  | file =>
    have hsizes := fileSizes_concat taken (w, e)
    have htotal := exactSum_concat taken (w, e)
    rw [if_pos hkind] at hsizes htotal
    rw [enqueue_file w c hkind]
    refine ⟨?_, ?_, ?_, ?_⟩
    · rw [hdown, List.filterMap_append]
      cases hx : downloadOf env (w, e) <;> simp [hx]
    · rw [hlink, List.filterMap_append]
      simp [linkOf, hkind]
    · rw [htotal]
      cases e.size with
      | none => simpa using hsum
      | some size => simp [hsum]
    · rw [hsizes, List.mem_append, ← hunknown]
      cases e.size <;> simp

/-- A crawl below the cap has read what its plan reflects. -/
structure Follows (env : Env) (c : Crawl) (r : Intake) : Prop where
  remote : c.remote = r.keys
  seen : c.seen = r.count
  reflects : Reflects env c.plan r.taken

theorem visit_follows {r : Intake} (e : Entry) (h : Follows env c r)
    (hcap : ¬maxEntries ≤ c.seen) : Follows env (c.visit env w e) (r.read env (.entry w e)) := by
  unfold Crawl.visit Intake.read
  rw [h.seen] at hcap
  simp only [if_neg hcap]
  by_cases hsafe : isSafeRel e.path
  · by_cases hex : isExcluded env.ext env.excludes (keyOf w e)
    · simpa [hsafe, hex] using h
    · simp only [hsafe, hex, Bool.not_true, Bool.false_eq_true, if_false, not_false_eq_true,
        and_self, if_true, h.remote]
      by_cases hmem : keyOf w e ∈ r.keys
      · rw [if_pos hmem, if_pos hmem]
        exact ⟨rfl, congrArg (· + 1) h.seen, h.reflects⟩
      · rw [if_neg hmem, if_neg hmem]
        obtain ⟨hr, hs, -⟩ := enqueue_spec env w e
          { c with seen := c.seen + 1, remote := r.keys ++ [keyOf w e] }
        refine ⟨hr, hs.trans (congrArg (· + 1) h.seen), ?_⟩
        exact enqueue_reflects e h.reflects
  · simpa [hsafe] using h

/-- Above the cap no entry is taken up. -/
theorem foldl_read_full {r : Intake} (hcap : maxEntries ≤ r.count) (es : List Entry) :
    (es.map (.entry w)).foldl (Intake.read env) r = r := by
  induction es with
  | nil => rfl
  | cons e es ih =>
    rw [List.map_cons, List.foldl_cons, Intake.read, if_pos hcap]
    exact ih

theorem visitAll_follows {r : Intake} (es : List Entry) (h : Follows env c r) :
    Reflects env (c.visitAll env w es).plan
      ((es.map (.entry w)).foldl (Intake.read env) r).taken ∧
    ((c.visitAll env w es).entryCapReached = true ∨
      Follows env (c.visitAll env w es) ((es.map (.entry w)).foldl (Intake.read env) r)) := by
  induction es generalizing c r with
  | nil => exact ⟨h.reflects, Or.inr h⟩
  | cons e es ih =>
    rw [Crawl.visitAll]
    split
    · rename_i hcap
      rw [foldl_read_full (h.seen ▸ hcap)]
      obtain ⟨hd, hl, hs, hu⟩ := h.reflects
      exact ⟨⟨hd, hl, hs, hu⟩, Or.inl rfl⟩
    · rename_i hcap
      exact ih (visit_follows e h hcap)

/-- The plan reflects the listings consumed, and more of them can be read unless the cap is
reached. -/
def Reads (env : Env) (c : Crawl) : Prop :=
  Reflects env c.plan (takenUp env (c.items env)) ∧
    (c.entryCapReached = true ∨ Follows env c (Intake.readAll env (c.items env)))

theorem consume_reads {c' : Crawl} {l : Listing}
    (hf : Follows env c (Intake.readAll env (c.items env))) (h : c.consume env l = .ok c') :
    Reads env c' := by
  have key (c₀ : Crawl) (r : Intake) (es : List Entry) (hc₀ : c₀.consumed = c.consumed ++ [l])
      (h₀ : Follows env c₀ r) (hr : (es.map (.entry l.work)).foldl (Intake.read env) r =
        (l.items env).foldl (Intake.read env) (Intake.readAll env (c.items env))) :
      Reads env (c₀.visitAll env l.work es) := by
    have hread : (es.map (.entry l.work)).foldl (Intake.read env) r =
        Intake.readAll env ((c₀.visitAll env l.work es).items env) := by
      unfold Crawl.items Intake.readAll
      rw [hr, visitAll_consumed, hc₀, List.flatMap_append, List.foldl_append]
      simp [Intake.readAll, Crawl.items]
    unfold Reads takenUp
    rw [← hread]
    exact visitAll_follows es h₀
  obtain ⟨es, hes, ⟨hm, rfl⟩ | ⟨hm, rfl⟩⟩ := consume_cases h
  · refine key _ ((Intake.readAll env (c.items env)).read env (.manifest (manifestKey l.work)))
      es rfl ⟨?_, hf.seen, ?_⟩ ?_
    · exact congrArg (· ++ [manifestKey l.work]) hf.remote
    · exact ⟨hf.reflects.downloads, hf.reflects.symlinks, hf.reflects.sizeSum,
        hf.reflects.sizeUnknown⟩
    · simp [Listing.items, hes, hm]
  · refine key _ _ es rfl ⟨hf.remote, hf.seen, hf.reflects⟩ ?_
    simp [Listing.items, hes, hm]

theorem onEvent_reads {c' : Crawl} {event : Event}
    (hf : Follows env c (Intake.readAll env (c.items env)))
    (h : c.onEvent env event = some (.ok c')) : Reads env c' := by
  obtain ⟨task, work, result, -, -, hcase⟩ := onEvent_cases h
  rcases hcase with ⟨-, rfl⟩ | ⟨body, -, hc⟩
  · obtain ⟨hd, hl, hs, hu⟩ := hf.reflects
    exact ⟨⟨hd, hl, hs, hu⟩, Or.inr ⟨hf.remote, hf.seen, ⟨hd, hl, hs, hu⟩⟩⟩
  · refine consume_reads ?_ hc
    exact ⟨hf.remote, hf.seen, hf.reflects⟩

theorem run_reads {c' : Crawl} {events : List Event}
    (hf : Follows env c (Intake.readAll env (c.items env)))
    (h : c.run env events = some (.ok c')) : Reads env c' := by
  have hfill : Follows env (c.fill env) (Intake.readAll env ((c.fill env).items env)) :=
    ⟨hf.remote, hf.seen, hf.reflects⟩
  induction events generalizing c with
  | nil =>
    obtain ⟨-, rfl⟩ | ⟨_, _, _, hnil, -⟩ := run_cases h
    · exact ⟨hfill.reflects, Or.inr hfill⟩
    · cases hnil
  | cons event events ih =>
    obtain ⟨hnil, -⟩ | ⟨_, _, c₁, hcons, he, hrest⟩ := run_cases h
    · cases hnil
    cases hcons
    have hreads := onEvent_reads hfill he
    rcases hrest with ⟨hopen, hrest⟩ | ⟨-, -, rfl⟩
    · rcases hreads.2 with hcap | hnext
      · rw [hopen] at hcap
        cases hcap
      · exact ih hnext hrest ⟨hnext.remote, hnext.seen, hnext.reflects⟩
    · exact hreads

end

/-- A finished plan reflects the entries taken up from the listings that were consumed. -/
theorem planInner_reflects {env : Env} {baseUrl : Text} {depth : ℕ} {events : List Event}
    {c : Crawl} {plan : Plan} (h : planInner env baseUrl depth events = some (.ok (c, plan))) :
    Reflects env c.plan (takenUp env (c.items env)) := by
  refine (run_reads ⟨rfl, rfl, ?_⟩ (planInner_run h).1).1
  exact ⟨rfl, rfl, rfl, by simp [Crawl.start, Plan.default, Crawl.items, Intake.readAll, fileSizes]⟩

/-! ## The directories that are visited -/

/-- The work that a directory entry brings. -/
def DirectoryWork.child (w : DirectoryWork) (e : Entry) : DirectoryWork :=
  ⟨joinSlash w.url e.path, keyOf w e, w.depth - 1, false⟩

/-- The directories that are queued, being listed or listed. -/
def Crawl.works (c : Crawl) : List DirectoryWork :=
  c.pending ++ c.listings ++ c.consumed.map Listing.work

/-- The directory `e` is followed: it is safe and not excluded. -/
def Followed (env : Env) (w : DirectoryWork) (e : Entry) : Prop :=
  e.kind = .dir ∧ isSafeRel e.path ∧ ¬isExcluded env.ext env.excludes (keyOf w e)

section
variable {env : Env} {w : DirectoryWork} {c : Crawl} {J : DirectoryWork → Prop}

theorem enqueue_pending (env : Env) (w : DirectoryWork) (e : Entry) (c : Crawl) :
    (Crawl.enqueue env w e c).pending = c.pending ∨
      (e.kind = .dir ∧ (Crawl.enqueue env w e c).pending = c.pending ++ [w.child e]) := by
  unfold Crawl.enqueue
  cases e.kind with
  | dir =>
    by_cases hd : w.depth = 0
    · simp [hd]
    · simp [hd, DirectoryWork.child]
  | file =>
    left
    cases e.size <;> simp only <;> split <;> rfl
  | symlink => simp

theorem visit_works (hJ : ∀ w e, J w → Followed env w e → J (w.child e)) (e : Entry) (hw : J w)
    (h : ∀ x ∈ c.works, J x) : ∀ x ∈ (c.visit env w e).works, J x := by
  unfold Crawl.visit
  split
  · exact h
  rename_i hsafe
  split
  · exact h
  rename_i hex
  split
  · exact h
  · obtain ⟨hl, -⟩ := enqueue_queue env w e
      { c with seen := c.seen + 1, remote := c.remote ++ [keyOf w e] }
    have hcons := (enqueue_spec env w e
      { c with seen := c.seen + 1, remote := c.remote ++ [keyOf w e] }).2.2.2.2.1
    unfold Crawl.works at h ⊢
    rw [hl, hcons]
    rcases enqueue_pending env w e
      { c with seen := c.seen + 1, remote := c.remote ++ [keyOf w e] } with hp | ⟨hkind, hp⟩
    · rw [hp]
      exact h
    · rw [hp]
      simp only [List.mem_append, List.mem_singleton] at h ⊢
      rintro x (((hx | rfl) | hx) | hx)
      · exact h x (Or.inl (Or.inl hx))
      · exact hJ w e hw ⟨hkind, by simpa using hsafe, hex⟩
      · exact h x (Or.inl (Or.inr hx))
      · exact h x (Or.inr hx)

theorem visitAll_works (hJ : ∀ w e, J w → Followed env w e → J (w.child e)) (es : List Entry)
    (hw : J w) (h : ∀ x ∈ c.works, J x) : ∀ x ∈ (c.visitAll env w es).works, J x := by
  induction es generalizing c with
  | nil => exact h
  | cons e es ih =>
    rw [Crawl.visitAll]
    split
    · intro x hx
      exact h x (List.mem_append_right _ (by simpa [Crawl.works] using hx))
    · exact ih (visit_works hJ e hw h)

theorem onEvent_works (hJ : ∀ w e, J w → Followed env w e → J (w.child e)) {c' : Crawl}
    {event : Event} (h : ∀ x ∈ c.works, J x) (he : c.onEvent env event = some (.ok c')) :
    ∀ x ∈ c'.works, J x := by
  obtain ⟨task, work, result, -, hwork, hcase⟩ := onEvent_cases he
  unfold Crawl.works at h
  simp only [List.mem_append] at h
  have hw : J work := h work (Or.inl (Or.inr (List.mem_of_getElem? hwork)))
  have hrest (x : DirectoryWork) (hx : x ∈ c.pending ++ c.listings.eraseIdx task ∨
      x ∈ c.consumed.map Listing.work) : J x := by
    simp only [List.mem_append] at hx
    rcases hx with (hx | hx) | hx
    · exact h x (Or.inl (Or.inl hx))
    · exact h x (Or.inl (Or.inr (List.mem_of_mem_eraseIdx hx)))
    · exact h x (Or.inr hx)
  rcases hcase with ⟨-, rfl⟩ | ⟨body, -, hc⟩
  · exact fun x hx => hrest x (List.mem_append.mp hx)
  · have hnext (x : DirectoryWork) (hx : x ∈ c.pending ++ c.listings.eraseIdx task ++
        (c.consumed ++ [(⟨work, body⟩ : Listing)]).map Listing.work) : J x := by
      rw [List.map_append, ← List.append_assoc, List.mem_append, List.mem_append] at hx
      rcases hx with hx | hx
      · exact hrest x hx
      · rw [List.mem_singleton.mp hx]
        exact hw
    obtain ⟨es, -, ⟨-, rfl⟩ | ⟨-, rfl⟩⟩ := consume_cases hc
    · exact visitAll_works hJ es hw hnext
    · exact visitAll_works hJ es hw hnext

theorem fill_works (h : ∀ x ∈ c.works, J x) : ∀ x ∈ (c.fill env).works, J x := by
  intro x hx
  apply h x
  simp only [Crawl.works, Crawl.fill, List.mem_append] at hx ⊢
  rcases hx with (hx | hx | hx) | hx
  · exact Or.inl (Or.inl (List.mem_of_mem_drop hx))
  · exact Or.inl (Or.inr hx)
  · exact Or.inl (Or.inl (List.mem_of_mem_take hx))
  · exact Or.inr hx

/-- What holds of the root and passes from a directory to the ones it lists holds of every
directory of a crawl. -/
theorem run_works (hJ : ∀ w e, J w → Followed env w e → J (w.child e)) {c' : Crawl}
    {events : List Event} (h : ∀ x ∈ c.works, J x) (hr : c.run env events = some (.ok c')) :
    ∀ x ∈ c'.works, J x := by
  induction events generalizing c with
  | nil =>
    obtain ⟨-, rfl⟩ | ⟨_, _, _, hnil, -⟩ := run_cases hr
    · exact fill_works h
    · cases hnil
  | cons event events ih =>
    obtain ⟨hnil, -⟩ | ⟨_, _, c₁, hcons, he, hrest⟩ := run_cases hr
    · cases hnil
    cases hcons
    have hworks := onEvent_works hJ (fill_works h) he
    rcases hrest with ⟨-, hrest⟩ | ⟨-, -, rfl⟩
    · exact ih hworks hrest
    · exact hworks

/-- One round of the planning loop that goes on. -/
def Crawl.next (env : Env) (c : Crawl) (event : Event) : Option Crawl :=
  match (c.fill env).onEvent env event with
  | some (.ok c') => some c'
  | _ => none

/-- The same for every state of the planning loop, also for the directories whose listing fails
later on. -/
theorem exec_works (hJ : ∀ w e, J w → Followed env w e → J (w.child e)) {c' : Crawl}
    {events : List Event} (h : ∀ x ∈ c.works, J x)
    (hr : Runs.exec (Crawl.next env) c events = some c') : ∀ x ∈ (c'.fill env).works, J x := by
  refine fill_works (Runs.exec_invariant (Crawl.next env) (fun c => ∀ x ∈ c.works, J x) ?_ h hr)
  intro c event c' hc hnext
  unfold Crawl.next at hnext
  split at hnext
  · rename_i c₁ he
    cases hnext
    exact onEvent_works hJ (fill_works hc) he
  · cases hnext

end

theorem start_works {J : DirectoryWork → Prop} {baseUrl : Text} {depth : ℕ}
    (hroot : J ⟨baseUrl, [], min depth maxDepth, true⟩) :
    ∀ x ∈ (Crawl.start baseUrl depth).works, J x := by
  intro x hx
  rw [Crawl.works, Crawl.start, List.mem_append, List.mem_append] at hx
  rcases hx with (hx | hx) | hx
  · rw [List.mem_singleton.mp hx]
    exact hroot
  · cases hx
  · cases hx

/-- What is taken up is listed, safe and not excluded. -/
theorem mem_takenUp {env : Env} {items : List Item} {x : DirectoryWork × Entry}
    (hx : x ∈ takenUp env items) : .entry x.1 x.2 ∈ items ∧ isSafeRel x.2.path ∧
      ¬isExcluded env.ext env.excludes (keyOf x.1 x.2) := by
  unfold takenUp Intake.readAll at hx
  induction items using List.reverseRecOn with
  | nil => cases hx
  | append_singleton items i ih =>
    rw [List.foldl_append, List.foldl_cons, List.foldl_nil] at hx
    have hold (hx : x ∈ (items.foldl (Intake.read env) ⟨[], 0, []⟩).taken) :
        .entry x.1 x.2 ∈ items ++ [i] ∧ isSafeRel x.2.path ∧
          ¬isExcluded env.ext env.excludes (keyOf x.1 x.2) :=
      ⟨List.mem_append_left _ (ih hx).1, (ih hx).2⟩
    cases i with
    | manifest key => exact hold hx
    | entry w e =>
      unfold Intake.read at hx
      dsimp only at hx
      split at hx
      · exact hold hx
      split at hx
      · rename_i hacc
        split at hx
        · exact hold hx
        · rcases List.mem_append.mp hx with hx | hx
          · exact hold hx
          · rw [List.mem_singleton.mp hx]
            exact ⟨List.mem_append_right _ List.mem_cons_self, hacc⟩
      · exact hold hx

/-- The directories of a finished plan, and the entries taken up from them. -/
theorem planInner_works {env : Env} {baseUrl : Text} {depth : ℕ} {events : List Event}
    {c : Crawl} {plan : Plan} {J : DirectoryWork → Prop}
    (hJ : ∀ w e, J w → Followed env w e → J (w.child e))
    (hroot : J ⟨baseUrl, [], min depth maxDepth, true⟩)
    (h : planInner env baseUrl depth events = some (.ok (c, plan))) :
    (∀ w ∈ c.works, J w) ∧ ∀ x ∈ takenUp env (c.items env), J x.1 := by
  have hworks : ∀ w ∈ c.works, J w := run_works hJ (start_works hroot) (planInner_run h).1
  refine ⟨hworks, fun x hx => hworks _ (List.mem_append_right _ ?_)⟩
  obtain ⟨l, hl, hitem⟩ := List.mem_flatMap.mp (mem_takenUp hx).1
  rw [Listing.items] at hitem
  have hwork : l.work = x.1 := by
    split at hitem
    · cases hitem
    · rcases List.mem_append.mp hitem with hitem | hitem
      · split at hitem
        · cases List.mem_singleton.mp hitem
        · cases hitem
      · obtain ⟨e, -, he⟩ := List.mem_map.mp hitem
        exact (Item.entry.inj he).1
  rw [← hwork]
  exact List.mem_map_of_mem hl

end Synora.Mirror
