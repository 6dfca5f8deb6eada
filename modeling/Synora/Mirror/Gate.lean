import Synora.Lib.Slots
import Synora.Mirror.Contained
import Synora.Mirror.Execute

namespace Synora.Mirror
open Strings Utf8 Effects Slots

/-! ## What the events of a transfer say -/

/-- The loop notices the cancellation. -/
def TransferEvent.Cancels : TransferEvent → Prop
  | .cancelled => True
  | .joined _ (.finished a) => ∃ dest, fetchToPartial dest a = .error .cancelled
  | _ => False

/-- A download fails, for good or with a warning. -/
def TransferEvent.Fails : TransferEvent → Prop
  | .joined _ .panicked => True
  | .joined _ (.finished a) => ∃ dest e, fetchToPartial dest a = .error e ∧ e ≠ .cancelled
  | _ => False

/-- The calls that the gate holds back. -/
def FsOp.Destructive : FsOp → Prop
  | .publish _ _ | .removeFile _ | .removeDir _ => True
  | .rename _ | .symlink _ _ => False

/-- How a task's end is recorded: its file is in place, or a cancellation was noticed, or one
counter goes up. -/
theorem settle_cases (f : Fetcher) (dest : Path) (t : Transfers) (task : ℕ) (result : TaskEnd) :
    let u := t.settle f dest result
    u.remaining = t.remaining ∧ u.inFlight = t.inFlight ∧
    ((u.ops = t.ops ++ [.rename dest] ∧ u.cancelled = t.cancelled ∧
        u.stats.filesFailed = t.stats.filesFailed ∧ u.stats.filesWarned = t.stats.filesWarned ∧
        ¬(TransferEvent.joined task result).Fails ∧ ¬(TransferEvent.joined task result).Cancels) ∨
      (u.ops = t.ops ∧ u.cancelled = true ∧
        u.stats.filesFailed = t.stats.filesFailed ∧ u.stats.filesWarned = t.stats.filesWarned) ∨
      (u.ops = t.ops ∧ u.cancelled = t.cancelled ∧ ¬(TransferEvent.joined task result).Cancels ∧
        ((u.stats.filesFailed = t.stats.filesFailed + 1 ∧
            u.stats.filesWarned = t.stats.filesWarned) ∨
          (u.stats.filesFailed = t.stats.filesFailed ∧
            u.stats.filesWarned = t.stats.filesWarned + 1)))) := by
  cases result with
  | panicked =>
    dsimp only [Transfers.settle]
    split
    · rename_i hc
      exact ⟨rfl, rfl, Or.inr (Or.inl ⟨rfl, hc, rfl, rfl⟩)⟩
    · exact ⟨rfl, rfl, Or.inr (Or.inr ⟨rfl, rfl, id, Or.inl ⟨rfl, rfl⟩⟩)⟩
  | finished a =>
    dsimp only [Transfers.settle]
    split
    · rename_i n hn
      have hok : ∀ dest' e, fetchToPartial dest' a ≠ .error e := by
        intro dest' e he
        rcases fetchToPartial_dest dest dest' a with h | ⟨m, _, h, -⟩
        · rw [hn, he] at h
          cases h
        · rw [hn] at h
          cases h
      refine ⟨rfl, rfl, Or.inl ⟨rfl, rfl, rfl, rfl, ?_, ?_⟩⟩
      · rintro ⟨dest', e, he, -⟩
        exact hok dest' e he
      · rintro ⟨dest', he⟩
        exact hok dest' _ he
    · exact ⟨rfl, rfl, Or.inr (Or.inl ⟨rfl, rfl, rfl, rfl⟩)⟩
    · rename_i e hnot he
      have hno : ¬(TransferEvent.joined task (.finished a)).Cancels := by
        rintro ⟨dest', hc⟩
        rcases fetchToPartial_dest dest dest' a with h | ⟨_, m', -, h⟩
        · rw [he, hc] at h
          exact hnot (Except.error.inj h)
        · rw [hc] at h
          cases h
      split
      · exact ⟨rfl, rfl, Or.inr (Or.inr ⟨rfl, rfl, hno, Or.inr ⟨rfl, rfl⟩⟩)⟩
      · exact ⟨rfl, rfl, Or.inr (Or.inr ⟨rfl, rfl, hno, Or.inl ⟨rfl, rfl⟩⟩)⟩

/-! ## The invariant of the transfer loop -/

/-- The loop after `events`, of which `failed` downloads failed and `warned` were warned about. -/
structure Transferring (plan : Plan) (events : List TransferEvent) (t : Transfers)
    (failed warned : ℕ) : Prop where
  filesFailed : t.stats.filesFailed = .ofNat failed
  filesWarned : t.stats.filesWarned = .ofNat warned
  bounded : failed + warned + t.inFlight.length + t.remaining.length ≤ plan.downloads.length + 1
  blamed : (plan.incomplete = true ∨ ∃ e ∈ events, e.Fails) →
    t.cancelled = true ∨ 0 < failed + warned
  placed : ∀ d ∈ plan.downloads, d ∈ t.remaining ∨ d ∈ t.inFlight ∨ .rename d.2 ∈ t.ops ∨
    t.cancelled = true ∨ 0 < failed + warned
  renames : ∀ op ∈ t.ops, ∃ dest, op = .rename dest
  observed : (∃ e ∈ events, e.Cancels) → t.cancelled = true
  drained : t.cancelled = false → t.inFlight = [] → t.remaining = []

theorem start_transferring (f : Fetcher) (plan : Plan) :
    ∃ failed, Transferring plan [] (.start f plan) failed 0 := by
  have hlen : (plan.downloads.take f.threads).length + (plan.downloads.drop f.threads).length =
      plan.downloads.length := by
    rw [← List.length_append, List.take_append_drop]
  refine ⟨if plan.incomplete then 1 else 0, ?_, rfl, ?_, ?_, ?_, ?_, ?_, ?_⟩
  · dsimp only [Transfers.start]
    split <;> rfl
  · dsimp only [Transfers.start]
    split <;> omega
  · rintro (h | ⟨e, he, -⟩)
    · right
      simp [h]
    · cases he
  · intro d hd
    rw [← List.take_append_drop f.threads plan.downloads, List.mem_append] at hd
    rcases hd with hd | hd
    · exact Or.inr (Or.inl hd)
    · exact Or.inl hd
  · intro op hop
    cases hop
  · rintro ⟨e, he, -⟩
    cases he
  · intro _ hnil
    have hpos := f.threads_pos
    have hall : plan.downloads.length ≤ f.threads ∨ f.threads = 0 := by
      simp only [Transfers.start, List.take_eq_nil_iff] at hnil
      rcases hnil with h | h
      · exact Or.inr h
      · rw [h]
        exact Or.inl (Nat.zero_le _)
    exact List.drop_eq_nil_of_le (by omega)

section
variable {plan : Plan} {events : List TransferEvent} {t : Transfers} {failed warned : ℕ}

/-- Starting the next download keeps every clause; after it the queue waits only behind a task. -/
theorem Transferring.refill
    (filesFailed : t.stats.filesFailed = .ofNat failed)
    (filesWarned : t.stats.filesWarned = .ofNat warned)
    (bounded : failed + warned + t.inFlight.length + t.remaining.length ≤
      plan.downloads.length + 1)
    (blamed : (plan.incomplete = true ∨ ∃ e ∈ events, e.Fails) →
      t.cancelled = true ∨ 0 < failed + warned)
    (placed : ∀ d ∈ plan.downloads, d ∈ t.remaining ∨ d ∈ t.inFlight ∨ .rename d.2 ∈ t.ops ∨
      t.cancelled = true ∨ 0 < failed + warned)
    (renames : ∀ op ∈ t.ops, ∃ dest, op = .rename dest)
    (observed : (∃ e ∈ events, e.Cancels) → t.cancelled = true) :
    Transferring plan events t.refill failed warned := by
  unfold Transfers.refill
  split
  · rename_i hc
    exact ⟨filesFailed, filesWarned, bounded, blamed, placed, renames, observed,
      fun hnot => by rw [hc] at hnot; cases hnot⟩
  split
  · rename_i hr
    exact ⟨filesFailed, filesWarned, bounded, blamed, placed, renames, observed, fun _ _ => hr⟩
  · rename_i d rest hr
    rw [hr] at bounded placed
    refine ⟨filesFailed, filesWarned, ?_, blamed, fun x hx => ?_, renames, observed, ?_⟩
    · simp only [List.length_cons, List.length_append, List.length_nil] at bounded ⊢
      omega
    · rcases placed x hx with h | h | h
      · rcases List.mem_cons.mp h with rfl | h
        · exact Or.inr (Or.inl (List.mem_append_right _ (List.mem_singleton_self x)))
        · exact Or.inl h
      · exact Or.inr (Or.inl (List.mem_append_left _ h))
      · exact Or.inr (Or.inr h)
    · intro _ hnil
      simp at hnil

theorem exists_mem_concat {P : TransferEvent → Prop} {event : TransferEvent} (h : ¬P event) :
    (∃ e ∈ events ++ [event], P e) ↔ ∃ e ∈ events, P e := by
  simp [or_and_right, exists_or, h]

/-- One round of the loop. -/
theorem step_transferring {f : Fetcher} {u : Transfers} {event : TransferEvent}
    (h : Transferring plan events t failed warned) (hs : t.step f event = some u) :
    ∃ failed warned, Transferring plan (events ++ [event]) u failed warned := by
  unfold Transfers.step at hs
  split at hs
  · cases hs
  cases event with
  | progress =>
    cases hs
    refine ⟨failed, warned, h.filesFailed, h.filesWarned, h.bounded, ?_, h.placed, h.renames, ?_,
      h.drained⟩
    · rw [exists_mem_concat (P := TransferEvent.Fails) id]
      exact h.blamed
    · rw [exists_mem_concat (P := TransferEvent.Cancels) id]
      exact h.observed
  | cancelled =>
    dsimp only at hs
    split at hs
    · cases hs
    · cases hs
      exact ⟨failed, warned, h.filesFailed, h.filesWarned, h.bounded, fun _ => Or.inl rfl,
        fun d hd => Or.inr (Or.inr (Or.inr (Or.inl rfl))), h.renames, fun _ => rfl,
        fun hnot => by cases hnot⟩
  | joined task result =>
    obtain ⟨d, hd, rfl⟩ := Option.map_eq_some_iff.mp hs
    have hlt : task < t.inFlight.length := (List.getElem?_eq_some_iff.mp hd).1
    have hlen : (t.inFlight.eraseIdx task).length + 1 = t.inFlight.length := by
      rw [List.length_eraseIdx_of_lt hlt]
      omega
    have hb := h.bounded
    obtain ⟨hrem, hfl, hcase⟩ :=
      settle_cases f d.2 { t with inFlight := t.inFlight.eraseIdx task } task result
    rcases hcase with ⟨hops, hc, hff, hfw, hnf, hnc⟩ | ⟨hops, hc, hff, hfw⟩ | ⟨hops, hc, hnc, hcount⟩
    · -- The file is in place.
      refine ⟨failed, warned, Transferring.refill (hff.trans h.filesFailed)
        (hfw.trans h.filesWarned) ?_ ?_ ?_ ?_ ?_⟩
      · rw [hfl, hrem]
        dsimp only
        omega
      · rw [exists_mem_concat hnf, hc]
        exact h.blamed
      · intro x hx
        rw [hrem, hfl, hops, hc]
        rcases h.placed x hx with hp | hp | hp | hp
        · exact Or.inl hp
        · -- A download in flight is the one that ends, or is still in flight.
          rcases eq_or_mem_eraseIdx hd hp with rfl | hp
          · exact Or.inr (Or.inr (Or.inl (List.mem_append_right _ (List.mem_singleton_self _))))
          · exact Or.inr (Or.inl hp)
        · exact Or.inr (Or.inr (Or.inl (List.mem_append_left _ hp)))
        · exact Or.inr (Or.inr (Or.inr hp))
      · rw [hops]
        exact List.forall_mem_append.mpr ⟨h.renames, by simp⟩
      · rw [exists_mem_concat hnc, hc]
        exact h.observed
    · -- The loop is cancelled.
      refine ⟨failed, warned, Transferring.refill (hff.trans h.filesFailed)
        (hfw.trans h.filesWarned) ?_ (fun _ => Or.inl hc)
        (fun x hx => Or.inr (Or.inr (Or.inr (Or.inl hc)))) ?_ (fun _ => hc)⟩
      · rw [hfl, hrem]
        dsimp only
        omega
      · rw [hops]
        exact h.renames
    · -- The download counts against the run.
      have hnext : ∃ failed' warned', failed' + warned' = failed + warned + 1 ∧
          (({ t with inFlight := t.inFlight.eraseIdx task } : Transfers).settle f d.2
            result).stats.filesFailed = .ofNat failed' ∧
          (({ t with inFlight := t.inFlight.eraseIdx task } : Transfers).settle f d.2
            result).stats.filesWarned = .ofNat warned' := by
        rcases hcount with ⟨hff, hfw⟩ | ⟨hff, hfw⟩
        · refine ⟨failed + 1, warned, by omega, ?_, hfw.trans h.filesWarned⟩
          rw [hff, UInt32.ofNat_add]
          exact congrArg (· + 1) h.filesFailed
        · refine ⟨failed, warned + 1, by omega, hff.trans h.filesFailed, ?_⟩
          rw [hfw, UInt32.ofNat_add]
          exact congrArg (· + 1) h.filesWarned
      obtain ⟨failed', warned', hsum, hff, hfw⟩ := hnext
      have hpos : 0 < failed' + warned' := by omega
      refine ⟨failed', warned', Transferring.refill hff hfw ?_ (fun _ => Or.inr hpos)
        (fun x hx => Or.inr (Or.inr (Or.inr (Or.inr hpos)))) ?_ ?_⟩
      · rw [hfl, hrem]
        dsimp only
        omega
      · rw [hops]
        exact h.renames
      · rw [exists_mem_concat hnc, hc]
        exact h.observed

end

theorem run_transferring {f : Fetcher} {plan : Plan} {events : List TransferEvent} {t : Transfers}
    (h : Runs.exec (Transfers.step f) (.start f plan) events = some t) :
    ∃ failed warned, Transferring plan events t failed warned := by
  refine Runs.exec_induction (Transfers.step f)
    (P := fun events t => ∃ failed warned, Transferring plan events t failed warned) ?_ ?_ h
  · obtain ⟨failed, hstart⟩ := start_transferring f plan
    exact ⟨failed, 0, hstart⟩
  · rintro events t event u - ⟨failed, warned, ht⟩ hs
    exact step_transferring ht hs

/-- The gate is open only when nothing was blamed: the counters do not wrap. -/
theorem Transferring.clean {plan : Plan} {events : List TransferEvent} {t : Transfers}
    {failed warned : ℕ} (h : Transferring plan events t failed warned)
    (hcap : plan.downloads.length + 1 < 2 ^ 32) (hc : t.stats.clean) : failed + warned = 0 := by
  have hb := h.bounded
  have hzero {n : ℕ} (hn : n < 2 ^ 32) (h0 : UInt32.ofNat n = 0) : n = 0 := by
    have := congrArg UInt32.toNat h0
    rwa [UInt32.toNat_ofNat_of_lt' hn] at this
  simp only [FetchStats.clean, decide_eq_true_eq] at hc
  rw [h.filesFailed, h.filesWarned] at hc
  have h1 := hzero (by omega) hc.1
  have h2 := hzero (by omega) hc.2
  omega

/-- The loop itself only renames. -/
theorem Transferring.harmless {plan : Plan} {events : List TransferEvent} {t : Transfers}
    {failed warned : ℕ} (h : Transferring plan events t failed warned) :
    ∀ op ∈ t.ops, ¬op.Destructive := by
  intro op hop
  obtain ⟨dest, rfl⟩ := h.renames op hop
  exact id

/-- A loop that ends by itself with nothing to blame has put every download in its place. -/
theorem Transferring.all_renamed {plan : Plan} {events : List TransferEvent} {t : Transfers}
    {failed warned : ℕ} (h : Transferring plan events t failed warned) (hc : t.cancelled = false)
    (hidle : t.inFlight = []) (hzero : failed + warned = 0) :
    ∀ d ∈ plan.downloads, .rename d.2 ∈ t.ops := by
  intro d hd
  rcases h.placed d hd with hp | hp | hp | hp | hp
  · rw [h.drained hc hidle] at hp
    cases hp
  · rw [hidle] at hp
    cases hp
  · exact hp
  · rw [hc] at hp
    cases hp
  · omega

/-! ## The stages after the loop -/

theorem publishManifest_only {P : FsOp → Prop} {dest : Path} {body : Bytes} (p : Publishing)
    (h : P (.publish dest body)) : Only P (publishManifest p dest body) := by
  unfold publishManifest
  split
  · exact only_stop _
  split
  · exact only_stop _
  split
  · exact only_stop _
  · exact (only_perform h).andThen (only_modify _)

theorem removeFile_only {P : FsOp → Prop} {path : Path} (r : FileRemoval)
    (h : P (.removeFile path)) : Only P (removeFile r path) := by
  unfold removeFile
  split
  · exact only_stop _
  · exact (only_perform h).andThen (only_modify _)

theorem removeDir_only {P : FsOp → Prop} {path : Path} (r : DirRemoval)
    (h : P (.removeDir path)) : Only P (removeDir r path) := by
  unfold removeDir
  split
  · exact only_stop _
  split
  · exact only_skip
  · exact (only_perform h).andThen (only_modify _)

theorem ensureSymlink_only {P : FsOp → Prop} {dest : Path} {target : Text} (l : Linking)
    (h : P (.symlink dest target)) : Only P (ensureSymlink l dest target) := by
  unfold ensureSymlink
  split
  · exact only_stop _
  split
  · exact only_skip
  split
  · exact only_modify _
  · exact (only_perform h).andThen (only_modify _)

/-- Behind a closed gate only links are made. -/
theorem afterTransfers_closed (plan : Plan) (w : World) {x : Traced FetchStats FsOp}
    (h : x.state.clean = false) :
    ∃ ops, (afterTransfers plan w x).1.ops = x.ops ++ ops ∧ ∀ op ∈ ops, ¬op.Destructive := by
  unfold afterTransfers
  rw [Prog.andThen_of_none (Prog.guarded_of_false h _),
    Prog.andThen_of_none (Prog.guarded_of_false h _)]
  exact Only.forEach (P := fun op => ¬op.Destructive)
    (fun i l _ => ensureSymlink_only (w.linking i) id) 0 x

/-- What is published are the manifests of the plan. -/
theorem afterTransfers_publishes (plan : Plan) (w : World) :
    Only (fun op => ∀ dest body, op = .publish dest body → (dest, body) ∈ plan.manifests)
      (afterTransfers plan w) := by
  refine Only.andThen (Only.guarded _ (Only.forEach (fun i m hm => ?_) 0)) (Only.andThen
    (Only.guarded _ (Only.andThen (Only.forEach (fun i p _ => ?_) 0)
      (Only.forEach (fun i p _ => ?_) 0))) (Only.forEach (fun i l _ => ?_) 0))
  · refine publishManifest_only _ fun dest body h => ?_
    cases h
    exact hm
  · exact removeFile_only _ fun _ _ h => by cases h
  · exact removeDir_only _ fun _ _ h => by cases h
  · exact ensureSymlink_only _ fun _ _ h => by cases h

/-- A whole execution: cancelled before or in the transfer loop, or gone on to the stages. -/
theorem execute_cases {f : Fetcher} {plan : Plan} {w : World} {events : List TransferEvent}
    {ops : List FsOp} {result : Except FetchError FetchStats}
    (h : execute f plan w events = some (ops, result)) :
    (w.cancelledAtStart = true ∧ ops = [] ∧ result = .error .cancelled) ∨
    ∃ t, w.cancelledAtStart = false ∧
      Runs.exec (Transfers.step f) (.start f plan) events = some t ∧ t.inFlight = [] ∧
      ((t.cancelled = true ∧ ops = t.ops ∧ result = .error .cancelled) ∨
        (t.cancelled = false ∧ ops = (afterTransfers plan w ⟨t.stats, t.ops⟩).1.ops)) := by
  unfold execute at h
  split at h
  · rename_i hstart
    cases h
    exact Or.inl ⟨hstart, rfl, rfl⟩
  · rename_i hstart
    obtain ⟨t, ht, h⟩ := Option.bind_eq_some_iff.mp h
    split at h
    · cases h
    rename_i hidle
    refine Or.inr ⟨t, by simpa using hstart, ht, by simpa using hidle, ?_⟩
    split at h
    · rename_i hc
      cases h
      exact Or.inl ⟨hc, rfl, rfl⟩
    · rename_i hc
      refine Or.inr ⟨by simpa using hc, ?_⟩
      split at h <;> rename_i heq <;> cases h <;> rw [heq]

/-! ## What the planner promises -/

/-- Every download is an entry, so the cap on entries bounds them. -/
theorem planned_downloads_le {env : Env} {baseUrl : Text} {depth : ℕ} {events : List Event}
    {c : Crawl} {plan : Plan} (h : planInner env baseUrl depth events = some (.ok (c, plan))) :
    plan.downloads.length ≤ maxEntries := by
  obtain ⟨hrun, hfin⟩ := planInner_run h
  have hk : Keeps env (fun _ => True) fun p n => p.downloads.length ≤ n ∧ n ≤ maxEntries := by
    refine ⟨?_, fun _ _ _ _ => trivial, fun p n hn hp => ⟨by omega, by omega⟩,
      fun _ _ hp => hp, fun _ _ _ _ _ hp => hp⟩
    intro w e c n _ _ hn hp
    refine ⟨?_, by omega⟩
    unfold Crawl.enqueue
    cases e.kind with
    | dir =>
      dsimp only
      split <;> exact Nat.le_succ_of_le hp.1
    | file =>
      dsimp only
      cases e.size <;> split <;> simp only [List.length_append, List.length_singleton] <;> omega
    | symlink => exact Nat.le_succ_of_le hp.1
  have hstart : Kept (fun _ => True) (fun p n => p.downloads.length ≤ n ∧ n ≤ maxEntries)
      (.start baseUrl depth) := ⟨⟨Nat.le_refl 0, Nat.zero_le _⟩, fun _ _ => trivial⟩
  have hkept := (run_keeps hk hstart hrun).1
  rw [(finish_eq hfin).1]
  exact Nat.le_trans hkept.1 hkept.2

/-- The manifests of the crawl are bodies it has fetched, byte by byte. -/
def ManifestsFetched (env : Env) (c : Crawl) : Prop :=
  ∀ m ∈ c.plan.manifests, ∃ l ∈ c.consumed, l.work.isManifest ∧
    m = (env.storage.join (Path.ofText (manifestKey l.work)), l.body)

theorem visit_manifests (env : Env) (w : DirectoryWork) (c : Crawl) (e : Entry) :
    (c.visit env w e).plan.manifests = c.plan.manifests := by
  unfold Crawl.visit
  split
  · rfl
  split
  · rfl
  split
  · rfl
  · unfold Crawl.enqueue
    cases e.kind with
    | dir =>
      dsimp only
      split <;> rfl
    | file =>
      dsimp only
      cases e.size <;> split <;> rfl
    | symlink => rfl

theorem visitAll_manifests (env : Env) (w : DirectoryWork) (c : Crawl) (es : List Entry) :
    (c.visitAll env w es).plan.manifests = c.plan.manifests ∧
      (c.visitAll env w es).consumed = c.consumed := by
  induction es generalizing c with
  | nil => exact ⟨rfl, rfl⟩
  | cons e es ih =>
    rw [Crawl.visitAll]
    split
    · exact ⟨rfl, rfl⟩
    · obtain ⟨hm, hc⟩ := ih (c.visit env w e)
      exact ⟨hm.trans (visit_manifests env w c e), hc.trans (visit_consumed env w c e)⟩

theorem consume_manifestsFetched {env : Env} {c c' : Crawl} {l : Listing}
    (hc : ManifestsFetched env c) (h : c.consume env l = .ok c') : ManifestsFetched env c' := by
  obtain ⟨es, -, ⟨hman, rfl⟩ | ⟨-, rfl⟩⟩ := consume_cases h
  · intro m hm
    obtain ⟨h1, h2⟩ := visitAll_manifests env l.work { c with
      consumed := c.consumed ++ [l]
      remote := c.remote ++ [manifestKey l.work]
      plan := { c.plan with manifests := c.plan.manifests ++
        [(env.storage.join (Path.ofText (manifestKey l.work)), l.body)] } } es
    rw [h1] at hm
    rw [h2]
    rcases List.mem_append.mp hm with hm | hm
    · obtain ⟨l', hl', hrest⟩ := hc m hm
      exact ⟨l', List.mem_append_left _ hl', hrest⟩
    · exact ⟨l, List.mem_append_right _ (List.mem_singleton_self l), hman,
        List.mem_singleton.mp hm⟩
  · intro m hm
    obtain ⟨h1, h2⟩ := visitAll_manifests env l.work { c with consumed := c.consumed ++ [l] } es
    rw [h1] at hm
    rw [h2]
    obtain ⟨l', hl', hrest⟩ := hc m hm
    exact ⟨l', List.mem_append_left _ hl', hrest⟩

theorem run_manifestsFetched {env : Env} {c c' : Crawl} {events : List Event}
    (hc : ManifestsFetched env c) (h : c.run env events = some (.ok c')) :
    ManifestsFetched env c' := by
  induction events generalizing c with
  | nil =>
    obtain ⟨-, rfl⟩ | ⟨_, _, _, hnil, -⟩ := run_cases h
    · exact hc
    · cases hnil
  | cons event events ih =>
    obtain ⟨hnil, -⟩ | ⟨_, _, c₁, hcons, he, hrest⟩ := run_cases h
    · cases hnil
    cases hcons
    have hc₁ : ManifestsFetched env c₁ := by
      obtain ⟨task, work, result, -, -, ⟨-, rfl⟩ | ⟨body, -, hb⟩⟩ := onEvent_cases he
      · exact hc
      · refine consume_manifestsFetched ?_ hb
        exact hc
    rcases hrest with ⟨-, hrest⟩ | ⟨-, -, rfl⟩
    · exact ih hc₁ hrest
    · exact hc₁

theorem planned_manifests {env : Env} {baseUrl : Text} {depth : ℕ} {events : List Event}
    {c : Crawl} {plan : Plan} (h : planInner env baseUrl depth events = some (.ok (c, plan))) :
    ∀ m ∈ plan.manifests, ∃ l ∈ c.consumed, l.work.isManifest ∧
      m = (env.storage.join (Path.ofText (manifestKey l.work)), l.body) := by
  obtain ⟨hrun, hfin⟩ := planInner_run h
  rw [(finish_eq hfin).2.2.1]
  exact run_manifestsFetched (fun m hm => by cases hm) hrun

/-! ## The gate -/

/-- Nothing is published or removed after an incomplete listing or a download that failed, however
the tasks end; a cancellation noticed in the loop ends the sync; and a manifest is published only
behind all downloads, with the bytes that were planned. The counters are 32 bits wide; the planner
stays far below that (`planned_downloads_le`). -/
theorem execute_gated (f : Fetcher) (plan : Plan) (w : World) (events : List TransferEvent)
    (ops : List FsOp) (result : Except FetchError FetchStats)
    (hcap : plan.downloads.length + 1 < 2 ^ 32)
    (h : execute f plan w events = some (ops, result)) :
    ((plan.incomplete = true ∨ ∃ e ∈ events, e.Fails) → ∀ op ∈ ops, ¬op.Destructive) ∧
    ((w.cancelledAtStart = true ∨ ∃ e ∈ events, e.Cancels) →
      (∀ op ∈ ops, ¬op.Destructive) ∧ result = .error .cancelled) ∧
    ∀ pre dest body post, ops = pre ++ .publish dest body :: post →
      (∀ d ∈ plan.downloads, .rename d.2 ∈ pre) ∧ (dest, body) ∈ plan.manifests ∧
      ∀ env baseUrl depth planning c, planInner env baseUrl depth planning = some (.ok (c, plan)) →
        ∃ l ∈ c.consumed, l.work.isManifest ∧ body = l.body ∧
          dest = env.storage.join (Path.ofText (manifestKey l.work)) := by
  obtain ⟨-, rfl, rfl⟩ | ⟨t, hstart, ht, hidle, hcase⟩ := execute_cases h
  · exact ⟨by simp, by simp, by simp⟩
  obtain ⟨failed, warned, hinv⟩ := run_transferring ht
  have hloop := hinv.harmless
  have hpublished {pre dest body post} (hsplit : ops = pre ++ .publish dest body :: post) :
      FsOp.publish dest body ∈ ops := by
    rw [hsplit]
    exact List.mem_append_right _ List.mem_cons_self
  rcases hcase with ⟨hc, rfl, rfl⟩ | ⟨hc, hops⟩
  · -- Cancelled in the loop: its renames are all that has happened.
    refine ⟨fun _ => hloop, fun _ => ⟨hloop, rfl⟩, ?_⟩
    intro pre dest body post hsplit
    exact absurd trivial (hloop _ (hpublished hsplit))
  · have hclosed : t.stats.clean = false → ∀ op ∈ ops, ¬op.Destructive := by
      intro hgate
      obtain ⟨ops', hops', hnone⟩ := afterTransfers_closed plan w (x := ⟨t.stats, t.ops⟩) hgate
      rw [hops, hops']
      exact List.forall_mem_append.mpr ⟨hloop, hnone⟩
    refine ⟨fun hblame => hclosed ?_, ?_, ?_⟩
    · -- Whatever is to blame stands in a counter, and the counters have not wrapped.
      by_contra hgate
      have hzero := hinv.clean hcap (by simpa using hgate)
      rcases hinv.blamed hblame with hcancel | hpos
      · rw [hcancel] at hc
        cases hc
      · omega
    · rintro (hs | hobs)
      · rw [hstart] at hs
        cases hs
      · rw [hinv.observed hobs] at hc
        cases hc
    · intro pre dest body post hsplit
      obtain ⟨rest, hrest, hpub⟩ := afterTransfers_publishes plan w ⟨t.stats, t.ops⟩
      rw [← hops] at hrest
      have hnotin : FsOp.publish dest body ∉ t.ops := fun hin => hloop _ hin trivial
      have hmem : FsOp.publish dest body ∈ rest := by
        have hin := hpublished hsplit
        rw [hrest, List.mem_append] at hin
        exact hin.resolve_left hnotin
      have hzero : failed + warned = 0 := by
        refine hinv.clean hcap ?_
        by_contra hgate
        exact hclosed (by simpa using hgate) _ (hpublished hsplit) trivial
      have hman := hpub _ hmem dest body rfl
      -- The operations of the loop all stand before the first publication.
      have hprefix : t.ops <+: pre := prefix_of_not_mem (hrest.symm.trans hsplit) hnotin
      refine ⟨fun d hd => hprefix.subset (hinv.all_renamed hc hidle hzero d hd), hman, ?_⟩
      intro env baseUrl depth planning c hplan
      obtain ⟨l, hl, hm, heq⟩ := planned_manifests hplan _ hman
      obtain ⟨hdest, hbody⟩ := Prod.mk.inj heq
      exact ⟨l, hl, hm, hbody, hdest⟩

/-- A download that goes well. -/
def arrived : Attempt := ⟨false, .status 200, false, none, none, [.received 7 none], false, none⟩

/-- A repository with one package list, its manifest and one stale file. -/
def rpmPlan : Plan :=
  { Plan.default with
    downloads := [("http://m/repodata/p".toList, Path.ofText "/srv/repodata/p".toList)]
    deletes := [Path.ofText "/srv/old".toList]
    manifests := [(Path.ofText "/srv/repodata/repomd.xml".toList, encode "m".toList)] }

/-- No cancellation, and a file system without errors. -/
def calm : World where
  cancelledAtStart := false
  publishing := fun _ => ⟨false, false, none, none, none⟩
  fileRemoval := fun _ => ⟨false, none⟩
  dirRemoval := fun _ => ⟨false, false, none⟩
  linking := fun _ => ⟨false, false, none, none⟩

theorem execute_gated_rpmPlan :
    ∃ result, execute ⟨5, false, by decide⟩ rpmPlan calm
        [.progress, .joined 0 (.finished arrived)] = some ([.rename (Path.ofText
          "/srv/repodata/p".toList), .publish (Path.ofText "/srv/repodata/repomd.xml".toList)
          (encode "m".toList), .removeFile (Path.ofText "/srv/old".toList)], result) ∧
      ∀ d ∈ rpmPlan.downloads, FsOp.rename d.2 ∈ [FsOp.rename (Path.ofText
        "/srv/repodata/p".toList)] := by
  have heval : (execute ⟨5, false, by decide⟩ rpmPlan calm
      [.progress, .joined 0 (.finished arrived)]).map Prod.fst = some [.rename (Path.ofText
          "/srv/repodata/p".toList), .publish (Path.ofText "/srv/repodata/repomd.xml".toList)
          (encode "m".toList), .removeFile (Path.ofText "/srv/old".toList)] := by decide +kernel
  obtain ⟨⟨ops, result⟩, he, rfl⟩ := Option.map_eq_some_iff.mp heval
  have hgate := execute_gated ⟨5, false, by decide⟩ rpmPlan calm
    [.progress, .joined 0 (.finished arrived)] _ result (by decide) he
  exact ⟨result, he, (hgate.2.2 [_] _ _ _ rfl).1⟩

end Synora.Mirror
