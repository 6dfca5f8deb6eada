import Synora.Mirror.Gate
import Synora.Mirror.Taken

namespace Synora.Mirror
open Strings Utf8 Effects Slots

/-! ## A whole sync -/

def FetchError.display : FetchError → Text
  | .http message => "http error: ".toList ++ message
  | .httpStatus code => "http status ".toList ++ Nat.toDigits 10 code
  | .io message => "io error: ".toList ++ message
  | .cancelled => "cancelled".toList

/-- `Fetcher::sync`: what it did, and its result. -/
def Fetcher.sync (f : Fetcher) (env : Env) (baseUrl : Text) (depth : ℕ) (planning : List Event)
    (w : World) (transfers : List TransferEvent) :
    Option (List FsOp × Except FetchError FetchStats) :=
  (planInner env baseUrl depth planning).bind fun planned =>
    match planned with
    | .error e => some ([], .error e)
    | .ok (_, plan) => execute f plan w transfers

theorem sync_ok {f : Fetcher} {env : Env} {baseUrl : Text} {depth : ℕ} {planning : List Event}
    {w : World} {transfers : List TransferEvent} {ops : List FsOp} {stats : FetchStats}
    (h : f.sync env baseUrl depth planning w transfers = some (ops, .ok stats)) :
    ∃ c plan, planInner env baseUrl depth planning = some (.ok (c, plan)) ∧
      execute f plan w transfers = some (ops, .ok stats) := by
  obtain ⟨outcome, hplanned, h⟩ := Option.bind_eq_some_iff.mp h
  cases outcome with
  | error e => cases h
  | ok planned => exact ⟨planned.1, planned.2, hplanned, h⟩

/-! ## The downloads are accounted for -/

/-- A download ends with an answer that is only warned about. -/
def Missing (f : Fetcher) (events : List TransferEvent) (dest : Path) : Prop :=
  ∃ task a e, .joined task (.finished a) ∈ events ∧ fetchToPartial dest a = .error e ∧
    f.isWarning dest e

theorem Missing.mono {f : Fetcher} {events events' : List TransferEvent} {dest : Path}
    (h : Missing f events dest) (hsub : events ⊆ events') : Missing f events' dest := by
  obtain ⟨task, a, e, hmem, hrest⟩ := h
  exact ⟨task, a, e, hsub hmem, hrest⟩

/-- A task that ends leaves its file in its place or missing, or the loop cancelled, or else it is
counted as failed. -/
theorem settle_accounts (f : Fetcher) (dest : Path) (t : Transfers) (task : ℕ) (result : TaskEnd) :
    let u := t.settle f dest result
    u.remaining = t.remaining ∧ u.inFlight = t.inFlight ∧
    u.stats.totalSizeHint = t.stats.totalSizeHint ∧ t.ops <+: u.ops ∧
    (t.cancelled = true → u.cancelled = true) ∧
    ((u.stats.filesFailed = t.stats.filesFailed ∧ (.rename dest ∈ u.ops ∨ u.cancelled = true ∨
        Missing f [.joined task result] dest)) ∨
      u.stats.filesFailed = t.stats.filesFailed + 1) := by
  cases result with
  | panicked =>
    dsimp only [Transfers.settle]
    split
    · rename_i hc
      exact ⟨rfl, rfl, rfl, List.prefix_rfl, id, .inl ⟨rfl, .inr (.inl hc)⟩⟩
    · exact ⟨rfl, rfl, rfl, List.prefix_rfl, id, .inr rfl⟩
  | finished a =>
    dsimp only [Transfers.settle]
    split
    · exact ⟨rfl, rfl, rfl, List.prefix_append _ _, id,
        .inl ⟨rfl, .inl (List.mem_append_right _ List.mem_cons_self)⟩⟩
    · exact ⟨rfl, rfl, rfl, List.prefix_rfl, fun _ => rfl, .inl ⟨rfl, .inr (.inl rfl)⟩⟩
    · rename_i e _ he
      split
      · rename_i hwarning
        exact ⟨rfl, rfl, rfl, List.prefix_rfl, id,
          .inl ⟨rfl, .inr (.inr ⟨task, a, e, List.mem_cons_self, he, hwarning⟩)⟩⟩
      · exact ⟨rfl, rfl, rfl, List.prefix_rfl, id, .inr rfl⟩

/-- The queue moves up. -/
theorem refill_queue (t : Transfers) :
    t.refill.stats = t.stats ∧ t.refill.ops = t.ops ∧ t.refill.cancelled = t.cancelled ∧
    t.refill.inFlight.length + t.refill.remaining.length =
      t.inFlight.length + t.remaining.length ∧
    ∀ d, d ∈ t.remaining ∨ d ∈ t.inFlight → d ∈ t.refill.remaining ∨ d ∈ t.refill.inFlight := by
  unfold Transfers.refill
  split
  · exact ⟨rfl, rfl, rfl, rfl, fun _ h => h⟩
  split
  · exact ⟨rfl, rfl, rfl, rfl, fun _ h => h⟩
  · rename_i d rest hrest
    refine ⟨rfl, rfl, rfl, ?_, fun x hx => ?_⟩
    · simp only [hrest, List.length_append, List.length_cons, List.length_nil]
      omega
    · rw [hrest, List.mem_cons] at hx
      rcases hx with (rfl | hx) | hx
      · exact .inr (List.mem_append_right _ List.mem_cons_self)
      · exact .inl hx
      · exact .inr (List.mem_append_left _ hx)

/-- Every download is queued, running, in its place or missing, unless the loop was cancelled or
counts a failure. -/
structure Accounting (f : Fetcher) (plan : Plan) (events : List TransferEvent) (t : Transfers)
    (failed : ℕ) : Prop where
  filesFailed : t.stats.filesFailed = .ofNat failed
  bounded : failed + t.inFlight.length + t.remaining.length ≤ plan.downloads.length + 1
  hint : t.stats.totalSizeHint = plan.totalSizeHint
  listed : plan.incomplete = true → 0 < failed
  placed : ∀ d ∈ plan.downloads, d ∈ t.remaining ∨ d ∈ t.inFlight ∨ .rename d.2 ∈ t.ops ∨
    t.cancelled = true ∨ 0 < failed ∨ Missing f events d.2

theorem start_accounting (f : Fetcher) (plan : Plan) :
    ∃ failed, Accounting f plan [] (.start f plan) failed := by
  have hlen : (plan.downloads.take f.threads).length + (plan.downloads.drop f.threads).length =
      plan.downloads.length := by
    rw [← List.length_append, List.take_append_drop]
  refine ⟨if plan.incomplete then 1 else 0, ?_, ?_, rfl, ?_, fun d hd => ?_⟩
  · dsimp only [Transfers.start]
    split <;> rfl
  · dsimp only [Transfers.start]
    split <;> omega
  · intro h
    simp [h]
  · rw [← List.take_append_drop f.threads plan.downloads, List.mem_append] at hd
    rcases hd with hd | hd
    · exact .inr (.inl hd)
    · exact .inl hd

section
variable {f : Fetcher} {plan : Plan} {events : List TransferEvent} {t u : Transfers} {failed : ℕ}

/-- One round of the loop. -/
theorem step_accounting {event : TransferEvent} (h : Accounting f plan events t failed)
    (hs : t.step f event = some u) :
    ∃ failed, Accounting f plan (events ++ [event]) u failed := by
  unfold Transfers.step at hs
  split at hs
  · cases hs
  have hold : ∀ {dest}, Missing f events dest → Missing f (events ++ [event]) dest :=
    fun hm => hm.mono (List.subset_append_left _ _)
  have hplaced : ∀ d ∈ plan.downloads, d ∈ t.remaining ∨ d ∈ t.inFlight ∨ .rename d.2 ∈ t.ops ∨
      t.cancelled = true ∨ 0 < failed ∨ Missing f (events ++ [event]) d.2 := fun d hd =>
    (h.placed d hd).imp_right (.imp_right (.imp_right (.imp_right (.imp_right hold))))
  cases event with
  | progress =>
    cases hs
    exact ⟨failed, h.filesFailed, h.bounded, h.hint, h.listed, hplaced⟩
  | cancelled =>
    dsimp only at hs
    split at hs
    · cases hs
    · cases hs
      exact ⟨failed, h.filesFailed, h.bounded, h.hint, h.listed,
        fun d _ => .inr (.inr (.inr (.inl rfl)))⟩
  | joined task result =>
    obtain ⟨d, hd, rfl⟩ := Option.map_eq_some_iff.mp hs
    have hlt : task < t.inFlight.length := (List.getElem?_eq_some_iff.mp hd).1
    have hlen : (t.inFlight.eraseIdx task).length + 1 = t.inFlight.length := by
      rw [List.length_eraseIdx_of_lt hlt]
      omega
    obtain ⟨hrem, hfl, hhint, hops, hcancel, hcount⟩ :=
      settle_accounts f d.2 { t with inFlight := t.inFlight.eraseIdx task } task result
    obtain ⟨rstats, rops, rcancel, rlen, rqueue⟩ := refill_queue
      (({ t with inFlight := t.inFlight.eraseIdx task } : Transfers).settle f d.2 result)
    have hb := h.bounded
    rcases hcount with ⟨hff, hdone⟩ | hff
    · refine ⟨failed, ?_, ?_, ?_, h.listed, fun x hx => ?_⟩
      · rw [rstats, hff]
        exact h.filesFailed
      · rw [Nat.add_assoc, rlen, hfl, hrem]
        dsimp only
        omega
      · rw [rstats, hhint]
        exact h.hint
      · rw [rops, rcancel]
        have hqueued (hp : x ∈ t.remaining ∨ x ∈ t.inFlight.eraseIdx task) := rqueue x <| by
          rw [hrem, hfl]
          exact hp
        rcases hplaced x hx with hp | hp | hp | hp | hp
        · exact (hqueued (.inl hp)).imp_right .inl
        · -- a download in flight is the one that ends, or is still in flight
          rcases eq_or_mem_eraseIdx hd hp with rfl | hp
          · rcases hdone with hr | hc | hm
            · exact .inr (.inr (.inl hr))
            · exact .inr (.inr (.inr (.inl hc)))
            · exact .inr (.inr (.inr (.inr (.inr (hm.mono (List.subset_append_right _ _))))))
          · exact (hqueued (.inr hp)).imp_right .inl
        · exact .inr (.inr (.inl (hops.subset hp)))
        · exact .inr (.inr (.inr (.inl (hcancel hp))))
        · exact .inr (.inr (.inr (.inr hp)))
    · refine ⟨failed + 1, ?_, ?_, ?_, fun _ => Nat.succ_pos _, fun x _ => ?_⟩
      · rw [rstats, hff, UInt32.ofNat_add]
        exact congrArg (· + 1) h.filesFailed
      · rw [Nat.add_assoc, rlen, hfl, hrem]
        dsimp only
        omega
      · rw [rstats, hhint]
        exact h.hint
      · exact .inr (.inr (.inr (.inr (.inl (Nat.succ_pos _)))))

theorem run_accounting (h : Runs.exec (Transfers.step f) (.start f plan) events = some t) :
    ∃ failed, Accounting f plan events t failed :=
  Runs.exec_induction (Transfers.step f)
    (P := fun events t => ∃ failed, Accounting f plan events t failed) (start_accounting f plan)
    (fun _ _ _ _ _ ⟨_, ht⟩ hs => step_accounting ht hs) h

/-- A loop that has ended by itself has every download in its place or missing, or counts a
failure. -/
theorem Accounting.settled (h : Accounting f plan events t 0) (hcancel : t.cancelled = false)
    (hidle : t.inFlight = []) (hdrained : t.remaining = []) :
    ∀ d ∈ plan.downloads, .rename d.2 ∈ t.ops ∨ Missing f events d.2 := by
  intro d hd
  rcases h.placed d hd with hp | hp | hp | hp | hp | hp
  · rw [hdrained] at hp
    cases hp
  · rw [hidle] at hp
    cases hp
  · exact .inl hp
  · rw [hcancel] at hp
    cases hp
  · exact absurd hp (Nat.lt_irrefl 0)
  · exact .inr hp

end

/-! ## The stages count what goes wrong -/

/-- What the stages leave alone. -/
def FetchStats.verdict (s : FetchStats) : UInt32 × Option ℕ := (s.filesWarned, s.totalSizeHint)

/-- A stage counts its failures in `filesFailed`. -/
abbrev StageCounts (k : ℕ) (Q : List FsOp → Prop) (p : Stage) : Prop :=
  Counts FetchStats.filesFailed (· + 1) FetchStats.verdict k Q p

theorem publishManifest_counts (p : Publishing) (dest : Path) (body : Bytes) :
    StageCounts 0 (fun ops => .publish dest body ∈ ops) (publishManifest p dest body) := by
  unfold publishManifest
  split
  · exact counts_stop _
  split
  · exact counts_stop _
  split
  · exact counts_stop _
  · exact counts_perform (fun _ => rfl) (fun _ => rfl) fun _ h => h

theorem removeFile_counts (r : FileRemoval) (path : Path) :
    StageCounts 1 (fun ops => .removeFile path ∈ ops ∧ r.error = none) (removeFile r path) := by
  unfold removeFile
  split
  · exact counts_stop _
  cases herror : r.error with
  | some e => exact counts_perform_failed (fun _ => rfl) fun _ => rfl
  | none => exact counts_perform (fun _ => rfl) (fun _ => rfl) fun _ h => ⟨h, rfl⟩

/-- A directory stays only where a link leads to it or something is in it. -/
theorem removeDir_counts (r : DirRemoval) (path : Path) :
    StageCounts 1 (fun ops => r.symlinkAncestor = true ∨
      .removeDir path ∈ ops ∧ ∀ message, r.error ≠ some (.other message)) (removeDir r path) := by
  unfold removeDir
  split
  · exact counts_stop _
  split
  · rename_i hlink
    exact counts_skip fun _ => .inl hlink
  · rcases herror : r.error with _ | _ | _ | message
    · exact counts_perform (fun _ => rfl) (fun _ => rfl) fun _ h => .inr ⟨h, by simp⟩
    · exact counts_perform (fun _ => rfl) (fun _ => rfl) fun _ h => .inr ⟨h, by simp⟩
    · exact counts_perform (fun _ => rfl) (fun _ => rfl) fun _ h => .inr ⟨h, by simp⟩
    · exact counts_perform_failed (fun _ => rfl) fun _ => rfl

theorem ensureSymlink_counts (l : Linking) (dest : Path) (target : Text) :
    StageCounts 1 (fun ops => l.destExists = true ∨ .symlink dest target ∈ ops)
      (ensureSymlink l dest target) := by
  unfold ensureSymlink
  split
  · exact counts_stop _
  split
  · rename_i hexists
    exact counts_skip fun _ => .inl hexists
  split
  · exact counts_modify (fun _ => rfl) fun _ => rfl
  · exact counts_perform (fun _ => rfl) (fun _ => rfl) fun _ h => .inr h

/-- The manifests are published, and what is no longer listed is removed. -/
structure Renewed (plan : Plan) (w : World) (ops : List FsOp) : Prop where
  published : ∀ m ∈ plan.manifests, .publish m.1 m.2 ∈ ops
  removed : ∀ i path, plan.deletes[i]? = some path →
    .removeFile path ∈ ops ∧ (w.fileRemoval i).error = none
  removedDirs : ∀ i path, plan.deleteDirs[i]? = some path →
    (w.dirRemoval i).symlinkAncestor = true ∨
      .removeDir path ∈ ops ∧ ∀ message, (w.dirRemoval i).error ≠ some (.other message)

/-- The links are made, or something else stands in their place. -/
def Linked (plan : Plan) (w : World) (ops : List FsOp) : Prop :=
  ∀ i l, plan.symlinks[i]? = some l → (w.linking i).destExists = true ∨ .symlink l.1 l.2 ∈ ops

theorem iterate_succ (j n : ℕ) : (· + 1)^[j] (UInt32.ofNat n) = UInt32.ofNat (n + j) := by
  induction j with
  | zero => rfl
  | succ j ih =>
    rw [Function.iterate_succ_apply', ih]
    exact (UInt32.ofNat_add (n + j) 1).symm

theorem publish_counts (manifests : List (Path × Bytes)) (w : World) :
    StageCounts 0 (fun ops => ∀ m ∈ manifests, .publish m.1 m.2 ∈ ops)
      (Prog.forEach (fun i m => publishManifest (w.publishing i) m.1 m.2) 0 manifests) := by
  have hloop := Counts.forEach (Q := fun _ (m : Path × Bytes) ops => FsOp.publish m.1 m.2 ∈ ops)
    (fun i m => publishManifest_counts (w.publishing i) m.1 m.2)
    (fun _ _ _ _ hsub hm => hsub.subset hm) 0 manifests
  refine hloop.imp (by simp) fun ops hops m hm => ?_
  obtain ⟨i, hi⟩ := List.mem_iff_getElem?.mp hm
  exact hops i m hi

theorem removeFiles_counts (paths : List Path) (w : World) :
    StageCounts paths.length (fun ops => ∀ i path, paths[i]? = some path →
        .removeFile path ∈ ops ∧ (w.fileRemoval i).error = none)
      (Prog.forEach (fun i => removeFile (w.fileRemoval i)) 0 paths) := by
  have hloop := Counts.forEach
    (Q := fun i path ops => FsOp.removeFile path ∈ ops ∧ (w.fileRemoval i).error = none)
    (fun i path => removeFile_counts (w.fileRemoval i) path)
    (fun _ _ _ _ hsub hp => hp.imp_left (hsub.subset ·)) 0 paths
  refine hloop.imp (by simp) fun ops hops i path hi => ?_
  simpa using hops i path hi

theorem removeDirs_counts (paths : List Path) (w : World) :
    StageCounts paths.length (fun ops => ∀ i path, paths[i]? = some path →
        (w.dirRemoval i).symlinkAncestor = true ∨
          .removeDir path ∈ ops ∧ ∀ message, (w.dirRemoval i).error ≠ some (.other message))
      (Prog.forEach (fun i => removeDir (w.dirRemoval i)) 0 paths) := by
  have hloop := Counts.forEach
    (Q := fun i path ops => (w.dirRemoval i).symlinkAncestor = true ∨
      FsOp.removeDir path ∈ ops ∧ ∀ message, (w.dirRemoval i).error ≠ some (.other message))
    (fun i path => removeDir_counts (w.dirRemoval i) path)
    (fun _ _ _ _ hsub hp => hp.imp_right (And.imp_left (hsub.subset ·))) 0 paths
  refine hloop.imp (by simp) fun ops hops i path hi => ?_
  simpa only [Nat.zero_add] using hops i path hi

theorem links_counts (plan : Plan) (w : World) :
    StageCounts plan.symlinks.length (Linked plan w)
      (Prog.forEach (fun i l => ensureSymlink (w.linking i) l.1 l.2) 0 plan.symlinks) := by
  have hloop := Counts.forEach
    (Q := fun i (l : Path × Text) ops =>
      (w.linking i).destExists = true ∨ FsOp.symlink l.1 l.2 ∈ ops)
    (fun i l => ensureSymlink_counts (w.linking i) l.1 l.2)
    (fun _ _ _ _ hsub hl => hl.imp_right (hsub.subset ·)) 0 plan.symlinks
  refine hloop.imp (by simp) fun ops hops i l hi => ?_
  simpa only [Nat.zero_add] using hops i l hi

/-- After the transfers: the links are made unless a failure is counted, and behind an open gate the
mirror has been replaced. -/
theorem afterTransfers_counts {plan : Plan} {w : World} {x y : Traced FetchStats FsOp}
    (h : afterTransfers plan w x = (y, none)) :
    x.ops <+: y.ops ∧ y.state.verdict = x.state.verdict ∧
    ∃ j ≤ plan.deletes.length + plan.deleteDirs.length + plan.symlinks.length,
      y.state.filesFailed = (· + 1)^[j] x.state.filesFailed ∧
      (j = 0 → Linked plan w y.ops ∧ (x.state.clean = true → Renewed plan w y.ops)) := by
  unfold afterTransfers at h
  rw [Prog.andThen_eq_none] at h
  obtain ⟨x₁, hpublish, h⟩ := h
  rw [Prog.andThen_eq_none] at h
  obtain ⟨x₂, hremove, hlink⟩ := h
  obtain ⟨hops₁, hrest₁, j₁, hj₁, hcount₁, hdone₁⟩ :=
    (publish_counts plan.manifests w).guarded hpublish
  obtain ⟨hops₂, hrest₂, j₂, hj₂, hcount₂, hdone₂⟩ :=
    ((removeFiles_counts plan.deletes w).andThen (removeDirs_counts plan.deleteDirs w)
      fun _ _ hsub hp j p hj => (hp j p hj).imp_left (hsub.subset ·)).guarded hremove
  obtain ⟨hops₃, hrest₃, j₃, hj₃, hcount₃, hdone₃⟩ := links_counts plan w x₂ y hlink
  refine ⟨hops₁.trans (hops₂.trans hops₃), hrest₃.trans (hrest₂.trans hrest₁), j₃ + (j₂ + j₁),
    by omega, ?_, fun hzero => ⟨hdone₃ (by omega), fun hclean => ?_⟩⟩
  · rw [Function.iterate_add_apply, Function.iterate_add_apply, ← hcount₁, ← hcount₂, hcount₃]
  · -- nothing failed in between, so the second gate is open too
    have hclean₁ : x₁.state.clean = true := by
      have hsame : x₁.state.filesFailed = x.state.filesFailed := by
        rw [hcount₁, show j₁ = 0 by omega]
        rfl
      have hwarned : x₁.state.filesWarned = x.state.filesWarned := (Prod.mk.inj hrest₁).1
      rw [FetchStats.clean, hsame, hwarned]
      exact hclean
    obtain ⟨hfiles, hdirs⟩ := hdone₂ (by omega) hclean₁
    have hlater := hops₂.trans hops₃
    exact ⟨fun m hm => hlater.subset (hdone₁ (by omega) hclean m hm),
      fun i p hi => (hfiles i p hi).imp_left (hops₃.subset ·),
      fun i p hi => (hdirs i p hi).imp_right (And.imp_left (hops₃.subset ·))⟩

/-! ## What a sync without failures has done -/

/-- The downloads and links are entries, so the cap on entries bounds them. -/
theorem planned_transfers_le {env : Env} {baseUrl : Text} {depth : ℕ} {events : List Event}
    {c : Crawl} {plan : Plan} (h : planInner env baseUrl depth events = some (.ok (c, plan))) :
    plan.downloads.length + plan.symlinks.length ≤ maxEntries := by
  obtain ⟨hrun, hfin⟩ := planInner_run h
  have hk : Keeps env (fun _ => True) fun p n =>
      p.downloads.length + p.symlinks.length ≤ n ∧ n ≤ maxEntries := by
    refine ⟨?_, fun _ _ _ _ => trivial, fun p n hn hp => ⟨by omega, by omega⟩,
      fun _ _ hp => hp, fun _ _ _ _ _ hp => hp⟩
    intro w e c n _ _ hn hp
    refine ⟨?_, by omega⟩
    have hstep := Nat.succ_le_succ hp.1
    unfold Crawl.enqueue
    cases e.kind with
    | dir =>
      dsimp only
      split <;> exact Nat.le_succ_of_le hp.1
    | file =>
      dsimp only
      cases e.size <;> split <;> simp only [List.length_append, List.length_singleton] <;> omega
    | symlink => simpa [Nat.add_assoc] using hstep
  have hstart : Kept (fun _ => True) (fun p n =>
      p.downloads.length + p.symlinks.length ≤ n ∧ n ≤ maxEntries) (.start baseUrl depth) :=
    ⟨⟨Nat.le_refl 0, Nat.zero_le _⟩, fun _ _ => trivial⟩
  have hkept := (run_keeps hk hstart hrun).1
  rw [(finish_eq hfin).1, (finish_eq hfin).2.1]
  exact Nat.le_trans hkept.1 hkept.2

/-- Only what the walk of the storage reaches is removed. -/
theorem planned_removals_le {env : Env} {baseUrl : Text} {depth n : ℕ} {events : List Event}
    {c : Crawl} {plan : Plan} (h : planInner env baseUrl depth events = some (.ok (c, plan)))
    (hcap : ∀ v, walk (isExcluded env.ext env.excludes) env.root = some v →
      v.files.length + v.dirs.length ≤ n) :
    plan.deletes.length + plan.deleteDirs.length ≤ n := by
  obtain ⟨hrun, hfin⟩ := planInner_run h
  obtain ⟨hdel, hdirs⟩ := run_deletes hrun
  obtain ⟨-, -, -, -, ⟨h1, h2, -⟩ | ⟨v, hv, -, -, -, h1, h2⟩⟩ := finish_eq hfin
  · rw [h1, h2, hdel, hdirs]
    exact Nat.zero_le n
  · have hle := hcap v hv
    have hfiles := List.length_filter_le (fun rel => !decide (relStr rel ∈ c.remote)) v.files
    have hdirs := List.length_filter_le (fun rel => !decide (relStr rel ∈ c.remote)) v.dirs
    rw [h1, h2]
    simp only [localExtras, List.length_map, List.length_insertionSort]
    omega

/-- A plan that is not marked incomplete comes from listings that were all fetched and followed. -/
theorem planned_whole {env : Env} {baseUrl : Text} {depth : ℕ} {events : List Event}
    {c : Crawl} {plan : Plan} (h : planInner env baseUrl depth events = some (.ok (c, plan)))
    (hwhole : plan.incomplete = false) : ¬CutShort env (c.items env) ∧
      ∀ event ∈ events, ∃ task body, event = .joined task (.fetched body) := by
  obtain ⟨hrun, hfin⟩ := planInner_run h
  rw [(finish_eq hfin).2.2.2.1] at hwhole
  rcases run_sound (start_tracks env baseUrl depth) hrun with ⟨-, htracks⟩ | ⟨-, hinc, -⟩
  · have hnone : ¬(c.listingFailed = true ∨ DepthCut env (c.items env)) := by
      rw [← htracks.incomplete, hwhole]
      simp
    rw [not_or] at hnone
    exact ⟨fun hcut => hcut.elim htracks.uncapped hnone.2,
      (run_fetched hrun (by simpa using hnone.1)).2⟩
  · rw [hwhole] at hinc
    cases hinc

theorem execute_ok {f : Fetcher} {plan : Plan} {w : World} {events : List TransferEvent}
    {ops : List FsOp} {stats : FetchStats}
    (h : execute f plan w events = some (ops, .ok stats)) :
    ∃ t, Runs.exec (Transfers.step f) (.start f plan) events = some t ∧ t.inFlight = [] ∧
      t.cancelled = false ∧ afterTransfers plan w ⟨t.stats, t.ops⟩ = (⟨stats, ops⟩, none) := by
  unfold execute at h
  split at h
  · cases h
  · obtain ⟨t, ht, h⟩ := Option.bind_eq_some_iff.mp h
    split at h
    · cases h
    rename_i hidle
    split at h
    · cases h
    rename_i hcancel
    refine ⟨t, ht, by simpa using hidle, by simpa using hcancel, ?_⟩
    split at h <;> rename_i heq <;> cases h
    exact heq

/-- An execution that counts no failure: no download is lost, and behind a warning nothing is
replaced. -/
structure Executed (f : Fetcher) (plan : Plan) (w : World) (events : List TransferEvent)
    (ops : List FsOp) (stats : FetchStats) : Prop where
  whole : plan.incomplete = false
  hint : stats.totalSizeHint = plan.totalSizeHint
  downloaded : ∀ d ∈ plan.downloads, .rename d.2 ∈ ops ∨
    stats.filesWarned ≠ 0 ∧ Missing f events d.2
  linked : Linked plan w ops
  renewed : stats.filesWarned = 0 → Renewed plan w ops
  untouched : stats.filesWarned ≠ 0 → ∀ op ∈ ops, ¬op.Destructive

theorem ofNat_eq_zero {n : ℕ} (hn : n < 2 ^ 32) (h : UInt32.ofNat n = 0) : n = 0 := by
  have hzero := congrArg UInt32.toNat h
  rwa [UInt32.toNat_ofNat_of_lt' hn] at hzero

theorem execute_executed {f : Fetcher} {plan : Plan} {w : World} {events : List TransferEvent}
    {ops : List FsOp} {stats : FetchStats}
    (hcap : plan.downloads.length + plan.symlinks.length + plan.deletes.length +
      plan.deleteDirs.length + 1 < 2 ^ 32)
    (h : execute f plan w events = some (ops, .ok stats)) (hfailed : stats.filesFailed = 0) :
    Executed f plan w events ops stats := by
  obtain ⟨t, ht, hidle, hcancel, hafter⟩ := execute_ok h
  obtain ⟨failed, warned, hinv⟩ := run_transferring ht
  obtain ⟨failed', hacc⟩ := run_accounting ht
  obtain ⟨hops, hverdict, j, hj, hcount, hdone⟩ := afterTransfers_counts hafter
  obtain ⟨hwarned, hhint⟩ := Prod.mk.inj hverdict
  have hb := hacc.bounded
  -- the counter has not wrapped around, so neither a download nor a stage has failed
  rw [hfailed, hacc.filesFailed, iterate_succ] at hcount
  have hsum := ofNat_eq_zero (by omega) hcount.symm
  obtain rfl : failed' = 0 := by omega
  obtain ⟨hlinked, hrenewed⟩ := hdone (by omega)
  have hsettled := hacc.settled hcancel hidle (hinv.drained hcancel hidle)
  have hclean : t.stats.clean = true ↔ stats.filesWarned = 0 := by
    rw [hwarned, FetchStats.clean, hacc.filesFailed]
    simp
  refine ⟨?_, hhint.trans hacc.hint, fun d hd => ?_, hlinked, fun hzero => ?_, fun hne => ?_⟩
  · by_contra hinc
    exact absurd (hacc.listed (by simpa using hinc)) (Nat.lt_irrefl 0)
  · by_cases hzero : stats.filesWarned = 0
    · have hnone := hinv.clean (by omega) (hclean.mpr hzero)
      exact .inl (hops.subset (hinv.all_renamed hcancel hidle hnone d hd))
    · exact (hsettled d hd).imp (hops.subset ·) fun hmissing => ⟨hzero, hmissing⟩
  · exact hrenewed (hclean.mpr hzero)
  · obtain ⟨added, hadded, hharmless⟩ := afterTransfers_closed plan w (x := ⟨t.stats, t.ops⟩)
      (by rw [← Bool.not_eq_true, hclean]; exact hne)
    rw [hafter] at hadded
    dsimp only at hadded
    rw [hadded]
    exact List.forall_mem_append.mpr ⟨hinv.harmless, hharmless⟩

end Synora.Mirror
