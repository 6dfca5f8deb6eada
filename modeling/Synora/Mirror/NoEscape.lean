import Synora.Mirror.Deletes
import Synora.Mirror.Inside

namespace Synora.Mirror
open Strings Utf8 Effects FileTree

/-! # Planned writes stay inside -/

/-! ## What the planner has walked -/

mutual

/-- The tree that the walk reads is what stands at `p`. -/
def Node.Shows (t : FileTree.Tree OsName) (p : Place OsName) : Node → Prop
  | .file => t.node p = some .file
  | .symlink => isLink (t.node p) = true
  | .special => t.node p = some .special
  | .dir _ children => t.node p = some .dir ∧ children.Shows t p

def Children.Shows (t : FileTree.Tree OsName) (p : Place OsName) : Children → Prop
  | .nil => True
  | .cons name node rest => node.Shows t (p ++ [name.name]) ∧ rest.Shows t p

end

section
variable {t : FileTree.Tree OsName} {root : Place OsName} {excluded : Text → Bool}

/-- A walked path, and the directories that the walk has taken from `rel` to it. -/
def Reached (t : FileTree.Tree OsName) (root : Place OsName) (rel x : List OsName) : Prop :=
  rel <+: x ∧ ∀ q, rel <+: q → q <+: x → q ≠ x → t.node (root ++ q) = some .dir

theorem reached_self (rel : List OsName) : Reached t root rel rel := by
  refine ⟨List.prefix_refl _, fun q hq hq' hne => ?_⟩
  exact absurd (hq'.eq_of_length_le hq.length_le) hne

theorem Reached.up {rel x : List OsName} {n : OsName} (hdir : t.node (root ++ rel) = some .dir)
    (h : Reached t root (rel ++ [n]) x) : Reached t root rel x := by
  refine ⟨(List.prefix_append _ _).trans h.1, fun q hq hq' hne => ?_⟩
  rcases Nat.lt_or_ge rel.length q.length with hlt | hge
  · have hlen : (rel ++ [n]).length ≤ q.length := by
      rw [List.length_append, List.length_singleton]
      omega
    exact h.2 q (List.prefix_of_prefix_length_le h.1 hq' hlen) hq' hne
  · rw [← hq.eq_of_length_le hge]
    exact hdir

mutual

theorem walkNode_reached {rel : List OsName} {node : Node} {p : Walk × Walk}
    (hshows : node.Shows t (root ++ rel)) (h : walkNode excluded rel node = some p) :
    ∀ x ∈ p.1.files ++ p.2.files, Reached t root rel x := by
  cases node with
  | file | symlink =>
    simp only [walkNode] at h
    split at h
    · cases h
      simp
    · cases h
      simpa using reached_self rel
  | special =>
    cases h
    simp
  | dir readable children =>
    simp only [walkNode] at h
    split at h
    · cases h
      simp
    split at h
    · obtain ⟨q, hq, rfl⟩ := Option.map_eq_some_iff.mp h
      rw [Node.Shows] at hshows
      simpa [Walk.append] using walkChildren_reached hshows.1 hshows.2 hq
    · cases h

theorem walkChildren_reached {rel : List OsName} {children : Children} {p : Walk × Walk}
    (hdir : t.node (root ++ rel) = some .dir) (hshows : children.Shows t (root ++ rel))
    (h : walkChildren excluded rel children = some p) :
    ∀ x ∈ p.1.files ++ p.2.files, Reached t root rel x := by
  cases children with
  | nil =>
    cases h
    simp
  | cons name node rest =>
    simp only [walkChildren, Option.bind_eq_bind, Option.bind_eq_some_iff] at h
    obtain ⟨q, hq, q', hq', h⟩ := h
    cases h
    rw [Children.Shows, List.append_assoc] at hshows
    have hnode := walkNode_reached hshows.1 hq
    have hrest := walkChildren_reached hdir hshows.2 hq'
    intro x hx
    simp only [Walk.append, List.mem_append] at hx hnode hrest
    rcases hx with (hx | hx) | (hx | hx)
    · exact (hnode x (Or.inl hx)).up hdir
    · exact hrest x (Or.inl hx)
    · exact hrest x (Or.inr hx)
    · exact (hnode x (Or.inr hx)).up hdir

end

theorem walk_reached {node : Node} {w : Walk} (hshows : node.Shows t root)
    (h : walk excluded node = some w) : ∀ x ∈ w.files, Reached t root [] x := by
  cases node with
  | dir readable children =>
    cases readable with
    | false => cases h
    | true =>
      obtain ⟨p, hp, rfl⟩ := Option.map_eq_some_iff.mp h
      rw [Node.Shows, ← List.append_nil root] at hshows
      exact walkChildren_reached hshows.1 hshows.2 hp
  | _ => cases h

end

/-! ## What is planned -/

theorem Path.below_join {storage rel : Path} (h : rel.isAbsolute = false) :
    Path.below storage (storage.join rel) = rel := by
  unfold Path.below Path.join
  rw [h]
  simp only [Bool.false_eq_true, if_false]
  split
  · rename_i hlast
    have hlen : storage.length - 1 = storage.dropLast.length := List.length_dropLast.symm
    rw [hlen, List.drop_left]
  · rw [List.drop_left]

theorem Contained.below {storage p : Path} (h : Contained storage p) :
    Path.below storage p ≠ [] ∧ .text "..".toList ∉ Path.below storage p := by
  obtain ⟨rel, hne, -, hrel, hdots, rfl⟩ := h
  rw [Path.below_join hrel]
  exact ⟨hne, hdots⟩

theorem getLast?_join {base rel : Path} (h : rel ≠ []) :
    (base.join rel).getLast? = rel.getLast? := by
  unfold Path.join
  split
  · rfl
  · split
    · rw [List.getLast?_append_of_ne_nil _ h]
    · rw [List.getLast?_append_of_ne_nil _ h]

theorem getLast?_manifestKey (w : DirectoryWork) :
    (Path.ofText (manifestKey w)).getLast? = some (.text "repomd.xml".toList) := by
  have hxml : segments "repomd.xml".toList = ["repomd.xml".toList] := by decide
  unfold manifestKey
  split
  · rw [Path.ofText, hxml]
    rfl
  · have hsplit : segments (trimEnd isSlash w.rel ++ "/repomd.xml".toList) =
        segments (trimEnd isSlash w.rel) ++ segments "repomd.xml".toList := segments_slash _ _
    rw [Path.ofText, hsplit, hxml, List.map_append, List.map_singleton, List.getLast?_concat]

theorem endsInName_of_getLast? {storage p : Path} {n : OsName} (hn : n.isNormal)
    (hne : Path.below storage p ≠ []) (h : p.getLast? = some n) :
    (Path.below storage p).endsInName := by
  have hlast : (Path.below storage p).getLast? = some n := by
    rw [← h, Path.below, List.getLast?_drop, if_neg]
    intro hle
    exact hne (List.drop_eq_nil_of_le hle)
  simpa [Path.endsInName, hlast] using hn

/-- What the run relies on about the paths of a plan. -/
structure PlanFits (storage : Path) (plan : Plan) : Prop where
  downloads : ∀ d ∈ plan.downloads, .text "..".toList ∉ Path.below storage d.2
  manifests : ∀ m ∈ plan.manifests, .text "..".toList ∉ Path.below storage m.1 ∧
    (Path.below storage m.1).endsInName
  deleteDirs : ∀ p ∈ plan.deleteDirs, .text "..".toList ∉ Path.below storage p

/-- The directories that hold the planned deletes. -/
def holdsDeletes (storage : Path) (plan : Plan) (root : Place OsName) (x : Place OsName) : Prop :=
  ∃ p ∈ plan.deletes, ∃ q ∈ (Path.below storage p).parents, x = root ++ q

section
variable {env : Env} {baseUrl : Text} {depth : ℕ} {events : List Event} {c : Crawl} {plan : Plan}

theorem planFits (h : planInner env baseUrl depth events = some (.ok (c, plan))) :
    PlanFits env.storage plan := by
  have hkept := crawl_contained h
  obtain ⟨hdown, -, hman, -, -⟩ := finish_eq (planInner_run h).2
  refine ⟨fun d hd => (hkept.downloads d (hdown ▸ hd)).below.2,
    fun m hm => ⟨(hkept.manifests m (hman ▸ hm)).below.2, ?_⟩,
    fun p hp => (extras_contained h p (List.mem_append_right _ hp)).below.2⟩
  obtain ⟨l, -, -, heq⟩ := planned_manifests h m hm
  refine endsInName_of_getLast? (n := .text "repomd.xml".toList) rfl
    (hkept.manifests m (hman ▸ hm)).below.1 ?_
  rw [heq, getLast?_join (by simp [Path.ofText]), getLast?_manifestKey]

/-- The walk has passed through directories only. -/
theorem standing_deletes (h : planInner env baseUrl depth events = some (.ok (c, plan)))
    {d : Disk} (hroot : env.root.Shows d.tree d.root) :
    d.Standing (holdsDeletes env.storage plan d.root) := by
  rintro x ⟨p, hp, q, hq, rfl⟩
  obtain ⟨hrun, hfin⟩ := planInner_run h
  obtain ⟨hdel, -⟩ := run_deletes hrun
  obtain ⟨-, -, -, -, ⟨he, -⟩ | ⟨w, hw, -, -, -, he, -⟩⟩ := finish_eq hfin
  · rw [he, hdel] at hp
    cases hp
  · rw [he, mem_localExtras] at hp
    obtain ⟨f, hf, -, rfl⟩ := hp
    have hnamed := walk_named _ hw f (List.mem_append_left _ hf)
    rw [Path.below_join (isAbsolute_of_entries hnamed.2.1)] at hq
    obtain ⟨-, hpre, hne⟩ := Path.mem_parents.mp hq
    rw [normal_of_entries hnamed.2.1] at hpre hne
    exact (walk_reached hroot hw f hf).2 q List.nil_prefix hpre hne

end

/-! ## The run -/

/-- What every state of a run relies on. -/
def Sync.Inside (storage : Path) (plan : Plan) (root : Place OsName) (s : Sync) : Prop :=
  s.scene.Calm ∧
  match s.stage with
  | .transferring t tasks =>
    s.scene.disk.root = root ∧ s.scene.disk.Standing (holdsDeletes storage plan root) ∧
    tasks.length = t.inFlight.length ∧ (∀ d ∈ t.inFlight ++ t.remaining, d ∈ plan.downloads) ∧
    ∀ (i : ℕ) (task : Task) (d : Text × Path), tasks[i]? = some task → t.inFlight[i]? = some d →
      task.Safe (holdsDeletes storage plan root) s.scene.disk (Path.below storage d.2)
  | .publishing _ rest =>
    s.scene.disk.root = root ∧ s.scene.disk.Standing (holdsDeletes storage plan root) ∧
    rest ⊆ plan.manifests
  | .deleting _ files dirs =>
    (files = [] ∨ s.scene.disk.root = root ∧
      s.scene.disk.Standing (holdsDeletes storage plan root)) ∧
    files ⊆ plan.deletes ∧ dirs ⊆ plan.deleteDirs
  | .linking _ _ => True
  | .ended _ => True

/-- The two ways in which the code can write through a link are not taken: a download of a name
that ends in a slash finds no link under that name, and a link is not made below another one. -/
def Sync.admits (storage : Path) (s : Sync) (event : SyncEvent) : Bool :=
  match s.stage, event with
  | .transferring t _, .task i (.answered _ _) =>
    t.inFlight[i]?.all fun d => decide (s.scene.disk.Admits (Path.below storage d.2))
  | .linking _ (l :: _), .item _ =>
    decide (s.scene.disk.AdmitsLink (Path.below storage l.1))
  | _, _ => true

theorem Transfers.step_joined {f : Fetcher} {t t' : Transfers} {i : ℕ} {r : TaskEnd}
    (h : t.step f (.joined i r) = some t') : i < t.inFlight.length ∧
      ∃ new, t'.inFlight = t.inFlight.eraseIdx i ++ new ∧ t.remaining = new ++ t'.remaining := by
  unfold Transfers.step at h
  split at h
  · cases h
  obtain ⟨d, hd, rfl⟩ := Option.map_eq_some_iff.mp h
  refine ⟨(List.getElem?_eq_some_iff.mp hd).1, ?_⟩
  obtain ⟨hrem, hfly, -⟩ := settle_cases f d.2 { t with inFlight := t.inFlight.eraseIdx i } i r
  unfold Transfers.refill
  split
  · exact ⟨[], by rw [hfly, List.append_nil], by rw [hrem]; rfl⟩
  · split
    · exact ⟨[], by rw [hfly, List.append_nil], by rw [hrem]; rfl⟩
    · rename_i d' rest hrest
      refine ⟨[d'], congrArg (· ++ [d']) hfly, ?_⟩
      rw [hrem] at hrest
      exact hrest

theorem Transfers.step_idle {f : Fetcher} {t t' : Transfers} {event : TransferEvent}
    (hevent : event = .progress ∨ event = .cancelled) (h : t.step f event = some t') :
    t'.inFlight = t.inFlight ∧ t'.remaining = t.remaining := by
  unfold Transfers.step at h
  split at h
  · cases h
  · rcases hevent with rfl | rfl
    · cases h
      exact ⟨rfl, rfl⟩
    · simp only at h
      split at h
      · cases h
      · cases h
        exact ⟨rfl, rfl⟩

section
variable {storage : Path} {f : Fetcher} {plan : Plan} {root : Place OsName}

theorem Sync.Inside.idle {s : Scene} {t t' : Transfers} {tasks : List Task}
    {event : TransferEvent} (hs : Sync.Inside storage plan root ⟨s, .transferring t tasks⟩)
    (hevent : event = .progress ∨ event = .cancelled) (h : t.step f event = some t') :
    Sync.Inside storage plan root (.transferred s tasks t') := by
  obtain ⟨hfly, hrem⟩ := Transfers.step_idle hevent h
  have htasks : tasks ++ List.replicate (t'.inFlight.length - tasks.length) .new = tasks := by
    rw [hfly, hs.2.2.2.1, Nat.sub_self]
    exact List.append_nil tasks
  rw [Sync.transferred, htasks]
  simp only [Sync.Inside, hfly, hrem]
  exact hs

/-- A task has left the loop, and the next ones have come in. -/
theorem Sync.Inside.left {s : Scene} {t t' : Transfers} {tasks : List Task} {i : ℕ} {r : TaskEnd}
    (hs : Sync.Inside storage plan root ⟨s, .transferring t tasks⟩)
    (h : t.step f (.joined i r) = some t') :
    Sync.Inside storage plan root (.transferred s (tasks.eraseIdx i) t') := by
  obtain ⟨hcalm, hroot, hdirs, hlen, hmem, hsafe⟩ := hs
  obtain ⟨hi, new, hfly, hrem⟩ := Transfers.step_joined h
  have hcount : t'.inFlight.length - (tasks.eraseIdx i).length = new.length := by
    rw [hfly, List.length_append, List.length_eraseIdx, List.length_eraseIdx, hlen]
    omega
  refine ⟨hcalm, hroot, hdirs, ?_, ?_, ?_⟩
  · rw [hcount, hfly, List.length_append, List.length_append, List.length_replicate,
      List.length_eraseIdx, List.length_eraseIdx, hlen]
  · intro d hd
    apply hmem
    rw [hfly, List.append_assoc, ← hrem] at hd
    rcases List.mem_append.mp hd with hd | hd
    · exact List.mem_append_left _ (List.mem_of_mem_eraseIdx hd)
    · exact List.mem_append_right _ hd
  · intro j task d htask hd
    rcases Nat.lt_or_ge j (tasks.eraseIdx i).length with hlt | hge
    · have hlt' : j < (t.inFlight.eraseIdx i).length := by
        rwa [List.length_eraseIdx, ← hlen, ← List.length_eraseIdx]
      rw [List.getElem?_append_left hlt, List.getElem?_eraseIdx] at htask
      rw [hfly, List.getElem?_append_left hlt', List.getElem?_eraseIdx] at hd
      split at htask
      · rename_i hji
        rw [if_pos hji] at hd
        exact hsafe j task d htask hd
      · rename_i hji
        rw [if_neg hji] at hd
        exact hsafe (j + 1) task d htask hd
    · -- a new task
      rw [List.getElem?_append_right hge] at htask
      rw [List.eq_of_mem_replicate (List.mem_of_getElem? htask)]
      trivial

theorem Sync.Inside.task {s s' : Scene} {t : Transfers} {tasks : List Task} {i : ℕ}
    {task' : Task} {d : Text × Path}
    (hs : Sync.Inside storage plan root ⟨s, .transferring t tasks⟩) (hd : t.inFlight[i]? = some d)
    (hquiet : Quiet (holdsDeletes storage plan root) s s')
    (hsafe' : task'.Safe (holdsDeletes storage plan root) s'.disk (Path.below storage d.2)) :
    Sync.Inside storage plan root ⟨s', .transferring t (tasks.set i task')⟩ := by
  obtain ⟨-, hroot, hdirs, hlen, hmem, hsafe⟩ := hs
  refine ⟨hquiet.calm, hquiet.steady.root.trans hroot, hquiet.steady.dirs hdirs, ?_, hmem, ?_⟩
  · rw [List.length_set]
    exact hlen
  · intro j task₂ d₂ htask hd₂
    rw [List.getElem?_set] at htask
    split at htask
    · rename_i hij
      subst hij
      split at htask
      · cases htask
        rw [hd] at hd₂
        cases hd₂
        exact hsafe'
      · cases htask
    · exact (hsafe j task₂ d₂ htask hd₂).steady hquiet.steady

theorem Sync.Inside.after {s : Scene} {r : Traced FetchStats FsOp × Option FetchError}
    {rest : Traced FetchStats FsOp → Stages}
    (h : ∀ x, Sync.Inside storage plan root ⟨s, rest x⟩) :
    Sync.Inside storage plan root (.after s r rest) := by
  obtain ⟨x, e⟩ := r
  cases e with
  | none => exact h x
  | some e => exact ⟨(h x).1, trivial⟩

/-- The way to a planned delete. -/
theorem through_of_holdsDeletes {d : Disk} {p : Path} (hroot : d.root = root)
    (h : d.Standing (holdsDeletes storage plan root)) (hp : p ∈ plan.deletes) :
    d.through (Path.below storage p) = false := by
  refine Disk.through_eq_false.mpr fun q hq => ?_
  rw [hroot, h _ ⟨p, hp, q, hq, rfl⟩]
  rfl

theorem Sync.Inside.step {s s' : Sync} {event : SyncEvent} (hplan : PlanFits storage plan)
    (hs : s.Inside storage plan root) (hadmits : s.admits storage event)
    (h : s.step storage f plan event = some s') : s'.Inside storage plan root := by
  obtain ⟨scene, stage⟩ := s
  unfold Sync.step at h
  split at h
  · rename_i t tasks hstage
    cases hstage
    obtain ⟨t', ht, rfl⟩ := Option.map_eq_some_iff.mp h
    exact hs.idle (Or.inl rfl) ht
  · rename_i t tasks hstage
    cases hstage
    obtain ⟨t', ht, rfl⟩ := Option.map_eq_some_iff.mp h
    exact hs.idle (Or.inr rfl) ht
  · rename_i t tasks i hstage
    cases hstage
    obtain ⟨t', ht, rfl⟩ := Option.map_eq_some_iff.mp h
    exact hs.left ht
  · rename_i t tasks i hstage
    cases hstage
    simp only [Option.bind_eq_bind, Option.bind_eq_some_iff] at h
    obtain ⟨task, -, h⟩ := h
    split at h
    · obtain ⟨t', ht, rfl⟩ := Option.map_eq_some_iff.mp h
      exact hs.left ht
    · cases h
  · rename_i t tasks i event hstage
    cases hstage
    simp only [Option.bind_eq_bind, Option.bind_eq_some_iff] at h
    obtain ⟨task, htask, d, hd, ⟨scene', task'⟩, hstep, h⟩ := h
    cases h
    have hdown : d ∈ plan.downloads :=
      hs.2.2.2.2.1 d (List.mem_append_left _ (List.mem_of_getElem? hd))
    obtain ⟨hquiet, hsafe⟩ := Task.step_quiet (hplan.downloads d hdown) hs.1 hs.2.2.1
      (hs.2.2.2.2.2 i task d htask hd) (fun cancelled response hevent => by
        subst hevent
        simpa [Sync.admits, hd] using hadmits) hstep
    exact hs.task hd hquiet hsafe
  · rename_i t tasks hstage
    cases hstage
    split at h
    · cases h
    split at h
    · cases h
      exact ⟨hs.1, trivial⟩
    · cases h
      refine ⟨hs.1, hs.2.1, hs.2.2.1, ?_⟩
      split
      · exact List.Subset.refl _
      · exact List.nil_subset _
  · rename_i x m rest e hstage
    cases hstage
    cases h
    obtain ⟨hcalm, hroot, hdirs, hrest⟩ := hs
    obtain ⟨hup, hend⟩ := hplan.manifests m (hrest List.mem_cons_self)
    have hkept := preserves_publish (K := holdsDeletes storage plan root) (e := e) hup hend hcalm
    exact Sync.Inside.after fun x => ⟨hkept.calm, hkept.root.trans hroot, hkept.dirs hdirs,
      fun m' hm => hrest (List.mem_cons_of_mem m hm)⟩
  · rename_i x hstage
    cases hstage
    cases h
    refine ⟨hs.1, Or.inr ⟨hs.2.1, hs.2.2.1⟩, ?_, ?_⟩
    · split
      · exact List.Subset.refl _
      · exact List.nil_subset _
    · split
      · exact List.Subset.refl _
      · exact List.nil_subset _
  · rename_i x p files dirs e hstage
    cases hstage
    cases h
    obtain ⟨hcalm, hstand, hfiles, hdirs⟩ := hs
    obtain ⟨hroot, hstand⟩ := hstand.resolve_left (by simp)
    have hclear := through_of_holdsDeletes hroot hstand (hfiles List.mem_cons_self)
    have hkept := preserves_deleteFile (K := holdsDeletes storage plan root) (e := e) hcalm hclear
    exact Sync.Inside.after fun x => ⟨hkept.calm,
      Or.inr ⟨hkept.root.trans hroot, hkept.dirs hstand⟩,
      fun p' hp => hfiles (List.mem_cons_of_mem p hp), hdirs⟩
  · rename_i x p dirs e hstage
    cases hstage
    cases h
    obtain ⟨hcalm, -, -, hdirs⟩ := hs
    exact Sync.Inside.after fun x =>
      ⟨calm_deleteDir (hplan.deleteDirs p (hdirs List.mem_cons_self)) hcalm, Or.inl rfl,
        List.nil_subset _, fun p' hp => hdirs (List.mem_cons_of_mem p hp)⟩
  · rename_i x hstage
    cases hstage
    cases h
    exact ⟨hs.1, trivial⟩
  · rename_i x l rest e hstage
    cases hstage
    cases h
    have hadm : scene.disk.AdmitsLink (Path.below storage l.1) := by
      simpa [Sync.admits] using hadmits
    exact Sync.Inside.after fun x => ⟨calm_link hs.1 hadm, trivial⟩
  · rename_i x hstage
    cases hstage
    cases h
    exact ⟨hs.1, trivial⟩
  · cases h

theorem inside_start {disk : Disk} (cancelledAtStart : Bool)
    (h : disk.Standing (holdsDeletes storage plan disk.root)) :
    (Sync.start f plan disk cancelledAtStart).Inside storage plan disk.root := by
  refine ⟨by simp [Sync.start, Scene.Calm], ?_⟩
  cases cancelledAtStart with
  | true => trivial
  | false =>
    refine ⟨rfl, h, by rw [List.length_map], ?_, ?_⟩
    · intro d hd
      rwa [Transfers.start, List.take_append_drop] at hd
    · intro i task d htask _
      rw [List.getElem?_map, Option.map_eq_some_iff] at htask
      obtain ⟨_, -, rfl⟩ := htask
      trivial

end

/-- In every run of `execute` whose steps keep clear of the two ways through a link, nothing is
created, renamed or removed at a path whose parents below the storage directory go through one:
whatever the listings were, whatever stands in the storage directory, and however the downloads
interleave. -/
theorem writes_stay_inside (env : Env) (baseUrl : Text) (depth : ℕ) (events : List Event)
    (c : Crawl) (plan : Plan) (f : Fetcher) (disk : Disk) (cancelledAtStart : Bool)
    (run : List SyncEvent) (s : Sync)
    (hplan : planInner env baseUrl depth events = some (.ok (c, plan)))
    (hroot : env.root.Shows disk.tree disk.root)
    (hadmits : Runs.Along (Sync.step env.storage f plan) (fun s e => s.admits env.storage e = true)
      (.start f plan disk cancelledAtStart) run)
    (hrun : Runs.exec (Sync.step env.storage f plan) (.start f plan disk cancelledAtStart) run =
      some s) :
    ∀ e ∈ s.scene.effects, e.through = false :=
  (Runs.exec_invariant_along _ _ (Sync.Inside env.storage plan disk.root)
    (fun _ _ _ hadm hs hstep => Sync.Inside.step (planFits hplan) hs hadm hstep)
    (inside_start cancelledAtStart (standing_deletes hplan hroot)) hadmits hrun).1

def oneThread : Fetcher := ⟨1, false, by decide⟩

def noFaults : Faults := ⟨false, 100, none, none, none, none⟩

/-- The storage directory `/srv` with one entry, beside `/out`. -/
def srvDisk (name : Text) (i : Inode OsName) : Disk where
  tree := (((Tree.bare OsName).make .dir [] (.text "out".toList)).bind fun t =>
    (t.make .dir [] (.text "srv".toList)).bind fun t =>
      t.make i [.text "srv".toList] (.text name)).getD (Tree.bare OsName)
  root := [.text "srv".toList]
  linkedAbove := false
  linkedRoot := false
  locked := fun _ => false

/-- A page with a file and a link. -/
def mixedPage : Bytes := encode "<a href=\"a/f\">f</a><a href=\"l\">l@</a>".toList

def mixedPlan : Plan :=
  { Plan.default with
    downloads := [("http://m/a/f".toList, Path.ofText "/srv/a/f".toList)]
    deletes := [Path.ofText "/srv/old".toList]
    symlinks := [(Path.ofText "/srv/l".toList, "l".toList)]
    sizeUnknown := true }

/-- The file arrives, what is stale goes, the link is made. -/
def mixedRun : List SyncEvent :=
  [.task 0 (.answered false (.status 200)), .task 0 (.createDir false []),
    .task 0 (.createDir false []), .task 0 .cleared, .task 0 (.opened false []),
    .task 0 (.received [.received 7 none] false), .task 0 (.renamed false []), .joined 0,
    .next, .next, .item noFaults, .next, .item noFaults, .next]

theorem writes_stay_inside_mixed :
    ∃ c s, planInner (mirrorEnv .nginx (oneFile "old".toList rfl)) "http://m/".toList 3
        [.joined 0 (.fetched mixedPage)] = some (.ok (c, mixedPlan)) ∧
      Runs.exec (Sync.step (Path.ofText "/srv".toList) oneThread mixedPlan)
        (.start oneThread mixedPlan (srvDisk "old".toList .file) false) mixedRun = some s ∧
      s.scene.effects.map Effect.call =
        [.createDir, .createFile, .rename, .rename, .removeFile, .symlink] ∧
      ∀ e ∈ s.scene.effects, e.through = false := by
  have hplan : (planned (mirrorEnv .nginx (oneFile "old".toList rfl)) "http://m/".toList 3
      [.joined 0 (.fetched mixedPage)]).map Prod.snd = some mixedPlan := by decide +kernel
  have hcalls : (Runs.exec (Sync.step (Path.ofText "/srv".toList) oneThread mixedPlan)
      (.start oneThread mixedPlan (srvDisk "old".toList .file) false) mixedRun).map
        (fun s => s.scene.effects.map Effect.call) =
      some [.createDir, .createFile, .rename, .rename, .removeFile, .symlink] := by decide +kernel
  have hadmits : Runs.Along (Sync.step (Path.ofText "/srv".toList) oneThread mixedPlan)
      (fun s e => s.admits (Path.ofText "/srv".toList) e = true)
      (.start oneThread mixedPlan (srvDisk "old".toList .file) false) mixedRun := by decide +kernel
  obtain ⟨⟨c, plan⟩, hp, rfl⟩ := Option.map_eq_some_iff.mp hplan
  obtain ⟨s, hrun, hs⟩ := Option.map_eq_some_iff.mp hcalls
  have h := planInner_of_planned hp
  have hshows : Node.Shows (srvDisk "old".toList .file).tree [.text "srv".toList]
      (.dir true (oneFile "old".toList rfl)) :=
    ⟨by decide +kernel, by rw [Node.Shows]; decide +kernel, trivial⟩
  exact ⟨c, s, h, hrun, hs, writes_stay_inside (mirrorEnv .nginx (oneFile "old".toList rfl)) _ _ _
    c _ oneThread _ false mixedRun s h hshows hadmits hrun⟩

/-- A page that lists a link below `d`. -/
def linkPage : Bytes := encode "<a href=\"d/l\">l@</a>".toList

def linkPlan : Plan :=
  { Plan.default with
    symlinks := [(Path.ofText "/srv/d/l".toList, "d/l".toList)]
    totalSizeHint := some 0 }

def linkEnv : Env :=
  { mirrorEnv .nginx (.cons ⟨.text "d".toList, rfl⟩ .symlink .nil) with delete := false }

/-- The storage directory holds `d` as a link to `/out`: the listed link is made in `/out`. -/
theorem link_made_through_link :
    (∃ c, planInner linkEnv "http://m/".toList 3 [.joined 0 (.fetched linkPage)] =
      some (.ok (c, linkPlan))) ∧
    linkEnv.root.Shows (srvDisk "d".toList (.symlink (linkTo "/out".toList))).tree
      [.text "srv".toList] ∧
    ∃ s, Runs.exec (Sync.step linkEnv.storage oneThread linkPlan) (.start oneThread linkPlan
        (srvDisk "d".toList (.symlink (linkTo "/out".toList))) false)
        [.next, .next, .next, .item noFaults] = some s ∧
      s.scene.effects = [⟨.symlink, Path.ofText "d/l".toList, true⟩] ∧
      isLink (s.scene.disk.tree.node [.text "out".toList, .text "l".toList]) = true := by
  have hplan : (planned linkEnv "http://m/".toList 3 [.joined 0 (.fetched linkPage)]).map Prod.snd =
      some linkPlan := by decide +kernel
  have hrun : (Runs.exec (Sync.step linkEnv.storage oneThread linkPlan) (.start oneThread linkPlan
      (srvDisk "d".toList (.symlink (linkTo "/out".toList))) false)
      [.next, .next, .next, .item noFaults]).map (fun s => (s.scene.effects,
        isLink (s.scene.disk.tree.node [.text "out".toList, .text "l".toList]))) =
      some ([⟨.symlink, Path.ofText "d/l".toList, true⟩], true) := by decide +kernel
  obtain ⟨⟨c, plan⟩, hp, rfl⟩ := Option.map_eq_some_iff.mp hplan
  obtain ⟨s, hs, heffects⟩ := Option.map_eq_some_iff.mp hrun
  refine ⟨⟨c, planInner_of_planned hp⟩, ⟨by decide +kernel, ?_, trivial⟩, s, hs,
    (Prod.ext_iff.mp heffects).1, (Prod.ext_iff.mp heffects).2⟩
  rw [Node.Shows]
  decide +kernel

end Synora.Mirror
