import Synora.Mirror.Disk
import Synora.Mirror.Gate

namespace Synora.Mirror
open Strings Utf8 Effects FileTree

/-! # No write goes through a link -/

/-! ## Parents -/

theorem Path.mem_parents {rel : Path} {q : Path} :
    q ∈ rel.parents ↔ q ≠ [] ∧ q <+: rel.normal ∧ q ≠ rel.normal := by
  simp only [Path.parents, List.mem_map]
  constructor
  · rintro ⟨k, hk, rfl⟩
    have hlt : k < rel.normal.length := List.mem_range.mp (List.mem_of_mem_tail hk)
    have hpos : 0 < k := by
      cases hlen : rel.normal.length with
      | zero => omega
      | succ n =>
        rw [hlen, List.range_succ_eq_map, List.tail_cons] at hk
        obtain ⟨j, -, rfl⟩ := List.mem_map.mp hk
        exact Nat.succ_pos j
    refine ⟨fun h => ?_, List.take_prefix _ _, fun h => ?_⟩
    · have := congrArg List.length h
      rw [List.length_take, List.length_nil] at this
      omega
    · have := congrArg List.length h
      rw [List.length_take] at this
      omega
  · rintro ⟨hne, hpre, hproper⟩
    have hlt : q.length < rel.normal.length := by
      rcases Nat.lt_or_ge q.length rel.normal.length with hlt | hge
      · exact hlt
      · exact absurd (hpre.eq_of_length_le hge) hproper
    refine ⟨q.length, ?_, (List.prefix_iff_eq_take.mp hpre).symm⟩
    obtain ⟨n, hn⟩ : ∃ n, rel.normal.length = n + 1 := ⟨rel.normal.length - 1, by omega⟩
    have hpos := List.length_pos_of_ne_nil hne
    rw [hn, List.range_succ_eq_map, List.tail_cons, List.mem_map]
    exact ⟨q.length - 1, List.mem_range.mpr (by omega), by omega⟩

theorem Path.normal_eq_self {rel : Path} {q : Path} (h : q <+: rel.normal) : q.normal = q := by
  refine List.filter_eq_self.mpr fun n hn => ?_
  exact (List.mem_filter.mp (h.subset hn)).2

theorem Path.parents_of_parent {rel q r : Path} (hq : q ∈ rel.parents) (hr : r ∈ q.parents) :
    r ∈ rel.parents := by
  obtain ⟨-, hpre, hproper⟩ := mem_parents.mp hq
  obtain ⟨hne, hpre', hproper'⟩ := mem_parents.mp hr
  rw [normal_eq_self hpre] at hpre' hproper'
  refine mem_parents.mpr ⟨hne, hpre'.trans hpre, fun heq => ?_⟩
  subst heq
  exact hproper' (hpre'.eq_of_length_le hpre.length_le)

theorem OsName.seg_of_normal {n : OsName} (h : n.isNormal) (hup : n ≠ .text "..".toList) :
    n.seg = .name n := by
  simp only [OsName.isNormal, Bool.not_eq_true', decide_eq_false_iff_not] at h
  rw [OsName.seg, if_neg h, if_neg hup]

theorem OsName.seg_of_not_normal {n : OsName} (h : ¬n.isNormal) : n.seg = .here := by
  simp only [OsName.isNormal, Bool.not_eq_true', decide_eq_false_iff_not, not_not] at h
  rw [OsName.seg, if_pos h]

/-- A path without `..` is the walk through its names. -/
theorem Path.names_segs {rel : Path} (h : .text "..".toList ∉ rel) :
    Tree.names rel.segs = rel.normal ∧ .up ∉ rel.segs := by
  induction rel with
  | nil => simp [Path.segs, Path.normal, Tree.names]
  | cons n rel ih =>
    rw [List.mem_cons, not_or] at h
    obtain ⟨hnames, hup⟩ := ih h.2
    have hsegs : Path.segs (n :: rel) = n.seg :: Path.segs rel := rfl
    rw [hsegs]
    by_cases hn : n.isNormal
    · rw [OsName.seg_of_normal hn (Ne.symm h.1)]
      refine ⟨?_, by simpa using hup⟩
      have hnormal : Path.normal (n :: rel) = n :: Path.normal rel := List.filter_cons_of_pos hn
      rw [hnormal, ← hnames]
      rfl
    · rw [OsName.seg_of_not_normal hn]
      refine ⟨?_, by simpa using hup⟩
      have hnormal : Path.normal (n :: rel) = Path.normal rel := List.filter_cons_of_neg hn
      rw [hnormal, ← hnames]
      rfl

theorem Path.segs_concat {pre : Path} {n : OsName} (hn : n.seg = .name n) :
    Path.segs (pre ++ [n]) = pre.segs ++ [.name n] := by
  rw [Path.segs, List.map_append, List.map_singleton, hn]
  rfl

/-! ## Paths without links -/

theorem Disk.through_eq_false {d : Disk} {rel : Path} :
    d.through rel = false ↔ ∀ q ∈ rel.parents, isLink (d.tree.node (d.root ++ q)) = false := by
  simp [Disk.through]

/-- Where the way to a place is clear, so is its resolution. -/
theorem Disk.dirAt_of_clear {d : Disk} {pre : Path} (hup : .text "..".toList ∉ pre)
    (h : ∀ q, q ≠ [] → q <+: pre.normal → isLink (d.tree.node (d.root ++ q)) = false) :
    d.tree.dirAt Tree.maxLinks d.root pre.segs =
      if d.tree.node (d.root ++ pre.normal) = some .dir then some (d.root ++ pre.normal)
      else none := by
  obtain ⟨hnames, hsegs⟩ := Path.names_segs hup
  rw [d.tree.dirAt_of_clear Tree.maxLinks hsegs (by rwa [hnames]), hnames]

theorem Path.normal_concat {pre : Path} {n : OsName} (hn : n.isNormal) :
    Path.normal (pre ++ [n]) = pre.normal ++ [n] := by
  rw [Path.normal_append]
  exact congrArg (pre.normal ++ ·) (List.filter_cons_of_pos hn)

theorem Path.prefix_of_parent {pre : Path} {n : OsName} (hn : n.isNormal) {q : Path} :
    q ∈ Path.parents (pre ++ [n]) ↔ q ≠ [] ∧ q <+: pre.normal := by
  rw [mem_parents, normal_concat hn, List.prefix_concat_iff]
  constructor
  · rintro ⟨hne, rfl | hpre, hproper⟩
    · exact absurd rfl hproper
    · exact ⟨hne, hpre⟩
  · rintro ⟨hne, hpre⟩
    refine ⟨hne, Or.inr hpre, fun heq => ?_⟩
    have hlen := hpre.length_le
    rw [heq, List.length_append, List.length_singleton] at hlen
    omega

/-- A path that is clear and ends in a name is found where it says. -/
theorem Disk.locate_of_clear {d : Disk} {pre : Path} {n : OsName} (hn : n.isNormal)
    (hup : .text "..".toList ∉ pre ++ [n]) (h : d.through (pre ++ [n]) = false) :
    d.tree.locate d.root (Path.segs (pre ++ [n])) =
      if d.tree.node (d.root ++ pre.normal) = some .dir then some (d.root ++ pre.normal, n)
      else none := by
  rw [List.mem_append, not_or, List.mem_singleton] at hup
  have hclear : ∀ q, q ≠ [] → q <+: pre.normal → isLink (d.tree.node (d.root ++ q)) = false :=
    fun q hne hpre => Disk.through_eq_false.mp h q ((Path.prefix_of_parent hn).mpr ⟨hne, hpre⟩)
  rw [Tree.locate, Path.segs_concat (OsName.seg_of_normal hn (Ne.symm hup.2)),
    List.getLast?_concat, List.dropLast_concat]
  simp only
  rw [Disk.dirAt_of_clear hup.1 hclear]
  split <;> rfl

/-- The check of the code sees the first link on the way. -/
theorem Disk.clear_of_hasSymlinkAncestor {d : Disk} {rel : Path} (hup : .text "..".toList ∉ rel)
    (h : d.hasSymlinkAncestor rel = false) : d.through rel = false := by
  simp only [Disk.hasSymlinkAncestor, Bool.or_eq_false_iff, List.any_eq_false] at h
  refine Disk.through_eq_false.mpr fun q hq => ?_
  by_contra hlink
  rw [Bool.not_eq_false] at hlink
  refine h.2 q hq ?_
  obtain ⟨hne, hpre, -⟩ := Path.mem_parents.mp hq
  obtain ⟨pre, n, rfl⟩ : ∃ pre n, q = pre ++ [n] :=
    ⟨q.dropLast, q.getLast hne, (List.dropLast_append_getLast hne).symm⟩
  have hnames : ∀ m ∈ pre ++ [n], m.isNormal ∧ m ≠ .text "..".toList := by
    intro m hm
    have hmem := List.mem_filter.mp (hpre.subset hm)
    exact ⟨hmem.2, fun heq => hup (heq ▸ hmem.1)⟩
  have hn := hnames n (by simp)
  have hpre' : Path.normal pre = pre := Path.normal_eq_self ((List.prefix_append _ _).trans hpre)
  have hup' : .text "..".toList ∉ pre := fun hm => (hnames _ (List.mem_append_left _ hm)).2 rfl
  -- what is above the link are directories
  have htaken : d.tree.node (d.root ++ (pre ++ [n])) ≠ none := by
    intro hnone
    rw [hnone] at hlink
    cases hlink
  have hdir : d.tree.node (d.root ++ pre) = some .dir := by
    rw [← List.append_assoc] at htaken
    exact d.tree.parent htaken
  have hclear : ∀ q, q ≠ [] → q <+: Path.normal pre →
      isLink (d.tree.node (d.root ++ q)) = false := by
    rintro q - ⟨r, hr⟩
    rw [hpre'] at hr
    have habove : d.tree.node (d.root ++ q) = some .dir := by
      refine d.tree.dir_of_below (q := r ++ [n]) ?_ (by simp)
      rw [← hr] at htaken
      simpa using htaken
    rw [habove]
    rfl
  rw [Disk.symlinkMetadata, Tree.lstat, Path.segs_concat (OsName.seg_of_normal hn.1 hn.2),
    List.getLast?_concat, List.dropLast_concat]
  simp only
  rw [Disk.dirAt_of_clear hup' hclear, hpre', if_pos hdir, Option.bind_some, List.append_assoc]
  exact hlink

/-! ## Calls that make no link -/

/-- The places in `K` are directories. -/
def Disk.Standing (K : Place OsName → Prop) (d : Disk) : Prop :=
  ∀ x, K x → d.tree.node x = some .dir

/-- A change that makes no link and keeps the directories of `K`. -/
structure Steady (K : Place OsName → Prop) (d d' : Disk) : Prop where
  root : d'.root = d.root
  locked : d'.locked = d.locked
  links : d.tree.NoNewLinks d'.tree
  dirs : d.Standing K → d'.Standing K

variable {K : Place OsName → Prop} {d d' d'' : Disk}

theorem Steady.refl (d : Disk) : Steady K d d := ⟨rfl, rfl, fun _ h => h, id⟩

theorem Steady.trans (h : Steady K d d') (h' : Steady K d' d'') : Steady K d d'' where
  root := h'.root.trans h.root
  locked := h'.locked.trans h.locked
  links x hx := h.links x (h'.links x hx)
  dirs hd := h'.dirs (h.dirs hd)

theorem Steady.isLink (h : Steady K d d') {x : Place OsName}
    (hx : isLink (d.tree.node x) = false) : isLink (d'.tree.node x) = false := by
  rw [Bool.eq_false_iff] at hx ⊢
  exact fun hlink => hx (h.links x hlink)

theorem Steady.through (h : Steady K d d') {rel : Path} (hr : d.through rel = false) :
    d'.through rel = false := by
  rw [Disk.through_eq_false] at hr ⊢
  intro q hq
  rw [h.root]
  exact h.isLink (hr q hq)

theorem steady_make {i : Inode OsName} {rel : Path} (hi : isLink (some i) = false)
    (h : d.make i rel = some d') : Steady K d d' := by
  simp only [Disk.make, Option.bind_eq_bind, Option.bind_eq_some_iff] at h
  obtain ⟨⟨dir, name⟩, -, tree, htree, h⟩ := h
  cases h
  exact ⟨rfl, rfl, Tree.noNewLinks_make hi htree, fun hd x hx => Tree.make_keeps htree (hd x hx)⟩

theorem steady_createFile {rel : Path} (h : d.createFile rel = some d') : Steady K d d' := by
  simp only [Disk.createFile, Option.bind_eq_bind, Option.bind_eq_some_iff] at h
  obtain ⟨⟨dir, name⟩, -, h⟩ := h
  simp only at h
  split at h
  · cases h
  · cases h
    exact .refl d
  · split at h
    · cases h
    · obtain ⟨tree, htree, h⟩ := Option.bind_eq_some_iff.mp h
      cases h
      exact ⟨rfl, rfl, Tree.noNewLinks_make rfl htree,
        fun hd x hx => Tree.make_keeps htree (hd x hx)⟩

theorem steady_removeFile {rel : Path} (h : d.removeFile rel = some d') : Steady K d d' := by
  simp only [Disk.removeFile, Option.bind_eq_bind, Option.bind_eq_some_iff] at h
  obtain ⟨⟨dir, name⟩, -, tree, htree, h⟩ := h
  cases h
  exact ⟨rfl, rfl, Tree.noNewLinks_unlink htree,
    fun hd x hx => Tree.unlink_keeps_dir htree (hd x hx)⟩

/-- What a rename does, when its source is found where it says. -/
theorem rename_cases {pre dest : Path} {n : OsName} (hn : n.isNormal)
    (hup : .text "..".toList ∉ pre ++ [n]) (hclear : d.through (pre ++ [n]) = false)
    (h : d.rename (pre ++ [n]) dest = some d') :
    d.locked (d.root ++ pre.normal) = false ∧ d'.root = d.root ∧ d'.locked = d.locked ∧
      ∃ dir name, d.tree.rename (d.root ++ pre.normal ++ [n]) dir name = some d'.tree := by
  simp only [Disk.rename, Option.bind_eq_bind, Option.bind_eq_some_iff] at h
  obtain ⟨⟨dir, name⟩, hsrc, ⟨dir', name'⟩, -, tree, htree, h⟩ := h
  cases h
  rw [Disk.locate, Disk.locate_of_clear hn hup hclear, Option.filter_eq_some_iff] at hsrc
  obtain ⟨hsome, hfree⟩ := hsrc
  split at hsome
  · cases hsome
    exact ⟨by simpa using hfree, rfl, rfl, dir', name', htree⟩
  · cases hsome

/-- After the removal of a path, no link is there, or nothing there can be changed. -/
theorem removed_not_link {pre : Path} {n : OsName} (hn : n.isNormal)
    (hup : .text "..".toList ∉ pre ++ [n]) (hclear : d.through (pre ++ [n]) = false) :
    d.locked (d.root ++ pre.normal) = true ∨
      isLink (((d.removeFile (pre ++ [n])).getD d).tree.node (d.root ++ pre.normal ++ [n])) =
        false := by
  rcases hlock : d.locked (d.root ++ pre.normal) with - | -
  · right
    have hlocate := Disk.locate_of_clear hn hup hclear
    by_cases hdir : d.tree.node (d.root ++ pre.normal) = some .dir
    · rw [if_pos hdir] at hlocate
      rw [Disk.removeFile, Disk.locate, hlocate]
      simp only [Option.filter_some, hlock, Bool.not_false, ↓reduceIte, Option.bind_eq_bind,
        Option.bind_some]
      cases htree : d.tree.unlink (d.root ++ pre.normal ++ [n]) with
      | none =>
        -- nothing is there, or a directory
        simp only [Option.bind_none, Option.getD_none]
        by_contra hlink
        rw [Bool.not_eq_false] at hlink
        rw [Tree.unlink, dif_pos] at htree
        · cases htree
        · refine ⟨by simp, fun hnone => ?_, fun hdir => ?_⟩
          · rw [hnone] at hlink
            cases hlink
          · rw [hdir] at hlink
            cases hlink
      | some tree =>
        simp only [Option.bind_some, Option.pure_def, Option.getD_some]
        rw [Tree.node_unlink htree, if_pos (List.prefix_refl _)]
        rfl
    · have hnone : d.removeFile (pre ++ [n]) = none := by
        rw [Disk.removeFile, Disk.locate, hlocate, if_neg hdir]
        rfl
      rw [hnone, Option.getD_none]
      by_contra hlink
      rw [Bool.not_eq_false] at hlink
      refine hdir (d.tree.parent (n := n) fun hnode => ?_)
      rw [hnode] at hlink
      cases hlink
  · exact Or.inl rfl

theorem created_not_dir {pre : Path} {n : OsName} (hn : n.isNormal)
    (hup : .text "..".toList ∉ pre ++ [n]) (hclear : d.through (pre ++ [n]) = false)
    (h : d.createFile (pre ++ [n]) = some d') :
    d'.tree.node (d.root ++ pre.normal ++ [n]) ≠ some .dir := by
  simp only [Disk.createFile, Option.bind_eq_bind, Option.bind_eq_some_iff] at h
  obtain ⟨⟨dir, name⟩, hopen, h⟩ := h
  rw [Tree.openAt, Disk.locate_of_clear hn hup hclear] at hopen
  split at hopen
  swap
  · cases hopen
  simp only [Option.bind_eq_bind, Option.bind_some] at hopen
  simp only at h
  split at hopen
  · -- a link stays as it is, whatever is made where it leads to
    rename_i l hlink
    have hkept : d'.tree.node (d.root ++ pre.normal ++ [n]) = some (.symlink l) := by
      split at h
      · cases h
      · cases h
        exact hlink
      · split at h
        · cases h
        · obtain ⟨tree, htree, h⟩ := Option.bind_eq_some_iff.mp h
          cases h
          exact Tree.make_keeps htree hlink
    rw [hkept]
    simp
  · cases hopen
    split at h
    · cases h
    · rename_i j hdir hnode
      cases h
      rw [hnode]
      simpa using hdir
    · split at h
      · cases h
      · obtain ⟨tree, htree, h⟩ := Option.bind_eq_some_iff.mp h
        cases h
        rw [Tree.node_make htree, if_pos rfl]
        simp

/-- No effect went through a link. -/
def Scene.Calm (s : Scene) : Prop := ∀ e ∈ s.effects, e.through = false

theorem calm_call {s : Scene} {c : Call} {paths : List Path} {f : Disk → Option Disk}
    (hs : s.Calm)
    (hpaths : ∀ p ∈ paths, s.disk.through p = false) :
    (s.call c paths f).1.Calm := by
  unfold Scene.call
  split
  · exact hs
  · simp only [Scene.Calm, List.forall_mem_append, List.forall_mem_map]
    exact ⟨hs, hpaths⟩

theorem steady_call {s : Scene} {c : Call} {paths : List Path} {f : Disk → Option Disk}
    (h : ∀ d', f s.disk = some d' → Steady K s.disk d') :
    Steady K s.disk (s.call c paths f).1.disk := by
  unfold Scene.call
  split
  · exact .refl _
  · rename_i d' hd
    exact h d' hd

/-- The scene after a call: no effect went through a link, and the change is steady. -/
structure Quiet (K : Place OsName → Prop) (s s' : Scene) : Prop where
  calm : s'.Calm
  steady : Steady K s.disk s'.disk

theorem Quiet.refl {s : Scene} (h : s.Calm) : Quiet K s s := ⟨h, .refl _⟩

theorem Quiet.trans {s s' s'' : Scene} (h : Quiet K s s') (h' : Quiet K s' s'') : Quiet K s s'' :=
  ⟨h'.calm, h.steady.trans h'.steady⟩

theorem quiet_call {s : Scene} {c : Call} {paths : List Path} {f : Disk → Option Disk}
    (hs : s.Calm) (hpaths : ∀ p ∈ paths, s.disk.through p = false)
    (h : ∀ d', f s.disk = some d' → Steady K s.disk d') : Quiet K s (s.call c paths f).1 :=
  ⟨calm_call hs hpaths, steady_call h⟩

theorem call_disk (s : Scene) (c : Call) (paths : List Path) (f : Disk → Option Disk) :
    (s.call c paths f).1.disk = (f s.disk).getD s.disk := by
  unfold Scene.call
  cases f s.disk with
  | none => rfl
  | some d => rfl

theorem quiet_removeFile {s : Scene} {rel : Path} (hs : s.Calm)
    (hrel : s.disk.through rel = false) :
    Quiet K s (s.call .removeFile [rel] fun d => d.removeFile rel).1 :=
  quiet_call hs (by simpa using hrel) fun _ hd => steady_removeFile hd

theorem tryCall_cases {s s' : Scene} {fails ok : Bool} {c : Call} {paths : List Path}
    {f : Disk → Option Disk} (h : s.tryCall fails c paths f = (s', ok)) :
    (ok = false ∧ s' = s) ∨ (ok = true ∧ s' = (s.call c paths f).1 ∧ f s.disk = some s'.disk) := by
  unfold Scene.tryCall at h
  split at h
  · cases h
    exact Or.inl ⟨rfl, rfl⟩
  · unfold Scene.call at h ⊢
    split at h
    · cases h
      exact Or.inl ⟨rfl, rfl⟩
    · rename_i d' hd
      cases h
      right
      rw [hd]
      exact ⟨rfl, rfl, rfl⟩

theorem quiet_tryCall {s s' : Scene} {fails ok : Bool} {c : Call} {paths : List Path}
    {f : Disk → Option Disk} (h : s.tryCall fails c paths f = (s', ok))
    (hs : s.Calm) (hpaths : ∀ p ∈ paths, s.disk.through p = false)
    (hf : ∀ d', f s.disk = some d' → Steady K s.disk d') : Quiet K s s' := by
  rcases tryCall_cases h with ⟨-, rfl⟩ | ⟨-, rfl, -⟩
  · exact .refl hs
  · exact quiet_call hs hpaths hf

theorem quiet_createDir {s : Scene} {rel : Path} (hs : s.Calm)
    (hrel : s.disk.through rel = false) : Quiet K s (s.createDir rel) :=
  quiet_call hs (by simpa using hrel) fun _ hd => steady_make rfl hd

theorem through_parent {rel q : Path} (h : d.through rel = false) (hq : q ∈ rel.parents) :
    d.through q = false := by
  rw [Disk.through_eq_false] at h ⊢
  exact fun r hr => h r (Path.parents_of_parent hq hr)

theorem quiet_createDirAll {s : Scene} {rel : Path} (made : ℕ)
    (hs : s.Calm) (hrel : s.disk.through rel = false) :
    Quiet K s (s.createDirAll rel made) := by
  have hall : ∀ qs : List Path, (∀ q ∈ qs, q ∈ rel.parents) → ∀ t : Scene, Quiet K s t →
      Quiet K s (qs.foldl Scene.createDir t) := by
    intro qs
    induction qs with
    | nil => exact fun _ t ht => ht
    | cons q qs ih =>
      intro hqs t ht
      refine ih (fun r hr => hqs r (List.mem_cons_of_mem q hr)) _ (ht.trans ?_)
      exact quiet_createDir ht.calm
        (through_parent (ht.steady.through hrel) (hqs q List.mem_cons_self))
  exact hall _ (fun q hq => List.mem_of_mem_take hq) s (.refl hs)

/-! ## Downloads -/

/-- The name of the file that a download is written to. -/
def partialName (rel : Path) : OsName :=
  .text (((rel.getLast?.map OsName.display).getD []) ++ ".partial".toList)

theorem isNormal_partialText (t : Text) (n : OsName) (h : n = .text (t ++ ".partial".toList)) :
    n.isNormal ∧ n ≠ .text "..".toList := by
  subst h
  have hlen : 8 ≤ (t ++ ".partial".toList).length := by
    rw [List.length_append]
    exact Nat.le_add_left 8 _
  have hne (u : Text) (hu : u.length < 8) : OsName.text (t ++ ".partial".toList) ≠ .text u := by
    intro heq
    rw [OsName.text.inj heq] at hlen
    omega
  refine ⟨?_, hne _ (by decide)⟩
  simp only [OsName.isNormal, Bool.not_eq_true', decide_eq_false_iff_not, not_or]
  exact ⟨hne _ (by decide), hne _ (by decide)⟩

theorem partialName_normal (rel : Path) : (partialName rel).isNormal :=
  (isNormal_partialText _ _ rfl).1

theorem partial_noDots {rel : Path} (h : .text "..".toList ∉ rel) :
    .text "..".toList ∉ rel.dropLast ++ [partialName rel] := by
  rw [List.mem_append, List.mem_singleton, not_or]
  exact ⟨fun hm => h (List.mem_of_mem_dropLast hm),
    Ne.symm (isNormal_partialText _ _ rfl).2⟩

/-- The path ends in a name, not in a slash or a dot. -/
def Path.endsInName (rel : Path) : Bool := rel.getLast?.any OsName.isNormal

/-- What stands beside a clear path is clear. -/
theorem through_beside {rel : Path} {n : OsName} (hn : n.isNormal) (h : d.through rel = false)
    (hlast : rel.endsInName ∨ isLink (d.tree.node (d.root ++ rel.normal)) = false) :
    d.through (rel.dropLast ++ [n]) = false := by
  rw [Disk.through_eq_false] at h ⊢
  intro q hq
  obtain ⟨hne, hpre⟩ := (Path.prefix_of_parent hn).mp hq
  rcases List.eq_nil_or_concat' rel with rfl | ⟨pre, last, rfl⟩
  · exact absurd (List.prefix_nil.mp hpre) hne
  · rw [List.dropLast_concat] at hpre
    by_cases hl : last.isNormal
    · exact h q ((Path.prefix_of_parent hl).mpr ⟨hne, hpre⟩)
    · have hnormal : Path.normal (pre ++ [last]) = Path.normal pre := by
        rw [Path.normal_append]
        exact (congrArg (Path.normal pre ++ ·) (List.filter_cons_of_neg hl)).trans
          (List.append_nil _)
      have hend : Path.endsInName (pre ++ [last]) = false := by
        simpa [Path.endsInName] using hl
      rw [hend, hnormal] at hlast
      by_cases heq : q = Path.normal pre
      · subst heq
        exact hlast.resolve_left (by simp)
      · exact h q (Path.mem_parents.mpr ⟨hne, hnormal ▸ hpre, hnormal ▸ heq⟩)

/-- Where the partial file of a download is, on a clear way. -/
def partialPlace (d : Disk) (rel : Path) : Place OsName :=
  d.root ++ Path.normal rel.dropLast ++ [partialName rel]

/-- Nothing at or below the partial file is a link, unless its directory is locked. -/
def Disk.PartialClear (d : Disk) (rel : Path) : Prop :=
  d.locked (d.root ++ Path.normal rel.dropLast) = true ∨
    ∀ x, partialPlace d rel <+: x → isLink (d.tree.node x) = false

/-- What a download relies on after it has looked for links. -/
def Task.Safe (K : Place OsName → Prop) (d : Disk) (rel : Path) (t : Task) : Prop :=
  match t.phase with
  | .requesting | .over => True
  | .makingDirs rest => d.through rel = false ∧ d.through (partialPath rel) = false ∧
      ∀ q ∈ rest, q ∈ rel.parents
  | .clearing | .discarding => d.through rel = false ∧ d.through (partialPath rel) = false
  | .opening => d.through rel = false ∧ d.through (partialPath rel) = false ∧
      (d.locked (d.root ++ Path.normal rel.dropLast) = true ∨
        isLink (d.tree.node (partialPlace d rel)) = false)
  | .receiving | .renaming => d.through rel = false ∧ d.through (partialPath rel) = false ∧
      d.PartialClear rel ∧ ∀ x, K x → ¬partialPlace d rel <+: x

theorem Task.Safe.steady {rel : Path} {t : Task} (h : t.Safe K d rel) (hd : Steady K d d') :
    t.Safe K d' rel := by
  have hplace : partialPlace d' rel = partialPlace d rel := by rw [partialPlace, hd.root]; rfl
  unfold Task.Safe at h ⊢
  split
  · trivial
  · trivial
  · rename_i rest hphase
    rw [hphase] at h
    exact ⟨hd.through h.1, hd.through h.2.1, h.2.2⟩
  · rename_i hphase
    rw [hphase] at h
    exact ⟨hd.through h.1, hd.through h.2⟩
  · rename_i hphase
    rw [hphase] at h
    exact ⟨hd.through h.1, hd.through h.2⟩
  · rename_i hphase
    rw [hphase] at h
    rw [hplace, hd.locked, hd.root]
    exact ⟨hd.through h.1, hd.through h.2.1, h.2.2.imp_right hd.isLink⟩
  all_goals
    rename_i hphase
    rw [hphase] at h
    rw [Disk.PartialClear, hplace, hd.locked, hd.root]
    exact ⟨hd.through h.1, hd.through h.2.1,
      h.2.2.1.imp_right fun hclear x hx => hd.isLink (hclear x hx), h.2.2.2⟩

/-- A partial file that was just opened is no directory, and nothing is below it. -/
theorem opened_partialClear {rel : Path} (hup : .text "..".toList ∉ rel)
    (hclear : d.through (partialPath rel) = false)
    (hlink : d.locked (d.root ++ Path.normal rel.dropLast) = true ∨
      isLink (d.tree.node (partialPlace d rel)) = false)
    (h : d.createFile (partialPath rel) = some d') (hK : d'.Standing K) :
    d'.PartialClear rel ∧ ∀ x, K x → ¬partialPlace d' rel <+: x := by
  have hsteady : Steady K d d' := steady_createFile h
  have hplace : partialPlace d' rel = partialPlace d rel := by rw [partialPlace, hsteady.root]; rfl
  have hdir : d'.tree.node (partialPlace d rel) ≠ some .dir :=
    created_not_dir (partialName_normal rel) (partial_noDots hup) hclear h
  rw [Disk.PartialClear, hplace, hsteady.locked, hsteady.root]
  constructor
  · refine hlink.imp_right fun hlink x hx => ?_
    by_cases hnone : d'.tree.node x = none
    · rw [hnone]
      rfl
    · rw [d'.tree.eq_of_isBelow hdir hnone hx]
      exact hsteady.isLink hlink
  · intro x hx hpre
    have hxdir := hK x hx
    rw [d'.tree.eq_of_isBelow hdir (by rw [hxdir]; simp) hpre] at hxdir
    exact hdir hxdir

theorem steady_rename {rel dest : Path} (hup : .text "..".toList ∉ rel)
    (hclear : d.through (partialPath rel) = false) (hsrcClear : d.PartialClear rel)
    (hK : ∀ x, K x → ¬partialPlace d rel <+: x)
    (h : d.rename (partialPath rel) dest = some d') : Steady K d d' := by
  obtain ⟨hfree, hroot, hlocked, dir, name, htree⟩ :=
    rename_cases (partialName_normal rel) (partial_noDots hup) hclear h
  have hlinks := hsrcClear.resolve_left (by rw [hfree]; simp)
  exact ⟨hroot, hlocked, Tree.noNewLinks_rename htree hlinks,
    fun hd x hx => Tree.rename_keeps_dir htree (hK x hx) (hd x hx)⟩

/-- The links that a download must not meet: one that its destination names with a slash behind
it. -/
def Disk.Admits (d : Disk) (rel : Path) : Prop :=
  rel.endsInName ∨ isLink (d.tree.node (d.root ++ rel.normal)) = false

instance (d : Disk) (rel : Path) : Decidable (d.Admits rel) := inferInstanceAs (Decidable (_ ∨ _))

/-- One step of a download. -/
theorem Task.step_quiet {rel : Path} {s s' : Scene} {t t' : Task} {event : TaskEvent}
    (hup : .text "..".toList ∉ rel) (hs : s.Calm)
    (hK : s.disk.Standing K) (ht : t.Safe K s.disk rel)
    (hadmits : ∀ cancelled response, event = .answered cancelled response → s.disk.Admits rel)
    (h : t.step rel s event = some (s', t')) :
    Quiet K s s' ∧ t'.Safe K s'.disk rel := by
  obtain ⟨phase, a⟩ := t
  unfold Task.step at h
  split at h
  · -- the answer, and the look for links
    rename_i cancelled response hphase
    simp only at hphase
    subst hphase
    simp only at h
    split at h
    · cases h
      exact ⟨.refl hs, trivial⟩
    · rename_i hgo
      cases h
      simp only [Bool.or_eq_true, not_or, Bool.not_eq_true] at hgo
      have hclear := Disk.clear_of_hasSymlinkAncestor hup hgo.2
      exact ⟨.refl hs, hclear, through_beside (partialName_normal rel) hclear
        (hadmits cancelled response rfl), fun q hq => hq⟩
  · rename_i q rest fails message hphase
    simp only at hphase
    subst hphase
    split at h
    · cases h
      exact ⟨.refl hs, trivial⟩
    · cases h
      have hquiet : Quiet K s (s.createDir q) :=
        quiet_createDir hs (through_parent ht.1 (ht.2.2 q List.mem_cons_self))
      exact ⟨hquiet, hquiet.steady.through ht.1, hquiet.steady.through ht.2.1,
        fun r hr => ht.2.2 r (List.mem_cons_of_mem q hr)⟩
  · rename_i fails message hphase
    simp only at hphase
    subst hphase
    split at h
    · cases h
      exact ⟨.refl hs, ht.1, ht.2.1⟩
    · cases h
      exact ⟨.refl hs, trivial⟩
  · -- a leftover is removed
    rename_i hphase
    simp only at hphase
    subst hphase
    cases h
    have hquiet := quiet_removeFile (K := K) hs ht.2
    refine ⟨hquiet, hquiet.steady.through ht.1, hquiet.steady.through ht.2, ?_⟩
    rw [partialPlace, hquiet.steady.locked, hquiet.steady.root, call_disk]
    exact removed_not_link (partialName_normal rel) (partial_noDots hup) ht.2
  · rename_i fails message hphase
    simp only at hphase
    subst hphase
    split at h
    · rename_i s₁ hcall
      cases h
      have hquiet : Quiet K s s' := quiet_tryCall hcall hs (by simpa using ht.2.1)
        fun d' hd => steady_createFile hd
      obtain ⟨hfalse, -⟩ | ⟨-, -, hcreate⟩ := tryCall_cases hcall
      · cases hfalse
      · exact ⟨hquiet, hquiet.steady.through ht.1, hquiet.steady.through ht.2.1,
          opened_partialClear hup ht.2.1 ht.2.2 hcreate (hquiet.steady.dirs hK)⟩
    · rename_i s₁ hcall
      cases h
      exact ⟨quiet_tryCall hcall hs (by simpa using ht.2.1) fun d' hd => steady_createFile hd,
        trivial⟩
  · rename_i chunks cancelled hphase
    simp only at hphase
    subst hphase
    simp only at h
    split at h
    · cases h
      exact ⟨.refl hs, ht.1, ht.2.1⟩
    · cases h
      cases cancelled with
      | true => exact ⟨.refl hs, ht.1, ht.2.1⟩
      | false => exact ⟨.refl hs, ht⟩
  · rename_i fails message hphase
    simp only at hphase
    subst hphase
    have hpaths : ∀ p ∈ [partialPath rel, rel], s.disk.through p = false := by
      simpa using ⟨ht.2.1, ht.1⟩
    have hrename : ∀ d', s.disk.rename (partialPath rel) rel = some d' → Steady K s.disk d' :=
      fun d' hd => steady_rename hup ht.2.1 ht.2.2.1 ht.2.2.2 hd
    split at h
    · rename_i s₁ hcall
      cases h
      exact ⟨quiet_tryCall hcall hs hpaths hrename, trivial⟩
    · rename_i s₁ hcall
      cases h
      have hquiet := quiet_tryCall hcall hs hpaths hrename
      exact ⟨hquiet, hquiet.steady.through ht.1, hquiet.steady.through ht.2.1⟩
  · rename_i hphase
    simp only at hphase
    subst hphase
    cases h
    exact ⟨quiet_removeFile hs ht.2, trivial⟩
  · cases h

/-! ## After the transfers -/

/-- The scene after a stage's item: no effect went through a link, and `K` still stands. -/
structure Preserves (K : Place OsName → Prop) (s s' : Scene) : Prop where
  calm : s'.Calm
  root : s'.disk.root = s.disk.root
  dirs : s.disk.Standing K → s'.disk.Standing K

theorem Quiet.preserves {s s' : Scene} (h : Quiet K s s') : Preserves K s s' :=
  ⟨h.calm, h.steady.root, h.steady.dirs⟩

theorem Preserves.trans {s s' s'' : Scene} (h : Preserves K s s') (h' : Preserves K s' s'') :
    Preserves K s s'' :=
  ⟨h'.calm, h'.root.trans h.root, fun hd => h'.dirs (h.dirs hd)⟩

theorem withExtension_name (rel : Path) : ∃ n : OsName, n.isNormal ∧ n ≠ .text "..".toList ∧
    rel.withExtension "xml.partial".toList = rel.dropLast ++ [n] := by
  let stem := fileStem ((rel.getLast?.map OsName.display).getD [])
  have hname : OsName.text (stem ++ ".".toList ++ "xml.partial".toList) =
      .text (stem ++ ".xml".toList ++ ".partial".toList) := by
    rw [List.append_assoc, List.append_assoc]
    rfl
  obtain ⟨hn, hdots⟩ := isNormal_partialText _ _ hname
  exact ⟨_, hn, hdots, rfl⟩

/-- What was just opened is renamed: no directory of `K` goes with it. -/
theorem preserves_rename {s : Scene} {pre dest : Path} {n : OsName} (hn : n.isNormal)
    (hup : .text "..".toList ∉ pre ++ [n]) (hs : s.Calm)
    (hsrc : s.disk.through (pre ++ [n]) = false) (hdest : s.disk.through dest = false)
    (hfile : s.disk.tree.node (s.disk.root ++ pre.normal ++ [n]) ≠ some .dir)
    {fails ok : Bool} {s' : Scene}
    (h : s.tryCall fails .rename [pre ++ [n], dest] (fun d => d.rename (pre ++ [n]) dest) =
      (s', ok)) :
    Preserves K s s' := by
  rcases tryCall_cases h with ⟨-, rfl⟩ | ⟨-, heq, hdisk⟩
  · exact (Quiet.refl hs).preserves
  · obtain ⟨-, hroot, -, dir, name, htree⟩ := rename_cases hn hup hsrc hdisk
    refine ⟨?_, hroot, fun hd x hx => ?_⟩
    · rw [heq]
      exact calm_call hs (by simpa using ⟨hsrc, hdest⟩)
    · have hxdir := hd x hx
      refine Tree.rename_keeps_dir htree (fun hpre => ?_) hxdir
      rw [s.disk.tree.eq_of_isBelow hfile (by rw [hxdir]; simp) hpre] at hxdir
      exact hfile hxdir

theorem preserves_publish {s : Scene} {rel : Path} {e : Faults} (hup : .text "..".toList ∉ rel)
    (hend : rel.endsInName) (hs : s.Calm) :
    Preserves K s (s.publish rel e).1 := by
  unfold Scene.publish
  simp only
  split
  · exact (Quiet.refl hs).preserves
  rename_i hgo
  simp only [Bool.or_eq_true, not_or, Bool.not_eq_true] at hgo
  have hclear := Disk.clear_of_hasSymlinkAncestor hup hgo.2
  have hmade : Quiet K s (s.createDirAll rel e.made) := quiet_createDirAll e.made hs hclear
  generalize s.createDirAll rel e.made = s₁ at hmade
  split
  · exact hmade.preserves
  obtain ⟨n, hn, hdots, htemp⟩ := withExtension_name rel
  rw [htemp]
  have hup' : .text "..".toList ∉ rel.dropLast ++ [n] := by
    rw [List.mem_append, List.mem_singleton, not_or]
    exact ⟨fun hm => hup (List.mem_of_mem_dropLast hm), hdots.symm⟩
  have hclear₁ := hmade.steady.through hclear
  have htemp₁ : s₁.disk.through (rel.dropLast ++ [n]) = false :=
    through_beside hn hclear₁ (Or.inl hend)
  split
  · rename_i s₂ hcall
    exact hmade.preserves.trans (quiet_tryCall hcall hmade.calm (by simpa using htemp₁)
      fun d' hd => steady_createFile hd).preserves
  · rename_i s₂ hcall
    have hcreated : Quiet K s₁ s₂ := quiet_tryCall hcall hmade.calm (by simpa using htemp₁)
      fun d' hd => steady_createFile hd
    split
    · exact hmade.preserves.trans hcreated.preserves
    · obtain ⟨hfalse, -⟩ | ⟨-, -, hcreate⟩ := tryCall_cases hcall
      · cases hfalse
      have hfile := created_not_dir hn hup' htemp₁ hcreate
      rw [← hcreated.steady.root] at hfile
      have hall {s₃ : Scene} {ok : Bool} (hren : s₂.tryCall e.last.isSome .rename
          [rel.dropLast ++ [n], rel] (fun d => d.rename (rel.dropLast ++ [n]) rel) = (s₃, ok)) :
          Preserves K s s₃ :=
        (hmade.preserves.trans hcreated.preserves).trans (preserves_rename hn hup' hcreated.calm
          (hcreated.steady.through htemp₁) (hcreated.steady.through hclear₁) hfile hren)
      split
      · rename_i s₃ hren
        exact hall hren
      · rename_i s₃ hren
        exact hall hren

theorem preserves_deleteFile {s : Scene} {rel : Path} {e : Faults}
    (hs : s.Calm) (hrel : s.disk.through rel = false) :
    Preserves K s (s.deleteFile rel e).1 := by
  unfold Scene.deleteFile
  split
  · exact (Quiet.refl hs).preserves
  · have hall {s' : Scene} {ok : Bool} (hcall : s.tryCall e.last.isSome .removeFile [rel]
        (fun d => d.removeFile rel) = (s', ok)) : Preserves K s s' :=
      (quiet_tryCall hcall hs (by simpa using hrel) fun d' hd => steady_removeFile hd).preserves
    split
    · rename_i s' hcall
      exact hall hcall
    · rename_i s' hcall
      exact hall hcall

theorem calm_deleteDir {s : Scene} {rel : Path} {e : Faults} (hup : .text "..".toList ∉ rel)
    (hs : s.Calm) :
    (s.deleteDir rel e).1.Calm := by
  unfold Scene.deleteDir
  simp only
  split
  · exact hs
  · rename_i hgo
    simp only [Bool.or_eq_true, not_or, Bool.not_eq_true] at hgo
    have hclear := Disk.clear_of_hasSymlinkAncestor hup hgo.2
    have hall {s' : Scene} {ok : Bool} (hcall : s.tryCall e.last.isSome .removeDir [rel]
        (fun d => d.removeDir rel) = (s', ok)) : s'.Calm := by
      rcases tryCall_cases hcall with ⟨-, rfl⟩ | ⟨-, rfl, -⟩
      · exact hs
      · exact calm_call hs (by simpa using hclear)
    split
    · rename_i s' hcall
      exact hall hcall
    · rename_i s' hcall
      exact hall hcall

/-- A link is made only where nothing stands; then its parents must be clear. -/
def Disk.AdmitsLink (d : Disk) (rel : Path) : Prop :=
  (d.symlinkMetadata rel).isSome ∨ d.through rel = false

instance (d : Disk) (rel : Path) : Decidable (d.AdmitsLink rel) :=
  inferInstanceAs (Decidable (_ ∨ _))

theorem calm_link {s : Scene} {rel : Path} {target : Text} {e : Faults}
    (hs : s.Calm) (hadmits : s.disk.AdmitsLink rel) :
    (s.link rel target e).1.Calm := by
  unfold Scene.link
  split
  · exact hs
  split
  · exact hs
  rename_i hfree
  have hclear := hadmits.resolve_left hfree
  have hmade : Quiet (fun _ => False) s (s.createDirAll rel e.made) :=
    quiet_createDirAll e.made hs hclear
  simp only
  generalize s.createDirAll rel e.made = s₁ at hmade
  split
  · exact hmade.calm
  · have hall {s₂ : Scene} {ok : Bool} (hcall : s₁.tryCall e.last.isSome .symlink [rel]
        (fun d => d.make (.symlink (linkTo target)) rel) = (s₂, ok)) :
        s₂.Calm := by
      rcases tryCall_cases hcall with ⟨-, rfl⟩ | ⟨-, rfl, -⟩
      · exact hmade.calm
      · exact calm_call hmade.calm (by simpa using hmade.steady.through hclear)
    split
    · rename_i s₂ hcall
      exact hall hcall
    · rename_i s₂ hcall
      exact hall hcall

end Synora.Mirror
