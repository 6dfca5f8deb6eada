import Synora.Lib.Flock
import Synora.Storage.Context

namespace Synora.Storage
open Strings Mirror

/-! ## Paths and the file system -/

/-- A canonical path: the names below the root of the file system. -/
abbrev Place := List OsName

/-- The absolute path that spells a place. -/
def absolute (q : Place) : Path := .text [] :: if q = [] then [.text []] else q

/-- `Path::file_name` -/
def fileName (p : Path) : Option OsName := p.normal.getLast?.filter OsName.isEntry

/-- `Path::parent` -/
def parent (p : Path) : Option Path :=
  let here : Path := if p.head? = some (.text ".".toList) then [.text ".".toList] else []
  if p.normal = [] then if here = [] then none else some (Path.ofText [])
  else if Path.isAbsolute p then some (absolute p.normal.dropLast)
  else some (if here ++ p.normal.dropLast = [] then Path.ofText [] else here ++ p.normal.dropLast)

/-- `path.display()` -/
def display (p : Path) : Text :=
  unsegments (p.map fun
    | .text t => t
    | .other b => Utf8.fromUtf8Lossy b)

/-- What the operating system answers while one lock is acquired. -/
structure Files where
  isDir : Path → Bool
  /-- `symlink_metadata(path).is_ok()` -/
  present : Path → Bool
  createDirAll : Path → Bool
  /-- With the parents that `create_dir_all` has made in place; `none` for what does not exist. -/
  canonicalize : Path → Option Place
  canonicalize_names : ∀ p q, canonicalize p = some q → ∀ n ∈ q, n.isEntry
  /-- The directories above a canonical path are canonical. -/
  canonicalize_above : ∀ p q r, canonicalize p = some (q ++ r) → canonicalize (absolute q) = some q
  /-- A path leads where its name leads from its parent. -/
  canonicalize_child : ∀ p d n q, parent p = some d → fileName p = some n →
    canonicalize d = some q → canonicalize p = canonicalize (absolute (q ++ [n]))
  present_canonical : ∀ p q, canonicalize p = some q → present (absolute q)
  createDirAll_above : ∀ p q n, canonicalize p = some (q ++ [n]) → createDirAll (absolute q)

/-! ## `StorageLock` -/

/-- The stable sibling on which the lock of a place is taken. -/
def lockFile (q : Place) : Place :=
  q.dropLast ++ (q.getLast?.map fun
    | .text t => .text (".synora-lock-".toList ++ t)
    | .other b => .other (Utf8.encode ".synora-lock-".toList ++ b)).toList

namespace Files
variable (fs : Files)

/-- A path that leads somewhere is replaced by its canonical form. -/
def resolved (path : Path) : Option Path :=
  if fs.present path then (fs.canonicalize path).map absolute else some path

/-- The place `acquire_mode` locks; `none` where it fails before the `flock` call. -/
def lockedPlace (path : Path) : Option Place :=
  (fs.resolved path).bind fun path =>
    let dir := ((parent path).filter fun d => !decide (d = Path.ofText [])).getD
      (Path.ofText ".".toList)
    if fs.createDirAll dir then
      (fs.canonicalize dir).bind fun dir => (fileName path).map fun name => dir ++ [name]
    else none

/-- `acquire` -/
def acquire (path : Path) : Flock.Plan Place :=
  match fs.lockedPlace path with
  | some q => ⟨[⟨lockFile q, .exclusive⟩], true⟩
  | none => ⟨[], false⟩

/-- The loop of `acquire_under`. -/
def acquireChain (current : Place) : List OsName → Flock.Plan Place
  | [] => fs.acquire (absolute current)
  | component :: relative =>
    match fs.lockedPlace (absolute current) with
    | some q =>
      let rest := acquireChain (current ++ [component]) relative
      ⟨⟨lockFile q, .shared⟩ :: rest.locks, rest.opens⟩
    | none => ⟨[], false⟩

/-- Where the data of a mirror is, or will be. -/
def mirrorPlace (path : Path) : Option Place :=
  (parent path).bind fun dir =>
    if fs.createDirAll dir then
      match fs.canonicalize path with
      | some q => some q
      | none => (fs.canonicalize dir).map fun d => d ++ (fileName path).toList
    else none

/-- `acquire_under` -/
def acquireUnder (root path : Path) : Flock.Plan Place :=
  match fs.canonicalize root, fs.mirrorPlace path with
  | some root, some path =>
    if root <+: path then fs.acquireChain root (path.drop root.length) else ⟨[], false⟩
  | _, _ => ⟨[], false⟩

end Files

/-! ## Who takes which lock -/

def zfsDatasetId (pool dataset : Text) : Text :=
  let dataset := trim dataset
  if dataset = [] then pool
  else if '/' ∈ dataset then dataset
  else pool ++ '/' :: dataset

/-- The job as `run_once` goes on with it. -/
def hookJob (ctx : Option RunStorageCtx) (job : MirrorSpec) : MirrorSpec :=
  { job with storage := localStorage ctx job }

/-- The root of the tree that a snapshot of the backend would hold. -/
def lockPath (ctx : Option RunStorageCtx) (job : MirrorSpec) : Path :=
  let hook := hookJob ctx job
  match ctx.bind fun ctx => ctx.storageFor hook with
  | some c =>
    match c.kind with
    | .zfs pool dataset => c.mountpoint.getD (Path.ofText ('/' :: zfsDatasetId pool dataset))
    | .btrfs subvol => Path.ofText subvol
    | .dir => hook.storage
  | none => hook.storage

def sharesBackend (fs : Files) (ctx : Option RunStorageCtx) (job : MirrorSpec) : Bool :=
  decide (job.snapshotPolicy = .never ∨ job.snapshotPolicy = .manual) && fs.isDir (lockPath ctx job)

def runOnceLock (fs : Files) (ctx : Option RunStorageCtx) (job : MirrorSpec) : Flock.Plan Place :=
  if sharesBackend fs ctx job then fs.acquireUnder (lockPath ctx job) (hookJob ctx job).storage
  else fs.acquire (lockPath ctx job)

/-- What a rollback restores. -/
inductive Backend
  /-- With the mountpoint that `zfs get` prints. -/
  | zfs (mount : Text)
  | btrfs (subvol : Text)
deriving DecidableEq, Repr

/-- The tree a rollback locks; a dataset without an absolute mountpoint is refused. -/
def Backend.path : Backend → Option Path
  | .zfs mount =>
    let p := Path.ofText (trim mount)
    if Path.isAbsolute p then some p else none
  | .btrfs subvol => some (Path.ofText subvol)

def rollbackLock (fs : Files) (b : Backend) : Flock.Plan Place :=
  match b.path with
  | some p => fs.acquire p
  | none => ⟨[], false⟩

/-! ## The locks of a plan, place by place -/

section
variable {fs : Files} {p : Path} {q r : Place} {n : OsName}

theorem isNormal_of_isEntry (h : n.isEntry) : n.isNormal := by
  cases n with
  | text t =>
    simp only [OsName.isEntry, Bool.not_eq_true', decide_eq_false_iff_not, not_or] at h
    simpa [OsName.isNormal] using ⟨h.1, h.2.1⟩
  | other b => simp [OsName.isNormal]

theorem normal_absolute_of_isNormal (h : ∀ n ∈ q, n.isNormal) : (absolute q).normal = q := by
  have hq : Path.normal q = q := List.filter_eq_self.mpr h
  have hempty : Path.normal [OsName.text []] = [] := by decide
  by_cases hnil : q = []
  · subst hnil
    decide
  · rw [absolute, if_neg hnil, ← List.singleton_append, Path.normal_append, hempty, hq]
    rfl

theorem normal_absolute (h : ∀ n ∈ q, n.isEntry) : (absolute q).normal = q :=
  normal_absolute_of_isNormal fun n hn => isNormal_of_isEntry (h n hn)

theorem isAbsolute_absolute : Path.isAbsolute (absolute q) = true := by
  cases q <;> rfl

theorem parent_absolute (h : ∀ m ∈ q ++ [n], m.isEntry) :
    parent (absolute (q ++ [n])) = some (absolute q) := by
  simp [parent, normal_absolute h, isAbsolute_absolute]

theorem fileName_absolute (h : ∀ m ∈ q ++ [n], m.isEntry) :
    fileName (absolute (q ++ [n])) = some n := by
  simp [fileName, normal_absolute h, h n]

theorem absolute_ne_empty : absolute q ≠ Path.ofText [] := by
  cases q <;> simp [absolute, Path.ofText, segments]

/-- The place is canonical, or a name that is still free in a canonical directory. -/
def Files.Settled (fs : Files) (q : Place) : Prop :=
  fs.canonicalize (absolute q) = some q ∨ fs.canonicalize (absolute q) = none ∧
    ∃ d n, q = d ++ [n] ∧ n.isEntry ∧ fs.canonicalize (absolute d) = some d

theorem settled_of_canonicalize (h : fs.canonicalize p = some q) : fs.Settled q :=
  .inl (fs.canonicalize_above p q [] (by rwa [List.append_nil]))

theorem Files.Settled.entries (h : fs.Settled q) : ∀ n ∈ q, n.isEntry := by
  obtain h | ⟨-, d, n, rfl, hn, hd⟩ := h
  · exact fs.canonicalize_names _ _ h
  · intro m hm
    rcases List.mem_append.mp hm with hm | hm
    · exact fs.canonicalize_names _ _ hd m hm
    · rwa [List.mem_singleton.mp hm]

/-- The directories above a settled place are canonical. -/
theorem Files.Settled.above (h : fs.Settled (q ++ n :: r)) :
    fs.canonicalize (absolute q) = some q := by
  obtain h | ⟨-, d, m, heq, -, hd⟩ := h
  · exact fs.canonicalize_above _ q (n :: r) h
  · obtain ⟨r', hr'⟩ : ∃ r', d = q ++ r' := by
      have hdrop : q ++ (n :: r).dropLast = d := by
        rw [← List.dropLast_append_of_ne_nil (by simp), heq, List.dropLast_concat]
      exact ⟨_, hdrop.symm⟩
    exact fs.canonicalize_above _ q r' (hr' ▸ hd)

theorem Files.Settled.of_append (h : fs.Settled (q ++ r)) : fs.Settled q := by
  cases r with
  | nil => simpa using h
  | cons n r => exact .inl h.above

theorem lock_absolute (h : ∀ m ∈ q ++ [n], m.isEntry) :
    (((parent (absolute (q ++ [n]))).filter fun d => !decide (d = Path.ofText [])).getD
      (Path.ofText ".".toList)) = absolute q := by
  rw [parent_absolute h, Option.filter_some, if_pos (by simp [absolute_ne_empty])]
  rfl

/-- A canonical place can be locked, the root of the file system excepted. -/
theorem lockedPlace_of_canonical (h : fs.canonicalize (absolute (q ++ [n])) = some (q ++ [n])) :
    fs.lockedPlace (absolute (q ++ [n])) = some (q ++ [n]) := by
  have hnames := fs.canonicalize_names _ _ h
  simp only [Files.lockedPlace, Files.resolved, fs.present_canonical _ _ h, if_true, h,
    Option.map_some, Option.bind_some, lock_absolute hnames, fs.createDirAll_above _ _ _ h,
    fs.canonicalize_above _ q [n] h, fileName_absolute hnames]

theorem lockedPlace_root (h : fs.Settled []) : fs.lockedPlace (absolute []) = none := by
  have hroot : fs.canonicalize (absolute []) = some [] := by
    obtain h | ⟨-, d, n, heq, -⟩ := h
    · exact h
    · simp at heq
  have hname : fileName (absolute []) = none := by decide
  simp [Files.lockedPlace, Files.resolved, hroot, hname]

theorem lockedPlace_of_settled (h : fs.Settled q) (hr : fs.lockedPlace (absolute q) = some r) :
    r = q ∧ q ≠ [] := by
  rcases List.eq_nil_or_concat q with rfl | ⟨d, n, rfl⟩
  · rw [lockedPlace_root h] at hr
    cases hr
  · simp only [List.concat_eq_append] at h hr ⊢
    refine ⟨?_, by simp⟩
    have hd := h.above
    obtain hc | ⟨hnone, -⟩ := id h
    · rw [lockedPlace_of_canonical hc] at hr
      exact (Option.some.inj hr).symm
    · -- a link that leads nowhere is there and has no canonical path
      have habsent : fs.present (absolute (d ++ [n])) = false := by
        by_contra hp
        rw [Bool.not_eq_false] at hp
        simp [Files.lockedPlace, Files.resolved, hp, hnone] at hr
      simp only [Files.lockedPlace, Files.resolved, habsent, Bool.false_eq_true, if_false,
        Option.bind_some, lock_absolute h.entries, hd, fileName_absolute h.entries,
        Option.map_some, Option.ite_none_right_eq_some, Option.some.injEq] at hr
      exact hr.2.symm

theorem settled_mirrorPlace (h : fs.mirrorPlace p = some q) : fs.Settled q := by
  obtain ⟨dir, hdir, h⟩ := Option.bind_eq_some_iff.mp h
  simp only [Option.ite_none_right_eq_some] at h
  replace h := h.2
  cases hp : fs.canonicalize p with
  | some c =>
    simp only [hp, Option.some.injEq] at h
    exact h ▸ settled_of_canonicalize hp
  | none =>
    simp only [hp] at h
    obtain ⟨d, hd, rfl⟩ := Option.map_eq_some_iff.mp h
    cases hn : fileName p with
    | none => simpa using settled_of_canonicalize hd
    | some n =>
      have hentry : n.isEntry := (Option.filter_eq_some_iff.mp hn).2
      refine .inr ⟨?_, d, n, rfl, hentry, fs.canonicalize_above _ d [] (by simpa using hd)⟩
      rw [← hp, fs.canonicalize_child p dir n d hdir hn hd]
      rfl

end

/-- The locks from a root down to a place. -/
def chainLocks (current : Place) : List OsName → List (Flock.Lock Place)
  | [] => [⟨lockFile current, .exclusive⟩]
  | n :: rel => ⟨lockFile current, .shared⟩ :: chainLocks (current ++ [n]) rel

theorem acquireChain_locks {fs : Files} {current : Place} {rel : List OsName}
    (h : fs.Settled (current ++ rel)) (ho : (fs.acquireChain current rel).opens) :
    (fs.acquireChain current rel).locks = chainLocks current rel ∧ current ≠ [] ∧
      (fs.lockedPlace (absolute (current ++ rel))).isSome := by
  induction rel generalizing current with
  | nil =>
    simp only [Files.acquireChain, Files.acquire, List.append_nil] at h ho ⊢
    cases hq : fs.lockedPlace (absolute current) with
    | none => simp [hq] at ho
    | some q =>
      obtain ⟨rfl, hne⟩ := lockedPlace_of_settled h hq
      exact ⟨rfl, hne, rfl⟩
  | cons n rel ih =>
    simp only [Files.acquireChain] at ho ⊢
    cases hq : fs.lockedPlace (absolute current) with
    | none => simp [hq] at ho
    | some q =>
      obtain ⟨rfl, hne⟩ := lockedPlace_of_settled h.of_append hq
      simp only [hq] at ho
      obtain ⟨hlocks, -, hlast⟩ := ih (by simpa using h) ho
      exact ⟨by rw [hlocks, chainLocks], hne, by simpa using hlast⟩

theorem acquireChain_opens {fs : Files} {current : Place} {rel : List OsName}
    (h : fs.Settled (current ++ rel)) (hne : current ≠ [])
    (hlast : (fs.lockedPlace (absolute (current ++ rel))).isSome) :
    (fs.acquireChain current rel).opens := by
  induction rel generalizing current with
  | nil =>
    obtain ⟨q, hq⟩ := Option.isSome_iff_exists.mp hlast
    rw [List.append_nil] at hq
    simp [Files.acquireChain, Files.acquire, hq]
  | cons n rel ih =>
    obtain ⟨d, m, rfl⟩ := (List.eq_nil_or_concat current).resolve_left hne
    have hq := lockedPlace_of_canonical (by simpa using h.above)
    simp only [Files.acquireChain, List.concat_eq_append, hq]
    exact ih (by simpa using h) (by simp) (by simpa using hlast)

theorem lockFile_injective {q r : Place} (hq : q ≠ []) (hr : r ≠ [])
    (h : lockFile q = lockFile r) : q = r := by
  obtain ⟨d, n, rfl⟩ := (List.eq_nil_or_concat q).resolve_left hq
  obtain ⟨d', n', rfl⟩ := (List.eq_nil_or_concat r).resolve_left hr
  simp only [lockFile, List.concat_eq_append, List.dropLast_concat, List.getLast?_concat,
    Option.map_some, Option.toList_some] at h ⊢
  obtain ⟨rfl, hn⟩ := List.append_inj' h rfl
  cases n <;> cases n' <;> simp_all

theorem mem_chainLocks {current : Place} {rel : List OsName} {l : Flock.Lock Place} :
    l ∈ chainLocks current rel ↔ ∃ c, current <+: c ∧ c <+: current ++ rel ∧
      l = ⟨lockFile c, if c = current ++ rel then .exclusive else .shared⟩ := by
  induction rel generalizing current with
  | nil =>
    simp only [chainLocks, List.mem_singleton, List.append_nil]
    constructor
    · rintro rfl
      exact ⟨current, List.prefix_rfl, List.prefix_rfl, by simp⟩
    · rintro ⟨c, hc, hc', rfl⟩
      obtain rfl : current = c := hc.eq_of_length_le hc'.length_le
      simp
  | cons n rel ih =>
    simp only [chainLocks, List.mem_cons, ih, List.append_assoc, List.singleton_append]
    constructor
    · rintro (rfl | ⟨c, hc, hc', rfl⟩)
      · exact ⟨current, List.prefix_rfl, List.prefix_append _ _, by simp⟩
      · exact ⟨c, (List.prefix_append _ _).trans hc, hc', rfl⟩
    · rintro ⟨c, hc, hc', rfl⟩
      by_cases heq : c = current
      · left
        simp [heq]
      · right
        refine ⟨c, ?_, hc', rfl⟩
        obtain ⟨r, rfl⟩ := hc
        have hr := (List.prefix_append_right_inj current).mp hc'
        obtain ⟨r', rfl⟩ : ∃ r', r = n :: r' := by
          cases r with
          | nil => simp at heq
          | cons m r' => exact ⟨r', by rw [(List.cons_prefix_cons.mp hr).1]⟩
        exact ⟨r', by simp⟩

theorem chainLocks_compatible {current : Place} {rel : List OsName} (hne : current ≠ []) :
    (chainLocks current rel).Pairwise fun l l' => ¬l.Clashes l' := by
  induction rel generalizing current with
  | nil => exact List.pairwise_singleton _ _
  | cons n rel ih =>
    refine List.Pairwise.cons (fun l hl hc => ?_) (ih (by simp))
    obtain ⟨c, hpre, -, rfl⟩ := mem_chainLocks.mp hl
    obtain rfl : current = c := lockFile_injective hne (by rintro rfl; simp at hpre) hc.1
    exact absurd hpre.length_le (by simp)

/-! ## Exclusion -/

/-- What an acquisition reserves: the way from its root down to its target, where nobody else may
have a target, and the target itself. -/
structure Reserved where
  root : Place
  target : Place
  rooted : root ≠ []
  below : root <+: target
deriving DecidableEq

namespace Reserved

def whole (q : Place) : Option Reserved :=
  if h : q ≠ [] then some ⟨q, q, h, List.prefix_rfl⟩ else none

def locks (r : Reserved) : List (Flock.Lock Place) :=
  chainLocks r.root (r.target.drop r.root.length)

theorem root_append (r : Reserved) : r.root ++ r.target.drop r.root.length = r.target :=
  (List.prefix_iff_eq_append.mp r.below)

theorem mem_locks {r : Reserved} {l : Flock.Lock Place} :
    l ∈ r.locks ↔ ∃ c, r.root <+: c ∧ c <+: r.target ∧
      l = ⟨lockFile c, if c = r.target then .exclusive else .shared⟩ := by
  rw [locks, mem_chainLocks, root_append]

/-- One of the two targets lies on the way of the other. -/
def Meets (r r' : Reserved) : Prop :=
  r'.root <+: r.target ∧ r.target <+: r'.target ∨ r.root <+: r'.target ∧ r'.target <+: r.target

instance (r r' : Reserved) : Decidable (r.Meets r') := inferInstanceAs (Decidable (_ ∨ _))

theorem Meets.symm {r r' : Reserved} (h : r.Meets r') : r'.Meets r := Or.symm h

theorem ne_nil_of_root {r : Reserved} {c : Place} (h : r.root <+: c) : c ≠ [] := by
  rintro rfl
  exact r.rooted (List.prefix_nil.mp h)

/-- The locks of two acquisitions clash when, and only when, a target lies on the other's way. -/
theorem clash_iff {r r' : Reserved} :
    (∃ l ∈ r.locks, ∃ l' ∈ r'.locks, l.Clashes l') ↔ r.Meets r' := by
  constructor
  · rintro ⟨l, hl, l', hl', hfile, hmode⟩
    obtain ⟨c, hc, hct, rfl⟩ := mem_locks.mp hl
    obtain ⟨c', hc', hct', rfl⟩ := mem_locks.mp hl'
    obtain rfl : c = c' := lockFile_injective (ne_nil_of_root hc) (ne_nil_of_root hc') hfile
    rcases hmode with hm | hm
    · have : c = r.target := by
        by_contra hne
        simp [hne] at hm
      exact .inl (this ▸ ⟨hc', hct'⟩)
    · have : c = r'.target := by
        by_contra hne
        simp [hne] at hm
      exact .inr (this ▸ ⟨hc, hct⟩)
  · rintro (⟨h, h'⟩ | ⟨h, h'⟩)
    · exact ⟨_, mem_locks.mpr ⟨r.target, r.below, List.prefix_rfl, rfl⟩, _,
        mem_locks.mpr ⟨r.target, h, h', rfl⟩, rfl, by simp⟩
    · exact ⟨_, mem_locks.mpr ⟨r'.target, h, h', rfl⟩, _,
        mem_locks.mpr ⟨r'.target, r'.below, List.prefix_rfl, rfl⟩, rfl, by simp⟩

end Reserved

/-- Someone who takes a storage lock, with the file system as it finds it. -/
inductive Claimant
  | run (fs : Files) (ctx : Option RunStorageCtx) (job : MirrorSpec)
  | rollback (fs : Files) (b : Backend)

namespace Claimant

def plan : Claimant → Flock.Plan Place
  | run fs ctx job => runOnceLock fs ctx job
  | rollback fs b => rollbackLock fs b

/-- The way of a run without snapshots goes from its backend to its mirror; everything else
reserves a whole backend. -/
def reserved : Claimant → Option Reserved
  | run fs ctx job =>
    if sharesBackend fs ctx job then do
      let root ← fs.canonicalize (lockPath ctx job)
      let target ← fs.mirrorPlace (hookJob ctx job).storage
      if h : root ≠ [] ∧ root <+: target ∧ (fs.lockedPlace (absolute target)).isSome then
        some ⟨root, target, h.1, h.2.1⟩
      else none
    else (fs.lockedPlace (lockPath ctx job)).bind Reserved.whole
  | rollback fs b => (b.path.bind fs.lockedPlace).bind Reserved.whole

/-- Two runs in one tree, or a run in the backend of a rollback. -/
def Overlap : Claimant → Claimant → Prop
  | run fs ctx job, run fs' ctx' job' => ∃ q ∈ fs.mirrorPlace (hookJob ctx job).storage,
      ∃ q' ∈ fs'.mirrorPlace (hookJob ctx' job').storage, q <+: q' ∨ q' <+: q
  | run fs ctx job, rollback fs' b => ∃ q ∈ fs.mirrorPlace (hookJob ctx job).storage,
      ∃ q' ∈ b.path.bind fs'.lockedPlace, q' <+: q
  | rollback fs b, run fs' ctx' job' => ∃ q ∈ b.path.bind fs.lockedPlace,
      ∃ q' ∈ fs'.mirrorPlace (hookJob ctx' job').storage, q <+: q'
  | rollback _ _, rollback _ _ => False

theorem whole_of_lockedPlace {fs : Files} {p : Path} {q : Place} (h : fs.lockedPlace p = some q) :
    ∃ hq, Reserved.whole q = some ⟨q, q, hq, List.prefix_rfl⟩ := by
  simp only [Files.lockedPlace, Option.bind_eq_some_iff, Option.ite_none_right_eq_some,
    Option.map_eq_some_iff] at h
  obtain ⟨path, -, -, dir, -, name, -, rfl⟩ := h
  exact ⟨by simp, by simp [Reserved.whole]⟩

/-- `acquire` reserves the whole tree. -/
theorem acquire_eq {fs : Files} {p : Path} {r : Reserved}
    (h : (fs.lockedPlace p).bind Reserved.whole = some r) : fs.acquire p = ⟨r.locks, true⟩ := by
  obtain ⟨q, hq, hr⟩ := Option.bind_eq_some_iff.mp h
  obtain ⟨hne, hw⟩ := whole_of_lockedPlace hq
  obtain rfl := Option.some.inj (hw.symm.trans hr)
  simp [Files.acquire, hq, Reserved.locks, chainLocks]

theorem acquire_opens {fs : Files} {p : Path} (h : (fs.acquire p).opens) :
    ∃ r, (fs.lockedPlace p).bind Reserved.whole = some r := by
  rw [Files.acquire] at h
  split at h
  · rename_i q hq
    obtain ⟨hne, hw⟩ := whole_of_lockedPlace hq
    exact ⟨_, by rw [hq, Option.bind_some, hw]⟩
  · cases h

theorem reserved_run_shared {fs : Files} {ctx : Option RunStorageCtx} {job : MirrorSpec}
    {r : Reserved} (hs : sharesBackend fs ctx job) :
    (run fs ctx job).reserved = some r ↔ fs.canonicalize (lockPath ctx job) = some r.root ∧
      fs.mirrorPlace (hookJob ctx job).storage = some r.target ∧
      (fs.lockedPlace (absolute r.target)).isSome := by
  simp only [reserved, hs, if_true, Option.bind_eq_bind, Option.bind_eq_some_iff]
  constructor
  · rintro ⟨root, hroot, target, htarget, h⟩
    split at h
    · rename_i hc
      obtain rfl := Option.some.inj h
      exact ⟨hroot, htarget, hc.2.2⟩
    · cases h
  · rintro ⟨hroot, htarget, hlast⟩
    exact ⟨_, hroot, _, htarget, by rw [dif_pos ⟨r.rooted, r.below, hlast⟩]⟩

/-- A claimant takes the locks of what it reserves. -/
theorem plan_of_reserved {c : Claimant} {r : Reserved} (h : c.reserved = some r) :
    c.plan = ⟨r.locks, true⟩ := by
  cases c with
  | rollback fs b =>
    simp only [reserved, plan, rollbackLock] at h ⊢
    cases hb : b.path with
    | none => simp [hb] at h
    | some p => exact acquire_eq (by simpa [hb] using h)
  | run fs ctx job =>
    by_cases hs : sharesBackend fs ctx job
    · obtain ⟨hroot, htarget, hlast⟩ := (reserved_run_shared hs).mp h
      have hsettled := settled_mirrorPlace htarget
      rw [← r.root_append] at hsettled hlast
      have hopens := acquireChain_opens hsettled r.rooted hlast
      have hlocks := (acquireChain_locks hsettled hopens).1
      simp only [plan, runOnceLock, hs, if_true, Files.acquireUnder, hroot, htarget,
        if_pos r.below]
      rw [Reserved.locks, ← hlocks, ← hopens]
    · simp only [reserved, plan, runOnceLock, hs] at h ⊢
      exact acquire_eq h

/-- A claimant that reserves nothing fails. -/
theorem reserved_of_opens {c : Claimant} (h : c.plan.opens) : ∃ r, c.reserved = some r := by
  cases c with
  | rollback fs b =>
    simp only [reserved, plan, rollbackLock] at h ⊢
    cases hb : b.path with
    | none => simp [hb] at h
    | some p => exact acquire_opens (by simpa [hb] using h)
  | run fs ctx job =>
    by_cases hs : sharesBackend fs ctx job
    · simp only [plan, runOnceLock, hs, if_true, Files.acquireUnder] at h
      split at h
      · rename_i root target hroot htarget
        split at h
        · rename_i hpre
          have hsettled := settled_mirrorPlace htarget
          have heq := List.prefix_iff_eq_append.mp hpre
          rw [← heq] at hsettled
          obtain ⟨-, hne, hlast⟩ := acquireChain_locks hsettled h
          rw [heq] at hlast
          exact ⟨⟨root, target, hne, hpre⟩, (reserved_run_shared hs).mpr ⟨hroot, htarget, hlast⟩⟩
        · cases h
      · cases h
    · simp only [reserved, plan, runOnceLock, hs] at h ⊢
      exact acquire_opens h

end Claimant

/-- Whoever hold their locks at the same time are out of each other's way. -/
def Exclusive {ι : Type*} (claimants : ι → Claimant) (s : Flock.State ι Place) : Prop :=
  ∀ i j, i ≠ j → s.phase i = .holding → s.phase j = .holding →
    ¬(claimants i).Overlap (claimants j)

section
variable {ι : Type*} {claimants : ι → Claimant} {i j : ι} {r r' : Reserved}

theorem compatible_iff_not_meets (hi : (claimants i).reserved = some r)
    (hj : (claimants j).reserved = some r') :
    (∀ l ∈ (claimants i).plan.locks, ∀ l' ∈ (claimants j).plan.locks, ¬l.Clashes l') ↔
      ¬r.Meets r' := by
  rw [← Reserved.clash_iff, Claimant.plan_of_reserved hi, Claimant.plan_of_reserved hj]
  push Not
  rfl

/-- Claimants with a target out of each other's way can hold their locks at the same time. -/
theorem both_hold_of_not_meets [DecidableEq ι] (hij : i ≠ j) (hi : (claimants i).reserved = some r)
    (hj : (claimants j).reserved = some r') (hm : ¬r.Meets r') :
    ∃ as s, Runs.exec (Flock.step fun i => (claimants i).plan) Flock.init as = some s ∧
      s.phase i = .holding ∧ s.phase j = .holding := by
  have hcompat {k : ι} {r : Reserved} (hk : (claimants k).reserved = some r) :
      (claimants k).plan.opens ∧
        (claimants k).plan.locks.Pairwise fun l l' => ¬l.Clashes l' := by
    rw [Claimant.plan_of_reserved hk]
    exact ⟨rfl, chainLocks_compatible r.rooted⟩
  exact Flock.both_hold hij (hcompat hi).1 (hcompat hj).1 (hcompat hi).2 (hcompat hj).2
    ((compatible_iff_not_meets hi hj).mpr hm)

end

/-- Claimants exclude each other, in every interleaving of their calls, exactly when those that
overlap have a target on each other's way; one that failed or is done never keeps a lock. -/
theorem storage_exclusion_iff {ι : Type*} [DecidableEq ι] (claimants : ι → Claimant) :
    (∀ as s, Runs.exec (Flock.step fun i => (claimants i).plan) Flock.init as = some s →
      Exclusive claimants s ∧ ∀ i, s.phase i = .idle → ∀ l, (i, l) ∉ s.table) ↔
    ∀ i j, i ≠ j → (claimants i).Overlap (claimants j) →
      ∀ r ∈ (claimants i).reserved, ∀ r' ∈ (claimants j).reserved, r.Meets r' := by
  constructor
  · intro h i j hij hover r hr r' hr'
    by_contra hm
    obtain ⟨as, s, hexec, hi, hj⟩ := both_hold_of_not_meets hij hr hr' hm
    exact (h as s hexec).1 i j hij hi hj hover
  · intro h as s hexec
    have hsound := Flock.sound_exec hexec
    refine ⟨fun i j hij hi hj hover => ?_, fun i hi => hsound.idle_holds_nothing hi⟩
    obtain ⟨r, hr⟩ := Claimant.reserved_of_opens (hsound.opened i hi)
    obtain ⟨r', hr'⟩ := Claimant.reserved_of_opens (hsound.opened j hj)
    have hmeets := h i j hij hover r hr r' hr'
    exact (compatible_iff_not_meets hr hr').mp (hsound.compatible_plans hij hi hj) hmeets

/-! ### Two mirrors, one inside the other -/

/-- Only an absolute path has an absolute parent, and its name goes on from there. -/
theorem parent_of_absolute {p d : Path} {n : OsName} (hd : parent p = some d)
    (habs : Path.isAbsolute d) (hn : fileName p = some n) :
    Path.isAbsolute p = true ∧ p.normal = d.normal ++ [n] := by
  have hmem : ∀ m ∈ p.normal.dropLast, m.isNormal := fun m hm =>
    (List.mem_filter.mp (List.dropLast_subset _ hm)).2
  have hlast : p.normal.getLast? = some n := (Option.filter_eq_some_iff.mp hn).1
  have hne : p.normal ≠ [] := by
    rintro h
    simp [h] at hlast
  by_cases hp : Path.isAbsolute p
  · simp only [parent, hne, hp, if_true, if_false, Option.some.injEq] at hd
    subst hd
    rw [normal_absolute_of_isNormal hmem]
    exact ⟨hp, (List.dropLast_append_getLast? n hlast).symm⟩
  · -- the parent of a relative path starts with `.` or with a name, if it is not empty
    have hrel (l : Path) (h : ∀ m ∈ l, m ≠ .text []) : Path.isAbsolute l = false := by
      rw [Path.isAbsolute.eq_def]
      split
      · exact absurd rfl (h _ List.mem_cons_self)
      · rfl
    have hname (m : OsName) (hm : m ∈ p.normal.dropLast) : m ≠ .text [] := by
      rintro rfl
      simpa [OsName.isNormal] using hmem _ hm
    have hdot (m : OsName) (hm : m ∈ .text ".".toList :: p.normal.dropLast) : m ≠ .text [] := by
      rcases List.mem_cons.mp hm with rfl | hm
      · simp
      · exact hname m hm
    simp only [parent, hne, Bool.eq_false_iff.mpr hp, Bool.false_eq_true, if_false,
      Option.some.injEq] at hd
    subst hd
    refine absurd habs (Bool.eq_false_iff.mp ?_)
    split_ifs
    · rfl
    · exact hrel _ hdot
    · rfl
    · exact hrel _ hname

/-- A machine on which one directory exists, with those above it. -/
def oneDirectory (leaf : Place) (h : ∀ n ∈ leaf, n.isEntry) : Files where
  isDir p := decide (Path.isAbsolute p ∧ p.normal <+: leaf)
  present p := decide (Path.isAbsolute p ∧ p.normal <+: leaf)
  createDirAll _ := true
  canonicalize p := if Path.isAbsolute p ∧ p.normal <+: leaf then some p.normal else none
  canonicalize_names p q hp n hn := by
    simp only [Option.ite_none_right_eq_some, Option.some.injEq] at hp
    obtain ⟨⟨-, hpre⟩, rfl⟩ := hp
    exact h n (hpre.subset hn)
  canonicalize_above p q r hp := by
    simp only [Option.ite_none_right_eq_some, Option.some.injEq] at hp ⊢
    obtain ⟨⟨-, hpre⟩, heq⟩ := hp
    have hq : q <+: leaf := (List.prefix_append q r).trans (heq ▸ hpre)
    have hnormal := normal_absolute fun n hn => h n (hq.subset hn)
    exact ⟨⟨isAbsolute_absolute, by rwa [hnormal]⟩, hnormal⟩
  canonicalize_child p d n q hd hn hq := by
    simp only [Option.ite_none_right_eq_some, Option.some.injEq] at hq
    obtain ⟨⟨habs, -⟩, rfl⟩ := hq
    obtain ⟨hp, hnormal⟩ := parent_of_absolute hd habs hn
    have hfull : (absolute p.normal).normal = p.normal :=
      normal_absolute_of_isNormal fun m hm => (List.mem_filter.mp hm).2
    rw [← hnormal, hfull]
    simp [hp, isAbsolute_absolute]
  present_canonical p q hp := by
    simp only [Option.ite_none_right_eq_some, Option.some.injEq] at hp
    obtain ⟨⟨-, hpre⟩, rfl⟩ := hp
    have hnormal := normal_absolute fun n hn => h n (hpre.subset hn)
    simpa [isAbsolute_absolute, hnormal] using hpre
  createDirAll_above _ _ _ _ := rfl

def nestedMirrors : Bool → Claimant := fun i =>
  .run (oneDirectory (["srv", "a", "b"].map fun t => .text t.toList) (by decide)) none
    { name := "mirror".toList
      storage := Path.ofText (if i then "/srv/a".toList else "/srv/a/b".toList)
      storageName := none
      statistics := .provider
      snapshotPolicy := .never }

/-- Two mirrors without a storage section, one inside the other, are written at the same time. -/
theorem nested_mirrors_not_exclusive :
    ¬∀ as s, Runs.exec (Flock.step fun i => (nestedMirrors i).plan) Flock.init as = some s →
      Exclusive nestedMirrors s ∧ ∀ i, s.phase i = .idle → ∀ l, (i, l) ∉ s.table := by
  intro h
  obtain ⟨r, r', hr, hr', hm⟩ : ∃ r r', (nestedMirrors true).reserved = some r ∧
      (nestedMirrors false).reserved = some r' ∧ ¬r.Meets r' := ⟨_, _, rfl, rfl, by decide⟩
  obtain ⟨as, s, hexec, hi, hj⟩ := both_hold_of_not_meets (by decide) hr hr' hm
  exact (h as s hexec).1 true false (by decide) hi hj ⟨_, rfl, _, rfl, .inl (by decide)⟩

end Synora.Storage
