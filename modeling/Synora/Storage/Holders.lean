import Mathlib.Data.List.Infix
import Synora.Storage.Locks

namespace Synora.Storage
open Strings Mirror

/-! # The locks below one root, call by call -/

/-- What one call finds: the root is where it is for every call, and some lock files can be
opened. -/
structure Finds (root : Path) (r : Place) extends Files where
  canonical_root : canonicalize root = some r
  present_root : present root
  opens : Place → Bool

/-- Where the path leads, if it leads anywhere. -/
def Files.Names (fs : Files) (path : Path) (q : Place) : Prop :=
  ∀ q', fs.mirrorPlace path = some q' → q' = q

inductive Call (root : Path) (r : Place)
  /-- `acquire_under(root, path)` -/
  | under (fs : Finds root r) (path : Path)
  /-- `acquire(root)` -/
  | whole (fs : Finds root r)

variable {root : Path} {r q : Place}

namespace Call

def finds : Call root r → Finds root r
  | under fs _ => fs
  | whole fs => fs

def plan : Call root r → Flock.Plan Place
  | under fs path => fs.acquireUnder root path
  | whole fs => fs.acquire root

/-- The place that is locked exclusively. -/
def place : Call root r → Option Place
  | under fs path => fs.mirrorPlace path
  | whole _ => some r

def attempt (c : Call root r) (i : ℕ) (table : List (ℕ × Flock.Lock Place)) :
    Bool × List (ℕ × Flock.Lock Place) :=
  Flock.attempt c.finds.opens c.plan.opens i table c.plan.locks

/-- The file system is not in the way: the path leads to `q`, and the lock files of the directories
from the root down to it can be opened. -/
structure Unhindered (c : Call root r) (q : Place) : Prop where
  place : c.place = some q
  locked : (c.finds.lockedPlace (absolute q)).isSome
  opens : ∀ d, r <+: d → d <+: q → c.finds.opens (lockFile d)

end Call

/-- The live `StorageLock` values with the places they were acquired for, and the locks of their
open files. -/
structure Holders where
  held : List (ℕ × Place)
  table : List (ℕ × Flock.Lock Place)

inductive Request (root : Path) (r : Place)
  | call (i : ℕ) (c : Call root r)
  | drop (i : ℕ)

namespace Holders

def nobody : Holders := ⟨[], []⟩

def step (s : Holders) : Request root r → Option Holders
  | .call i c =>
    if i ∈ s.held.map Prod.fst then none
    else match c.attempt i s.table with
      | (true, table) => some ⟨c.place.toList.map (Prod.mk i) ++ s.held, table⟩
      | (false, table) => some { s with table := table }
  | .drop i => some ⟨s.held.filter fun e => decide (e.1 ≠ i),
      s.table.filter fun e => decide (e.1 ≠ i)⟩

/-- Somebody holds a place that is `q`, lies above it or lies below it. -/
def Overlaps (s : Holders) (q : Place) : Prop := ∃ e ∈ s.held, e.2 <+: q ∨ q <+: e.2

instance (s : Holders) (q : Place) : Decidable (s.Overlaps q) :=
  inferInstanceAs (Decidable (∃ e ∈ s.held, _))

/-- The table has the locks of the holders, and no others. -/
structure Exact (r : Place) (s : Holders) : Prop where
  below : ∀ e ∈ s.held, r <+: e.2
  table : ∀ i l, (i, l) ∈ s.table ↔
    ∃ q, (i, q) ∈ s.held ∧ l ∈ chainLocks r (q.drop r.length)

end Holders

/-! ## One call -/

namespace Call
variable {c : Call root r} {i : ℕ} {table : List (ℕ × Flock.Lock Place)}

/-- Opening `root` itself locks the place it leads to. -/
theorem lockedPlace_root_eq (hr : r ≠ []) (fs : Finds root r) :
    fs.lockedPlace root = some r ∧ fs.lockedPlace (absolute r) = some r := by
  obtain ⟨d, n, rfl⟩ := (List.eq_nil_or_concat' r).resolve_left hr
  have hcanonical : fs.canonicalize (absolute (d ++ [n])) = some (d ++ [n]) :=
    fs.canonicalize_above root _ [] (by rw [List.append_nil]; exact fs.canonical_root)
  have hplace := lockedPlace_of_canonical hcanonical
  refine ⟨?_, hplace⟩
  rw [← hplace]
  simp only [Files.lockedPlace, Files.resolved, fs.present_root, if_true, fs.canonical_root,
    fs.present_canonical _ _ hcanonical, hcanonical]

theorem plan_opens (hr : r ≠ []) (hplace : c.place = some q) (hbelow : r <+: q)
    (hlocked : (c.finds.lockedPlace (absolute q)).isSome) :
    c.plan = ⟨chainLocks r (q.drop r.length), true⟩ := by
  cases c with
  | whole fs =>
    obtain rfl := Option.some.inj hplace
    simp [plan, Files.acquire, (lockedPlace_root_eq hr fs).1, chainLocks]
  | under fs path =>
    have hsettled := settled_mirrorPlace hplace
    have heq := List.prefix_iff_eq_append.mp hbelow
    rw [← heq] at hsettled hlocked
    have hopens := acquireChain_opens hsettled hr hlocked
    simp only [plan, Files.acquireUnder, fs.canonical_root]
    rw [show fs.mirrorPlace path = some q from hplace]
    simp only [if_pos hbelow]
    rw [← (acquireChain_locks hsettled hopens).1, ← hopens]

theorem place_of_opens (hr : r ≠ []) (h : c.plan.opens = true) :
    ∃ q, c.place = some q ∧ r <+: q ∧ (c.finds.lockedPlace (absolute q)).isSome := by
  cases c with
  | whole fs => exact ⟨r, rfl, List.prefix_rfl, by simp [finds, (lockedPlace_root_eq hr fs).2]⟩
  | under fs path =>
    simp only [plan, Files.acquireUnder, fs.canonical_root] at h
    split at h
    · rename_i r' q hr' hplace
      obtain rfl := Option.some.inj hr'
      split at h
      · rename_i hbelow
        have hsettled := settled_mirrorPlace hplace
        have heq := List.prefix_iff_eq_append.mp hbelow
        rw [← heq] at hsettled
        have hlast := (acquireChain_locks hsettled h).2.2
        rw [heq] at hlast
        exact ⟨q, hplace, hbelow, hlast⟩
      · cases h
    · cases h

theorem mem_chain (hbelow : r <+: q) {l : Flock.Lock Place} :
    l ∈ chainLocks r (q.drop r.length) ↔ ∃ d, r <+: d ∧ d <+: q ∧
      l = ⟨lockFile d, if d = q then .exclusive else .shared⟩ := by
  rw [mem_chainLocks, List.prefix_iff_eq_append.mp hbelow]

/-- Two places below one root: their locks clash when one of them lies below the other. -/
theorem chain_clashes_iff (hr : r ≠ []) {q' : Place} (hq' : r <+: q') (hq : r <+: q) :
    (∃ l' ∈ chainLocks r (q'.drop r.length), ∃ l ∈ chainLocks r (q.drop r.length),
      l'.Clashes l) ↔ q' <+: q ∨ q <+: q' := by
  have hclash := @Reserved.clash_iff ⟨r, q', hr, hq'⟩ ⟨r, q, hr, hq⟩
  simpa [Reserved.Meets, Reserved.locks, hq, hq'] using hclash

/-- A call succeeds when nothing is in its way: no holder, and nothing in the file system. -/
theorem attempt_iff {s : Holders} (hr : r ≠ []) (hs : s.Exact r) :
    (c.attempt i s.table).1 = true ↔
      ∃ q, r <+: q ∧ c.Unhindered q ∧ ¬s.Overlaps q := by
  constructor
  · intro h
    have hopens : c.plan.opens = true := by
      by_contra hno
      rw [attempt, Bool.eq_false_iff.mpr hno, Flock.attempt_refused] at h
      cases h
    obtain ⟨q, hplace, hbelow, hlocked⟩ := place_of_opens hr hopens
    rw [attempt, plan_opens hr hplace hbelow hlocked,
      Flock.attempt_iff (chainLocks_compatible hr)] at h
    obtain ⟨-, hfiles, hclash⟩ := h
    refine ⟨q, hbelow, ⟨hplace, hlocked, fun d hd hdq => ?_⟩, ?_⟩
    · exact hfiles _ ((mem_chain hbelow).mpr ⟨d, hd, hdq, rfl⟩)
    · rintro ⟨⟨j, q'⟩, hheld, hover⟩
      obtain ⟨l', hl', l, hl, hc⟩ := (chain_clashes_iff hr (hs.below _ hheld) hbelow).mpr hover
      exact hclash (j, l') ((hs.table j l').mpr ⟨q', hheld, hl'⟩) l hl hc
  · rintro ⟨q, hbelow, ⟨hplace, hlocked, hfiles⟩, hfree⟩
    rw [attempt, plan_opens hr hplace hbelow hlocked,
      Flock.attempt_iff (chainLocks_compatible hr)]
    refine ⟨rfl, fun l hl => ?_, fun e he l hl hc => ?_⟩
    · obtain ⟨d, hd, hdq, rfl⟩ := (mem_chain hbelow).mp hl
      exact hfiles d hd hdq
    · obtain ⟨q', hheld, hl'⟩ := (hs.table e.1 e.2).mp he
      exact hfree ⟨_, hheld,
        (chain_clashes_iff hr (hs.below _ hheld) hbelow).mp ⟨_, hl', l, hl, hc⟩⟩

/-- A call that fails leaves the open files as they are. -/
theorem attempt_failed {s : Holders} (hs : s.Exact r) (hi : i ∉ s.held.map Prod.fst)
    (h : (c.attempt i s.table).1 = false) : (c.attempt i s.table).2 = s.table := by
  refine Flock.attempt_failed [] (List.forall_mem_nil _) (fun e he hself => ?_) h
  obtain ⟨q, hheld, -⟩ := (hs.table e.1 e.2).mp he
  exact hi (List.mem_map.mpr ⟨_, hheld, hself⟩)

end Call

/-! ## Whole runs -/

namespace Holders
variable {s s' : Holders} {a : Request root r}

theorem nobody_exact : nobody.Exact r := ⟨List.forall_mem_nil _, by simp [nobody]⟩

theorem Exact.step (hr : r ≠ []) (hs : s.Exact r) (h : s.step a = some s') : s'.Exact r := by
  cases a with
  | drop i =>
    obtain rfl := Option.some.inj h
    refine ⟨fun e he => hs.below e (List.mem_filter.mp he).1, fun j l => ?_⟩
    simp only [List.mem_filter, hs.table j l, decide_eq_true_eq]
    constructor
    · rintro ⟨⟨q, hheld, hl⟩, hne⟩
      exact ⟨q, ⟨hheld, hne⟩, hl⟩
    · rintro ⟨q, ⟨hheld, hne⟩, hl⟩
      exact ⟨⟨q, hheld, hl⟩, hne⟩
  | call i c =>
    simp only [Holders.step, Option.ite_none_left_eq_some] at h
    obtain ⟨hi, h⟩ := h
    split at h
    · rename_i table hattempt
      obtain rfl := Option.some.inj h
      have hdone : (c.attempt i s.table).1 = true := by rw [hattempt]
      obtain ⟨q, hbelow, ⟨hplace, hlocked, -⟩, -⟩ := (Call.attempt_iff hr hs).mp hdone
      have htable : table = (c.plan.locks.map (Prod.mk i)).reverse ++ s.table :=
        (congrArg Prod.snd hattempt).symm.trans (Flock.attempt_succeeded hdone)
      rw [Call.plan_opens hr hplace hbelow hlocked] at htable
      subst htable
      rw [hplace]
      refine ⟨List.forall_mem_cons.mpr ⟨hbelow, hs.below⟩, fun j l => ?_⟩
      simp only [Option.toList_some, List.map_singleton, List.mem_append, List.mem_reverse,
        List.mem_map, Prod.mk.injEq, List.mem_singleton, hs.table j l]
      constructor
      · rintro (⟨l', hl', rfl, rfl⟩ | ⟨q', hheld, hl⟩)
        · exact ⟨q, .inl ⟨rfl, rfl⟩, hl'⟩
        · exact ⟨q', .inr hheld, hl⟩
      · rintro ⟨q', ⟨rfl, rfl⟩ | hheld, hl⟩
        · exact .inl ⟨l, hl, rfl, rfl⟩
        · exact .inr ⟨q', hheld, hl⟩
    · rename_i table hattempt
      obtain rfl := Option.some.inj h
      have hkept := Call.attempt_failed (c := c) hs hi (by rw [hattempt])
      rw [hattempt] at hkept
      obtain rfl : table = s.table := hkept
      exact hs

theorem exec_exact (hr : r ≠ []) {requests : List (Request root r)}
    (h : Runs.exec step nobody requests = some s) : s.Exact r :=
  Runs.exec_invariant _ (Exact r) (fun _ _ _ hs ht => hs.step hr ht) nobody_exact h

end Holders

/-- After every run of calls: `acquire_under` gives the lock exactly to the paths that overlap no
held one, provided that the file system is not in the way of a path that overlaps none; `acquire`
of the root likewise; nothing goes below a root that is held; a call that fails leaves the table
alone; and a path outside the root is refused. -/
theorem overlaps_excluded_iff (hr : r ≠ []) (requests : List (Request root r)) (s : Holders)
    (h : Runs.exec Holders.step Holders.nobody requests = some s) (i : ℕ)
    (hi : i ∉ s.held.map Prod.fst) :
    (∀ (fs : Finds root r) path q, fs.Names path q → r <+: q →
      ((((Call.under fs path).attempt i s.table).1 = true ↔ ¬s.Overlaps q) ↔
        s.Overlaps q ∨ (Call.under fs path).Unhindered q)) ∧
    (∀ fs : Finds root r, (((Call.whole fs).attempt i s.table).1 = true ↔ s.held = []) ↔
      s.held ≠ [] ∨ fs.opens (lockFile r)) ∧
    (∀ (fs : Finds root r) path j, (j, r) ∈ s.held →
      ((Call.under fs path).attempt i s.table).1 = false) ∧
    (∀ c : Call root r, (c.attempt i s.table).1 = false → (c.attempt i s.table).2 = s.table) ∧
    ∀ (fs : Finds root r) path q, fs.Names path q → ¬r <+: q →
      ((Call.under fs path).attempt i s.table).1 = false := by
  have hs := Holders.exec_exact hr h
  refine ⟨fun fs path q hnames hbelow => ?_, fun fs => ?_, fun fs path j hheld => ?_,
    fun c hfail => c.attempt_failed hs hi hfail, fun fs path q hnames hout => ?_⟩
  · have hiff : ((Call.under fs path).attempt i s.table).1 = true ↔
        (Call.under fs path).Unhindered q ∧ ¬s.Overlaps q := by
      rw [Call.attempt_iff hr hs]
      constructor
      · rintro ⟨q', -, hclear, hfree⟩
        obtain rfl := hnames q' hclear.place
        exact ⟨hclear, hfree⟩
      · rintro ⟨hclear, hfree⟩
        exact ⟨q, hbelow, hclear, hfree⟩
    rw [hiff]
    tauto
  · have hheld : s.held = [] ↔ ¬s.Overlaps r := by
      rw [List.eq_nil_iff_forall_not_mem]
      constructor
      · rintro hnone ⟨e, he, -⟩
        exact hnone e he
      · exact fun hfree e he => hfree ⟨e, he, .inr (hs.below e he)⟩
    have hclear : (Call.whole fs).Unhindered r ↔ fs.opens (lockFile r) = true := by
      constructor
      · exact fun hclear => hclear.opens r List.prefix_rfl List.prefix_rfl
      · intro hopen
        refine ⟨rfl, by simp [Call.finds, (Call.lockedPlace_root_eq hr fs).2], fun d hd hdr => ?_⟩
        obtain rfl := hd.eq_of_length_le hdr.length_le
        exact hopen
    have hiff : ((Call.whole fs).attempt i s.table).1 = true ↔
        fs.opens (lockFile r) = true ∧ s.held = [] := by
      rw [Call.attempt_iff hr hs, hheld, ← hclear]
      constructor
      · rintro ⟨q', -, hclear, hfree⟩
        obtain rfl := Option.some.inj hclear.place
        exact ⟨hclear, hfree⟩
      · rintro ⟨hclear, hfree⟩
        exact ⟨r, List.prefix_rfl, hclear, hfree⟩
    rw [hiff]
    tauto
  · refine Bool.eq_false_iff.mpr fun hdone => ?_
    obtain ⟨q, hbelow, -, hfree⟩ := (Call.attempt_iff hr hs).mp hdone
    exact hfree ⟨_, hheld, .inl hbelow⟩
  · refine Bool.eq_false_iff.mpr fun hdone => ?_
    obtain ⟨q', hbelow, hclear, -⟩ := (Call.attempt_iff hr hs).mp hdone
    exact hout (hnames q' hclear.place ▸ hbelow)

/-! ### A mirror below the lock file of another -/

instance lawfulBEqPlace : LawfulBEq Place := List.instLawfulBEq

/-- A machine with these places, of which some are files. -/
def machine (places files : List Place) (hnames : ∀ q ∈ places, ∀ n ∈ q, n.isEntry)
    (habove : ∀ q ∈ places, ∀ p ∈ q.inits, p ∈ places)
    (hfiles : ∀ f ∈ files, ∀ q ∈ places, f <+: q → q = f) : Files where
  isDir p := decide (Path.isAbsolute p ∧ p.normal ∈ places ∧ p.normal ∉ files)
  present p := decide (Path.isAbsolute p ∧ p.normal ∈ places)
  createDirAll p := decide (∀ f ∈ files, ¬f <+: p.normal)
  canonicalize p := if Path.isAbsolute p ∧ p.normal ∈ places then some p.normal else none
  canonicalize_names p q hp n hn := by
    simp only [Option.ite_none_right_eq_some, Option.some.injEq] at hp
    obtain ⟨⟨-, hplace⟩, rfl⟩ := hp
    exact hnames _ hplace n hn
  canonicalize_above p q r hp := by
    simp only [Option.ite_none_right_eq_some, Option.some.injEq] at hp ⊢
    obtain ⟨⟨-, hplace⟩, heq⟩ := hp
    have hq := habove _ hplace q ((List.mem_inits _ _).mpr ⟨r, heq.symm⟩)
    have hnormal := normal_absolute fun n hn => hnames q hq n hn
    exact ⟨⟨isAbsolute_absolute, by rwa [hnormal]⟩, hnormal⟩
  canonicalize_child p d n q hd hn hq := by
    simp only [Option.ite_none_right_eq_some, Option.some.injEq] at hq
    obtain ⟨⟨habs, -⟩, rfl⟩ := hq
    obtain ⟨hp, hnormal⟩ := parent_of_absolute hd habs hn
    have hfull : (absolute p.normal).normal = p.normal :=
      normal_absolute_of_isNormal fun m hm => (List.mem_filter.mp hm).2
    rw [← hnormal, hfull]
    simp [hp, isAbsolute_absolute]
  present_canonical p q hp := by
    simp only [Option.ite_none_right_eq_some, Option.some.injEq] at hp
    obtain ⟨⟨-, hplace⟩, rfl⟩ := hp
    have hnormal := normal_absolute fun n hn => hnames _ hplace n hn
    simpa [isAbsolute_absolute, hnormal] using hplace
  createDirAll_above p q n hp := by
    simp only [Option.ite_none_right_eq_some, Option.some.injEq] at hp
    obtain ⟨⟨-, hplace⟩, heq⟩ := hp
    rw [heq] at hplace
    have hq := habove _ hplace q ((List.mem_inits _ _).mpr (List.prefix_append _ _))
    rw [decide_eq_true_eq, normal_absolute (hnames q hq)]
    intro f hf hpre
    -- a file has nothing below it
    have hself := hfiles f hf _ hplace (hpre.trans (List.prefix_append _ _))
    have hlen := hpre.length_le
    rw [← hself, List.length_append, List.length_singleton] at hlen
    exact absurd hlen (Nat.not_succ_le_self _)

def srv (names : List String) : Place := ("srv" :: names).map fun t => .text t.toList

/-- `/srv`, with the mirror `/srv/a`, its lock file if it has been locked before, and another mirror
`/srv/b`. -/
def srvFinds (locked : Bool) : Finds (Path.ofText "/srv".toList) (srv []) where
  toFiles := machine
    ([[], srv [], srv ["a"], srv ["b"]] ++ if locked then [srv [".synora-lock-a"]] else [])
    (if locked then [srv [".synora-lock-a"]] else [])
    (by cases locked <;> decide) (by cases locked <;> decide) (by cases locked <;> decide)
  canonical_root := by cases locked <;> decide
  present_root := by cases locked <;> decide
  opens _ := true

def lockMirror (locked : Bool) (path : String) : Call (Path.ofText "/srv".toList) (srv []) :=
  .under (srvFinds locked) (Path.ofText path.toList)

def holdingA : Holders where
  held := [(0, srv ["a"])]
  table := [(0, ⟨lockFile (srv ["a"]), .exclusive⟩), (0, ⟨lockFile (srv []), .shared⟩)]

/-- While the mirror `/srv/a` is held, its neighbour `/srv/b` can be locked. -/
theorem overlaps_excluded_iff_neighbour :
    Runs.exec Holders.step Holders.nobody [.call 0 (lockMirror false "/srv/a")] = some holdingA ∧
      ((lockMirror true "/srv/b").attempt 1 holdingA.table).1 = true := by
  refine ⟨rfl, ?_⟩
  have hexact := (overlaps_excluded_iff (by decide) [.call 0 (lockMirror false "/srv/a")]
    holdingA rfl 1 (by decide)).1 (srvFinds true) (Path.ofText "/srv/b".toList) (srv ["b"])
    (fun q' hq' => (Option.some.inj hq').symm) (by decide)
  have hclear : (lockMirror true "/srv/b").Unhindered (srv ["b"]) :=
    ⟨by decide, by decide, fun _ _ _ => rfl⟩
  exact (hexact.mpr (.inr hclear)).mpr (by decide)

/-- The lock file of `/srv/a` is in the way of a mirror below a directory of that name: nothing that
is held overlaps it, and it is refused. -/
theorem lock_file_in_the_way :
    Runs.exec Holders.step Holders.nobody [.call 0 (lockMirror false "/srv/a")] = some holdingA ∧
      (srvFinds true).Names (Path.ofText "/srv/.synora-lock-a/b".toList)
        (srv [".synora-lock-a", "b"]) ∧
      srv [] <+: srv [".synora-lock-a", "b"] ∧
      ¬(((lockMirror true "/srv/.synora-lock-a/b").attempt 1 holdingA.table).1 = true ↔
        ¬holdingA.Overlaps (srv [".synora-lock-a", "b"])) := by
  refine ⟨rfl, fun q' hq' => ?_, by decide, by decide⟩
  have hnowhere : (srvFinds true).mirrorPlace (Path.ofText "/srv/.synora-lock-a/b".toList) = none :=
    by decide
  rw [hnowhere] at hq'
  cases hq'

end Synora.Storage
