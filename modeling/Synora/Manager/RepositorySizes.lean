import Mathlib.Data.Char
import Mathlib.Data.List.Destutter
import Mathlib.Data.List.Lex
import Synora.Lib.Table
import Synora.Storage.Locks

namespace Synora.Manager
open Strings Mirror Storage

/-! # Repository sizes -/

def sizeKeysFor (ctx : Option RunStorageCtx) (job : MirrorSpec) : List Text :=
  let raw := display job.storage
  let resolved := (ctx.map fun c => display (c.resolveStoragePath job)).getD raw
  let keys := [job.name, raw, resolved] ++
    ((fileName (Path.ofText resolved)).bind OsName.toStr).toList
  (keys.insertionSort (· ≤ ·)).destutter (· ≠ ·)

/-- Rows of `repositories`: a path with its size. -/
abbrev Repositories := List (Text × ℤ)

def setRepositorySize (path : Text) (size : ℤ) (rows : Repositories) : Repositories :=
  Table.upsert Prod.fst (path, size) (fun r => (r.1, size)) rows

/-- A successful completion of `job` that reports a size; the statements that the database refuses
are ignored. -/
structure Report where
  job : MirrorSpec
  size : ℤ
  stores : Text → Bool

def persistRepositorySize (ctx : Option RunStorageCtx) (rows : Repositories) (c : Report) :
    Repositories :=
  (sizeKeysFor ctx c.job).foldl
    (fun rows key => if c.stores key then setRepositorySize key c.size rows else rows) rows

def sizeAt (rows : Repositories) (key : Text) : Option ℤ :=
  (Table.lookup Prod.fst key rows).map Prod.snd

/-- `size_bytes`, as `list_jobs` shows it. -/
def sizeBytes (ctx : Option RunStorageCtx) (rows : Repositories) (job : MirrorSpec) : Option ℤ :=
  (sizeKeysFor ctx job).findSome? (sizeAt rows)

def persistAll (ctx : Option RunStorageCtx) (rows : Repositories) (cs : List Report) :
    Repositories :=
  cs.foldl (persistRepositorySize ctx) rows

/-! ## The keys of a job -/

/-- What the size of a job is stored under: its name, its storage path as written and as resolved,
and the last name of that path. -/
def Spells (ctx : Option RunStorageCtx) (job : MirrorSpec) (key : Text) : Prop :=
  key = job.name ∨ key = display job.storage ∨ key = display (localStorage ctx job) ∨
    fileName (Path.ofText (display (localStorage ctx job))) = some (.text key)

section
variable {ctx : Option RunStorageCtx} {job : MirrorSpec} {key : Text} {rows : Repositories}

theorem mem_destutter_ne {α : Type*} [DecidableEq α] {x : α} (a : α) (l : List α) :
    x ∈ l.destutter' (· ≠ ·) a ↔ x ∈ a :: l := by
  induction l generalizing a with
  | nil => rfl
  | cons b l ih =>
    by_cases hab : a = b
    · subst hab
      rw [List.destutter'_cons_neg l (not_not.mpr rfl), ih]
      simp
    · rw [List.destutter'_cons_pos l hab, List.mem_cons, ih]
      exact List.mem_cons.symm

theorem head_destutter {α : Type*} [DecidableEq α] (a : α) (l : List α) :
    ∃ rest, l.destutter' (· ≠ ·) a = a :: rest := by
  induction l with
  | nil => exact ⟨[], rfl⟩
  | cons b l ih =>
    by_cases hab : a = b
    · subst hab
      rw [List.destutter'_cons_neg l (not_not.mpr rfl)]
      exact ih
    · exact ⟨_, List.destutter'_cons_pos l hab⟩

/-- The keys come with the least one first. -/
theorem sizeKeysFor_eq (ctx : Option RunStorageCtx) (job : MirrorSpec) :
    (∀ key, key ∈ sizeKeysFor ctx job ↔ Spells ctx job key) ∧
    ∃ m rest, sizeKeysFor ctx job = m :: rest ∧ ∀ key, Spells ctx job key → m ≤ key := by
  have hresolved : (ctx.map fun c => display (c.resolveStoragePath job)).getD
      (display job.storage) = display (localStorage ctx job) := by cases ctx <;> rfl
  have hbase : ∀ key, key ∈ ((fileName (Path.ofText (display (localStorage ctx job)))).bind
      OsName.toStr).toList ↔
        fileName (Path.ofText (display (localStorage ctx job))) = some (.text key) := by
    intro key
    rw [Option.mem_toList, Option.bind_eq_some_iff]
    constructor
    · rintro ⟨n, hn, hkey⟩
      cases n with
      | text t => rw [hn, Option.some.inj hkey]
      | other b => cases hkey
    · exact fun h => ⟨_, h, rfl⟩
  unfold sizeKeysFor
  simp only [hresolved]
  generalize hkeys : [job.name, display job.storage, display (localStorage ctx job)] ++
    ((fileName (Path.ofText (display (localStorage ctx job)))).bind OsName.toStr).toList = keys
  have hmem (key : Text) : key ∈ keys ↔ Spells ctx job key := by
    rw [← hkeys, List.mem_append, hbase]
    simp [Spells, or_assoc]
  have hsorted := List.pairwise_insertionSort (· ≤ ·) keys
  have hsort (key : Text) : key ∈ keys.insertionSort (· ≤ ·) ↔ Spells ctx job key := by
    rw [List.mem_insertionSort, hmem]
  cases hl : keys.insertionSort (· ≤ ·) with
  | nil => exact absurd ((hsort job.name).mpr (.inl rfl)) (by rw [hl]; exact List.not_mem_nil)
  | cons m l =>
    rw [hl] at hsort hsorted
    obtain ⟨rest, hrest⟩ := head_destutter m l
    refine ⟨fun key => (mem_destutter_ne m l).trans (hsort key), m, rest, hrest, fun key hkey => ?_⟩
    obtain rfl | hlater := List.mem_cons.mp ((hsort key).mpr hkey)
    · exact le_rfl
    · exact (List.pairwise_cons.mp hsorted).1 key hlater

theorem sizeAt_setRepositorySize (path : Text) (size : ℤ) (rows : Repositories) (key : Text) :
    sizeAt (setRepositorySize path size rows) key =
      if key = path then some size else sizeAt rows key := by
  unfold sizeAt setRepositorySize
  split_ifs with hkey
  · subst hkey
    have hself := @Table.lookup_upsert_self (Text × ℤ) Text _ Prod.fst (key, size)
      (fun r => (r.1, size)) rows fun _ => rfl
    rw [hself]
    cases Table.lookup Prod.fst key rows <;> rfl
  · have hother : Table.lookup Prod.fst key
        (Table.upsert Prod.fst (path, size) (fun r => (r.1, size)) rows) =
          Table.lookup Prod.fst key rows := Table.lookup_upsert_of_ne rows (fun _ => rfl) hkey
    rw [hother]

/-- A report is stored under the keys of its job, and nowhere else. -/
theorem sizeAt_persist (ctx : Option RunStorageCtx) (rows : Repositories) (c : Report)
    (key : Text) : sizeAt (persistRepositorySize ctx rows c) key =
      if key ∈ sizeKeysFor ctx c.job ∧ c.stores key then some c.size else sizeAt rows key := by
  unfold persistRepositorySize
  induction sizeKeysFor ctx c.job generalizing rows with
  | nil => simp
  | cons k ks ih =>
    rw [List.foldl_cons, ih]
    by_cases hstores : c.stores k
    · rw [if_pos hstores, sizeAt_setRepositorySize]
      by_cases hk : key = k
      · subst hk
        simp [hstores]
      · simp [hk]
    · rw [if_neg hstores]
      by_cases hk : key = k
      · subst hk
        simp [hstores]
      · simp [hk]

end

/-! ## Isolation -/

/-- The size that was last reported for the storage path of `job`. -/
def lastReported (ctx : Option RunStorageCtx) (cs : List Report) (job : MirrorSpec) : Option ℤ :=
  ((cs.filter fun c => decide ((localStorage ctx c.job).Same (localStorage ctx job))).getLast?).map
    Report.size

/-- A report leaves the jobs with other storage paths alone, and a job that has reported shows what
was last reported for its path, unless the database refused some statement. -/
structure Isolated (ctx : Option RunStorageCtx) (jobs : List MirrorSpec) : Prop where
  other : ∀ rows (c : Report), c.job ∈ jobs → ∀ job ∈ jobs,
    ¬(localStorage ctx job).Same (localStorage ctx c.job) →
    sizeBytes ctx (persistRepositorySize ctx rows c) job = sizeBytes ctx rows job
  own : ∀ rows (cs : List Report), (∀ c ∈ cs, c.job ∈ jobs ∧ ∀ key, c.stores key) →
    ∀ job ∈ jobs, (∃ c ∈ cs, c.job = job) →
    sizeBytes ctx (persistAll ctx rows cs) job = lastReported ctx cs job

/-- Jobs with different storage paths have no key in common; the first key of a job is one of every
job with the same storage path. -/
structure KeysApart (ctx : Option RunStorageCtx) (jobs : List MirrorSpec) : Prop where
  disjoint : ∀ a ∈ jobs, ∀ b ∈ jobs, ¬(localStorage ctx b).Same (localStorage ctx a) →
    ∀ key, Spells ctx a key → ¬Spells ctx b key
  shared : ∀ a ∈ jobs, ∀ b ∈ jobs, (localStorage ctx b).Same (localStorage ctx a) →
    ∀ key, Spells ctx b key → (∀ k, Spells ctx b k → key ≤ k) → Spells ctx a key

section
variable {ctx : Option RunStorageCtx} {jobs : List MirrorSpec} {a b : MirrorSpec} {key : Text}

theorem sizeBytes_of_first {rows : Repositories} {v : ℤ} (hkey : Spells ctx b key)
    (hfirst : ∀ k, Spells ctx b k → key ≤ k) (hv : sizeAt rows key = some v) :
    sizeBytes ctx rows b = some v := by
  obtain ⟨hmem, m, rest, hkeys, hleast⟩ := sizeKeysFor_eq ctx b
  have hm : Spells ctx b m := (hmem m).mp (hkeys ▸ List.mem_cons_self)
  obtain rfl : m = key := le_antisymm (hleast key hkey) (hfirst m hm)
  rw [sizeBytes, hkeys, List.findSome?_cons, hv]

/-- What the first key of a job holds is what was last reported for its path. -/
theorem KeysApart.sizeAt_persistAll (h : KeysApart ctx jobs) (hb : b ∈ jobs)
    (hkey : Spells ctx b key) (hfirst : ∀ k, Spells ctx b k → key ≤ k) (rows : Repositories)
    (cs : List Report) (hcs : ∀ c ∈ cs, c.job ∈ jobs ∧ ∀ key, c.stores key) :
    sizeAt (persistAll ctx rows cs) key = (lastReported ctx cs b).or (sizeAt rows key) := by
  induction cs using List.reverseRecOn with
  | nil => rfl
  | append_singleton cs c ih =>
    have hc := hcs c (by simp)
    unfold persistAll lastReported at ih ⊢
    rw [List.foldl_append, List.foldl_cons, List.foldl_nil, sizeAt_persist, List.filter_append,
      ih fun c hmem => hcs c (List.mem_append_left _ hmem)]
    by_cases hsame : (localStorage ctx c.job).Same (localStorage ctx b)
    · have hspells := h.shared c.job hc.1 b hb ⟨hsame.1.symm, hsame.2.symm⟩ key hkey hfirst
      rw [if_pos ⟨((sizeKeysFor_eq ctx c.job).1 key).mpr hspells, hc.2 key⟩]
      simp [hsame]
    · have hspells := h.disjoint b hb c.job hc.1 hsame key hkey
      rw [if_neg fun hin => hspells (((sizeKeysFor_eq ctx c.job).1 key).mp hin.1)]
      simp [hsame]

theorem KeysApart.isolated (h : KeysApart ctx jobs) : Isolated ctx jobs where
  other rows c hc job hjob hother := by
    have hkeys : ∀ key ∈ sizeKeysFor ctx job,
        sizeAt (persistRepositorySize ctx rows c) key = sizeAt rows key := by
      intro key hkey
      rw [sizeAt_persist, if_neg fun hin => ?_]
      exact h.disjoint c.job hc job hjob hother key (((sizeKeysFor_eq ctx c.job).1 key).mp hin.1)
        (((sizeKeysFor_eq ctx job).1 key).mp hkey)
    unfold sizeBytes
    revert hkeys
    induction sizeKeysFor ctx job with
    | nil => exact fun _ => rfl
    | cons k ks ih =>
      intro hkeys
      rw [List.findSome?_cons, List.findSome?_cons, hkeys k List.mem_cons_self,
        ih fun key hkey => hkeys key (List.mem_cons_of_mem _ hkey)]
  own rows cs hcs job hjob := by
    rintro ⟨c, hc, rfl⟩
    obtain ⟨hmem, m, rest, hkeys, hleast⟩ := sizeKeysFor_eq ctx c.job
    have hm : Spells ctx c.job m := (hmem m).mp (hkeys ▸ List.mem_cons_self)
    have hreported : (lastReported ctx cs c.job).isSome := by
      rw [lastReported, Option.isSome_map, List.getLast?_isSome]
      exact List.ne_nil_of_mem (List.mem_filter.mpr ⟨hc, by simp [Path.Same]⟩)
    obtain ⟨v, hv⟩ := Option.isSome_iff_exists.mp hreported
    have hat := h.sizeAt_persistAll hjob hm hleast rows cs hcs
    rw [hv] at hat ⊢
    exact sizeBytes_of_first hm hleast hat

/-- Two jobs with a key in common: a report of one shows up at the other. -/
theorem not_isolated_of_common (key : Text) (ha : a ∈ jobs) (hb : b ∈ jobs)
    (hother : ¬(localStorage ctx b).Same (localStorage ctx a)) (hka : Spells ctx a key)
    (hkb : Spells ctx b key) : ¬Isolated ctx jobs := by
  intro h
  have hkeep := h.other [] ⟨a, 0, fun _ => true⟩ ha b hb hother
  have hnone : sizeBytes ctx [] b = none := List.findSome?_eq_none_iff.mpr fun _ _ => rfl
  rw [hnone, sizeBytes, List.findSome?_eq_none_iff] at hkeep
  have hat := hkeep key (((sizeKeysFor_eq ctx b).1 key).mpr hkb)
  rw [sizeAt_persist, if_pos ⟨((sizeKeysFor_eq ctx a).1 key).mpr hka, rfl⟩] at hat
  cases hat

theorem Isolated.keysApart (h : Isolated ctx jobs) : KeysApart ctx jobs where
  disjoint a ha b hb hother key hka hkb := not_isolated_of_common key ha hb hother hka hkb h
  shared a ha b hb hsame key hkey hfirst := by
    by_contra hno
    -- the older report stays under the first key, where the newer one does not go
    have hshown := h.own [] [⟨b, 0, fun _ => true⟩, ⟨a, 1, fun _ => true⟩]
      (by simp [ha, hb]) b hb ⟨_, List.mem_cons_self, rfl⟩
    have hlast : lastReported ctx [⟨b, 0, fun _ => true⟩, ⟨a, 1, fun _ => true⟩] b = some 1 := by
      have hab : (localStorage ctx a).Same (localStorage ctx b) := ⟨hsame.1.symm, hsame.2.symm⟩
      have hbb : (localStorage ctx b).Same (localStorage ctx b) := ⟨rfl, rfl⟩
      simp [lastReported, hab, hbb]
    have hold : sizeAt (persistAll ctx [] [⟨b, 0, fun _ => true⟩, ⟨a, 1, fun _ => true⟩]) key =
        some 0 := by
      rw [persistAll, List.foldl_cons, List.foldl_cons, List.foldl_nil, sizeAt_persist,
        if_neg fun hin => hno (((sizeKeysFor_eq ctx a).1 key).mp hin.1), sizeAt_persist,
        if_pos ⟨((sizeKeysFor_eq ctx b).1 key).mpr hkey, rfl⟩]
    rw [hlast, sizeBytes_of_first hkey hfirst hold] at hshown
    cases hshown

end

/-- Sizes are kept apart, over every sequence of reports, exactly when the keys of the jobs are. -/
theorem sizes_isolated_iff (ctx : Option RunStorageCtx) (jobs : List MirrorSpec) :
    Isolated ctx jobs ↔ KeysApart ctx jobs :=
  ⟨Isolated.keysApart, KeysApart.isolated⟩

def debianOn (name disk : String) : MirrorSpec where
  name := name.toList
  storage := Path.ofText ("/" ++ disk ++ "/debian").toList
  storageName := none
  statistics := .provider
  snapshotPolicy := .never

/-- Two mirrors in directories of one name, on two disks. -/
theorem same_directory_name_not_isolated :
    ¬Isolated none [debianOn "main" "disk1", debianOn "archive" "disk2"] :=
  not_isolated_of_common "debian".toList List.mem_cons_self
    (List.mem_cons_of_mem _ List.mem_cons_self) (by decide) (.inr (.inr (.inr (by decide))))
    (.inr (.inr (.inr (by decide))))

end Synora.Manager
