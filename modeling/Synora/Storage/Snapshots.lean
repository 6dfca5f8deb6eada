import Synora.Lib.Civil
import Synora.Lib.Toml
import Synora.Lib.Utf8
import Synora.Storage.Locks

namespace Synora.Storage
open Strings Utf8 Mirror Civil

/-! ## Retention settings -/

/-- How many snapshots each bucket keeps. -/
structure RetentionPolicy where
  keepLast : Option ℕ
  keepDaily : Option ℕ
  keepWeekly : Option ℕ
  keepMonthly : Option ℕ
deriving DecidableEq, Repr

def RetentionPolicy.default : RetentionPolicy := ⟨none, none, none, none⟩

/-- `value as u32` on an `i64`. -/
def asU32 (v : ℤ) : ℕ := (v % 2 ^ 32).toNat

/-- The section `[snapshot.policy]`. -/
def policySection (root : Toml.Table) : Option Toml.Table := do
  let snapshot ← (← root.lookup "snapshot".toList).asTable
  (← snapshot.lookup "policy".toList).asTable

/-- One bucket of the section, when it holds an integer. -/
def bucket (policy : Toml.Table) (key : Text) : Option ℕ :=
  ((policy.lookup key).bind Toml.Value.asInteger).map asU32

/-- The retention part of `parse_misc`. -/
def parseRetention (root : Toml.Table) : RetentionPolicy :=
  ((policySection root).map fun t =>
    { keepLast := bucket t "keep_last".toList
      keepDaily := bucket t "keep_daily".toList
      keepWeekly := bucket t "keep_weekly".toList
      keepMonthly := bucket t "keep_monthly".toList : RetentionPolicy }).getD .default

def bucketKeys : List Text :=
  ["keep_last", "keep_daily", "keep_weekly", "keep_monthly"].map String.toList

/-- The configuration sets no bucket: there is no section, or no key of it holds an integer. -/
def NoBucket (root : Toml.Table) : Prop :=
  ∀ t, policySection root = some t →
    ∀ key ∈ bucketKeys, (t.lookup key).bind Toml.Value.asInteger = none

theorem parseRetention_of_noBucket {root : Toml.Table} (h : NoBucket root) :
    parseRetention root = .default := by
  cases ht : policySection root with
  | none => rw [parseRetention, ht]; rfl
  | some t =>
    have hbucket (key : Text) (hkey : key ∈ bucketKeys) : bucket t key = none := by
      rw [bucket, h t ht key hkey, Option.map_none]
    rw [parseRetention, ht, Option.map_some, Option.getD_some, hbucket _ (by decide),
      hbucket _ (by decide), hbucket _ (by decide), hbucket _ (by decide)]
    rfl

/-! ## Names of snapshots -/

structure SnapshotInfo where
  name : Text
  /-- Unix seconds, 0 when the provider reports none. -/
  createdAt : ℤ
deriving DecidableEq, Repr

def digit (n : ℕ) : Char := Char.ofNat ('0'.toNat + n % 10)

def twoDigits (n : ℕ) : Text := [digit (n / 10), digit n]

def fourDigits (n : ℕ) : Text := twoDigits (n / 100) ++ twoDigits n

/-- `synora-YYYYMMDD-HHMMSS-UUID`, with a sign before a negative year -/
def formatName (date : Date) (second : ℕ) (runId : Text) : Text :=
  "synora-".toList ++ ((if date.year < 0 then ['-'] else []) ++ (fourDigits date.year.natAbs ++
    twoDigits date.month.toNat ++ twoDigits date.day.toNat ++
    '-' :: (twoDigits (second / 3600) ++ twoDigits (second / 60 % 60) ++ twoDigits (second % 60) ++
    '-' :: runId)))

def snapshotName (now : ℤ) (runId : Text) : Text :=
  formatName (ofDay (now / 86400)) (now % 86400).toNat runId

def parseDigits (b : Bytes) : Option ℕ :=
  if b.isEmpty ∨ ¬b.all fun c => decide (0x30 ≤ c ∧ c ≤ 0x39) then none
  else some (b.foldl (fun n c => n * 10 + (c.toNat - 0x30)) 0)

/-- The digits behind a plus sign. -/
def unsigned (b : Bytes) : Bytes := if b.head? = some 0x2b then b.tail else b

/-- `parse::<u8>` -/
def parseU8 (b : Bytes) : Option ℕ := (parseDigits (unsigned b)).filter fun n => decide (n < 2 ^ 8)

/-- `parse::<i32>` -/
def parseI32 (b : Bytes) : Option ℤ :=
  if b.head? = some 0x2d then
    ((parseDigits b.tail).filter fun n => decide (n ≤ 2 ^ 31)).map fun n => -(n : ℤ)
  else ((parseDigits (unsigned b)).filter fun n => decide (n < 2 ^ 31)).map Int.ofNat

/-- `Date::from_calendar_date`, as a day of the count -/
def fromCalendarDate (year month day : ℤ) : Option ℤ :=
  let date : Date := ⟨year, month, day⟩
  if -9999 ≤ year ∧ year ≤ 9999 ∧ date.Valid then some date.toDay else none

/-- `Time::from_hms`, in seconds -/
def fromHms (hour minute second : ℕ) : Option ℤ :=
  if hour < 24 ∧ minute < 60 ∧ second < 60 then some (hour * 3600 + minute * 60 + second) else none

def isAsciiHexDigit (b : UInt8) : Bool :=
  decide ((0x30 ≤ b ∧ b ≤ 0x39) ∨ (0x41 ≤ b ∧ b ≤ 0x46) ∨ (0x61 ≤ b ∧ b ≤ 0x66))

/-- The time without the suffix that follows it. -/
def timePart (time : Text) : Option Text :=
  match splitOnce ['-'] time with
  | some (time, suffix) =>
    if (encode suffix).length ≠ 36 ∨
        ¬(encode suffix).all fun b => isAsciiHexDigit b || decide (b = 0x2d) then none
    else some time
  | none => some time

/-- The wall time in a snapshot's name, as seconds of the local clock. A cut inside a character
leaves a byte that no number has. -/
def parseSnapshotName (name : Text) : Option ℤ := do
  let rest ← stripPrefix "synora-".toList name
  let (date, time) ← splitOnce ['-'] rest
  let time ← timePart time
  let date := encode date
  let time := encode time
  if date.length ≠ 8 ∨ time.length ≠ 6 then none
  else
    let year ← parseI32 (date.take 4)
    let month ← parseU8 ((date.drop 4).take 2)
    let dayOfMonth ← parseU8 ((date.drop 6).take 2)
    let day ← fromCalendarDate year month dayOfMonth
    let hour ← parseU8 (time.take 2)
    let minute ← parseU8 ((time.drop 2).take 2)
    let second ← parseU8 ((time.drop 4).take 2)
    let second ← fromHms hour minute second
    pure (day * 86400 + second)

def matchesSynora (name : Text) : Bool := (parseSnapshotName name).isSome

/-- What `Uuid` prints: 36 hexadecimal digits and dashes. -/
def IsUuid (runId : Text) : Prop :=
  (encode runId).length = 36 ∧
    (encode runId).all (fun b => isAsciiHexDigit b || decide (b = 0x2d)) = true

theorem encode_digits (ds : List ℕ) :
    encode (ds.map digit) = ds.map fun d => UInt8.ofNat (0x30 + d % 10) := by
  have hdigit : ∀ k < 10, String.utf8EncodeChar (Char.ofNat ('0'.toNat + k)) =
      [UInt8.ofNat (0x30 + k)] := by decide
  induction ds with
  | nil => rfl
  | cons d ds ih =>
    rw [List.map_cons, encode, List.flatMap_cons, digit, hdigit _ (Nat.mod_lt d (by decide)),
      List.map_cons, ← ih]
    rfl

theorem digits_all (ds : List ℕ) : (ds.map fun d => UInt8.ofNat (0x30 + d % 10)).all
    (fun c => decide (0x30 ≤ c ∧ c ≤ 0x39)) = true := by
  have hdigit : ∀ k < 10, 0x30 ≤ UInt8.ofNat (0x30 + k) ∧ UInt8.ofNat (0x30 + k) ≤ 0x39 := by decide
  rw [List.all_map, List.all_eq_true]
  intro d _
  exact decide_eq_true (hdigit _ (Nat.mod_lt d (by decide)))

theorem parseDigits_digits {ds : List ℕ} (hne : ds ≠ []) :
    parseDigits (encode (ds.map digit)) = some (ds.foldl (fun n d => n * 10 + d % 10) 0) := by
  have hvalue : ∀ k < 10, (UInt8.ofNat (0x30 + k)).toNat - 0x30 = k := by decide
  have hempty : (ds.map fun d => UInt8.ofNat (0x30 + d % 10)).isEmpty = false := by
    simp [hne]
  rw [parseDigits, encode_digits, digits_all, hempty, List.foldl_map]
  simp only [Bool.false_eq_true, not_true_eq_false, or_self, ↓reduceIte, Option.some.injEq]
  congr 1
  funext n d
  rw [hvalue _ (Nat.mod_lt d (by decide))]

theorem dash_not_mem_digits (ds : List ℕ) : '-' ∉ ds.map digit := by
  have hdigit : ∀ k < 10, Char.ofNat ('0'.toNat + k) ≠ '-' := by decide
  intro h
  obtain ⟨d, -, hd⟩ := List.mem_map.mp h
  exact hdigit _ (Nat.mod_lt d (by decide)) hd

theorem twoDigits_eq (n : ℕ) : twoDigits n = [n / 10, n].map digit := rfl

theorem fourDigits_eq (n : ℕ) : fourDigits n = [n / 100 / 10, n / 100, n / 10, n].map digit := rfl

/-- A digit is not a sign. -/
theorem digits_head {ds : List ℕ} {b : UInt8} (hb : b < 0x30) :
    (encode (ds.map digit)).head? ≠ some b := by
  cases ds with
  | nil => simp [encode]
  | cons d ds =>
    have hall := digits_all (d :: ds)
    rw [encode_digits]
    simp only [List.map_cons, List.all_cons, Bool.and_eq_true, decide_eq_true_eq] at hall
    simp only [List.map_cons, List.head?_cons, ne_eq, Option.some.injEq]
    rintro rfl
    exact absurd hb (UInt8.not_lt.mpr hall.1.1)

theorem parseU8_twoDigits {n : ℕ} (hn : n < 100) : parseU8 (encode (twoDigits n)) = some n := by
  rw [twoDigits_eq, parseU8, unsigned, if_neg (digits_head (by decide)),
    parseDigits_digits (by simp)]
  simp only [List.foldl_cons, List.foldl_nil]
  rw [Option.filter_some, if_pos (by simp; omega)]
  congr 1
  omega

theorem parseI32_fourDigits {n : ℕ} (hn : n < 10000) :
    parseI32 (encode (fourDigits n)) = some (n : ℤ) := by
  rw [fourDigits_eq, parseI32, if_neg (digits_head (by decide)), unsigned,
    if_neg (digits_head (by decide)), parseDigits_digits (by simp)]
  simp only [List.foldl_cons, List.foldl_nil]
  rw [Option.filter_some, if_pos (by simp; omega), Option.map_some]
  congr 1
  simp only [Int.ofNat_eq_natCast, Nat.cast_inj]
  omega

theorem encode_digits_length (ds : List ℕ) : (encode (ds.map digit)).length = ds.length := by
  rw [encode_digits, List.length_map]

/-- What may follow the time in a name. -/
def Suffix (tail : Text) : Prop := tail = [] ∨ ∃ runId, IsUuid runId ∧ tail = '-' :: runId

theorem timePart_suffix (ds : List ℕ) {tail : Text} (htail : Suffix tail) :
    timePart (ds.map digit ++ tail) = some (ds.map digit) := by
  rcases htail with rfl | ⟨runId, hid, rfl⟩
  · have hnone : splitOnce ['-'] (ds.map digit ++ []) = none := by
      rw [splitOnce_append (dash_not_mem_digits ds)]
      rfl
    rw [timePart, hnone, List.append_nil]
  · simp [timePart, splitOnce_singleton (dash_not_mem_digits ds), hid.1, hid.2]

/-- The six numbers of a name are read back. -/
theorem parseSnapshotName_digits (year month day hour minute second : ℕ) {tail : Text}
    (hyear : year < 10000) (hmonth : month < 100) (hday : day < 100) (hhour : hour < 100)
    (hminute : minute < 100) (hsecond : second < 100) (htail : Suffix tail) :
    parseSnapshotName ("synora-".toList ++ (fourDigits year ++ twoDigits month ++ twoDigits day ++
      '-' :: (twoDigits hour ++ twoDigits minute ++ twoDigits second ++ tail))) =
    (fromCalendarDate year month day).bind fun d =>
      (fromHms hour minute second).bind fun t => some (d * 86400 + t) := by
  have hdate : fourDigits year ++ twoDigits month ++ twoDigits day =
      [year / 100 / 10, year / 100, year / 10, year, month / 10, month, day / 10, day].map digit :=
    rfl
  have htime : twoDigits hour ++ twoDigits minute ++ twoDigits second =
      [hour / 10, hour, minute / 10, minute, second / 10, second].map digit := rfl
  have htwo (n : ℕ) : (encode (twoDigits n)).length = 2 := by
    rw [twoDigits_eq, encode_digits_length]; rfl
  have hfour (n : ℕ) : (encode (fourDigits n)).length = 4 := by
    rw [fourDigits_eq, encode_digits_length]; rfl
  rw [parseSnapshotName, stripPrefix_append, hdate, htime]
  simp only [Option.bind_eq_bind, Option.bind_some, splitOnce_singleton (dash_not_mem_digits _),
    timePart_suffix _ htail]
  rw [← hdate, ← htime]
  simp only [encode_append, List.append_assoc, List.take_append, List.drop_append, htwo, hfour,
    List.length_append, List.take_of_length_le, List.drop_of_length_le, Nat.reduceSub,
    List.take_zero, List.append_nil, List.nil_append, le_refl, Nat.reduceLeDiff,
    List.drop_zero, Nat.reduceAdd, ne_eq, not_true_eq_false, or_self, ↓reduceIte,
    parseI32_fourDigits hyear, parseU8_twoDigits hmonth, parseU8_twoDigits hday,
    parseU8_twoDigits hhour,
    parseU8_twoDigits hminute, parseU8_twoDigits hsecond, Option.bind_some]
  rfl

theorem parseSnapshotName_formatName {date : Date} {second : ℕ} {runId : Text}
    (hvalid : date.Valid) (h0 : 0 ≤ date.year) (h1 : date.year ≤ 9999) (hsecond : second < 86400)
    (hid : IsUuid runId) :
    parseSnapshotName (formatName date second runId) = some (date.toDay * 86400 + second) := by
  obtain ⟨hmonth0, hmonth1, hday0, hday1⟩ := hvalid
  have hdays : Civil.daysInMonth date.year date.month ≤ 31 := by
    simp only [Civil.daysInMonth]
    split_ifs <;> omega
  have hparsed := parseSnapshotName_digits date.year.natAbs date.month.toNat date.day.toNat
    (second / 3600) (second / 60 % 60) (second % 60) (by omega) (by omega) (by omega) (by omega)
    (by omega) (by omega) (Or.inr ⟨runId, hid, rfl⟩)
  have hyear : (date.year.natAbs : ℤ) = date.year := by omega
  have hmonth : (date.month.toNat : ℤ) = date.month := by omega
  have hday : (date.day.toNat : ℤ) = date.day := by omega
  have hcalendar : fromCalendarDate date.year date.month date.day = some date.toDay := by
    rw [fromCalendarDate, if_pos ⟨by omega, h1, hmonth0, hmonth1, hday0, hday1⟩]
  have htime : fromHms (second / 3600) (second / 60 % 60) (second % 60) = some (second : ℤ) := by
    rw [fromHms, if_pos (by omega)]
    congr 1
    omega
  rw [hyear, hmonth, hday, hcalendar, htime] at hparsed
  have hsign (t : Text) : (if date.year < 0 then ['-'] else []) ++ t = t := by
    rw [if_neg (not_lt.mpr h0)]
    exact List.nil_append t
  unfold formatName
  exact (congrArg (fun t => parseSnapshotName ("synora-".toList ++ t)) (hsign _)).trans hparsed

/-- A snapshot's name carries the second it was taken at. -/
theorem parseSnapshotName_snapshotName {now : ℤ} {runId : Text}
    (h0 : 0 ≤ (ofDay (now / 86400)).year) (h1 : (ofDay (now / 86400)).year ≤ 9999)
    (hid : IsUuid runId) : parseSnapshotName (snapshotName now runId) = some now := by
  rw [snapshotName, parseSnapshotName_formatName (ofDay_valid _) h0 h1 (by omega) hid, toDay_ofDay]
  congr 1
  omega

/-! ## The prune plan -/

/-- The largest timestamp of the `time` crate. -/
def maxTimestamp : ℤ := 253402300799

/-- The snapshot's wall time at `offset`. -/
def effectiveTs (s : SnapshotInfo) (offset : ℤ) : Option ℤ :=
  if 0 < s.createdAt then if s.createdAt ≤ maxTimestamp then some (s.createdAt + offset) else none
  else parseSnapshotName s.name

def isoWeekKey (day : ℤ) : ℤ × ℤ := (isoYear day, isoWeek day)

/-- The first snapshot of each period, oldest first. -/
def representatives {K : Type} [DecidableEq K] (keyOf : SnapshotInfo → Option K) :
    List K → List SnapshotInfo → List Text
  | _, [] => []
  | seen, s :: rest =>
    match keyOf s with
    | some k =>
      if k ∈ seen then representatives keyOf seen rest
      else s.name :: representatives keyOf (k :: seen) rest
    | none => representatives keyOf seen rest

/-- The representatives of the newest `n` periods. -/
def periodicKept {K : Type} [DecidableEq K] (sorted : List SnapshotInfo) (n : ℕ)
    (keyOf : SnapshotInfo → Option K) : List Text :=
  if n = 0 then [] else (representatives keyOf [] sorted).reverse.take n

/-- By time, then by name. -/
def olderFirst (a b : SnapshotInfo) : Prop :=
  a.createdAt < b.createdAt ∨ (a.createdAt = b.createdAt ∧ a.name ≤ b.name)

instance : DecidableRel olderFirst := fun a b => by unfold olderFirst; infer_instance

/-- The snapshots the program names, oldest first. -/
def ownSnapshots (snapshots : List SnapshotInfo) : List SnapshotInfo :=
  (snapshots.filter fun s => matchesSynora s.name).insertionSort olderFirst

/-- The names that some bucket keeps. -/
def kept (sorted : List SnapshotInfo) (policy : RetentionPolicy) (offset : ℤ) : List Text :=
  let dayOf s := (effectiveTs s offset).map (· / 86400)
  (policy.keepLast.map fun n => (sorted.reverse.take n).map SnapshotInfo.name).getD [] ++
  (policy.keepDaily.map fun n => periodicKept sorted n dayOf).getD [] ++
  (policy.keepWeekly.map fun n => periodicKept sorted n fun s =>
    (dayOf s).map isoWeekKey).getD [] ++
  (policy.keepMonthly.map fun n => periodicKept sorted n fun s =>
    (dayOf s).map fun day => ((ofDay day).year, (ofDay day).month)).getD []

/-- The names to delete. -/
def prunePlan (snapshots : List SnapshotInfo) (policy : RetentionPolicy) (offset : ℤ) :
    List Text :=
  let sorted := ownSnapshots snapshots
  (sorted.filter fun s => decide (s.name ∉ kept sorted policy offset)).map SnapshotInfo.name

theorem mem_ownSnapshots {snapshots : List SnapshotInfo} {s : SnapshotInfo} :
    s ∈ ownSnapshots snapshots ↔ s ∈ snapshots ∧ matchesSynora s.name = true := by
  rw [ownSnapshots, (List.perm_insertionSort olderFirst _).mem_iff, List.mem_filter]

theorem kept_default (sorted : List SnapshotInfo) (offset : ℤ) :
    kept sorted .default offset = [] := rfl

/-- A name is pruned iff the program gave it and no bucket keeps it. -/
theorem mem_prunePlan {snapshots : List SnapshotInfo} {policy : RetentionPolicy} {offset : ℤ}
    {name : Text} : name ∈ prunePlan snapshots policy offset ↔
      (∃ s ∈ snapshots, s.name = name) ∧ matchesSynora name = true ∧
        name ∉ kept (ownSnapshots snapshots) policy offset := by
  simp only [prunePlan, List.mem_map, List.mem_filter, mem_ownSnapshots, decide_eq_true_eq]
  constructor
  · rintro ⟨s, ⟨⟨hs, hown⟩, hkept⟩, rfl⟩
    exact ⟨⟨s, hs, rfl⟩, hown, hkept⟩
  · rintro ⟨⟨s, hs, rfl⟩, hown, hkept⟩
    exact ⟨s, ⟨⟨hs, hown⟩, hkept⟩, rfl⟩

/-! ## Providers -/

inductive SnapshotProvider
  | zfs (poolDataset : Text)
  | btrfs (subvol : Text)
deriving DecidableEq, Repr

def providerFor : StorageKind → Option SnapshotProvider
  | .dir => none
  | .zfs pool dataset => some (.zfs (zfsDatasetId pool dataset))
  | .btrfs subvol => some (.btrfs subvol)

/-- How the `zfs` and `btrfs` commands of a run end. -/
structure Commands where
  /-- The snapshot of this full name is made. -/
  snapshot : Text → Bool
  /-- What the listing prints, once the snapshot of the run exists. -/
  list : Option Text
  /-- The snapshot of this full name is destroyed. -/
  destroy : Text → Bool

def validateName (name : Text) : Bool :=
  let bytes := encode name
  !bytes.isEmpty && decide (bytes.length ≤ 200) && bytes.all fun b =>
    decide ((0x30 ≤ b ∧ b ≤ 0x39) ∨ (0x41 ≤ b ∧ b ≤ 0x5a) ∨ (0x61 ≤ b ∧ b ≤ 0x7a) ∨ b = 0x2d ∨
      b = 0x5f)

/-- `parse::<i64>` -/
def parseI64 (t : Text) : Option ℤ :=
  let b := encode t
  if b.head? = some 0x2d then
    ((parseDigits b.tail).filter fun n => decide (n ≤ 2 ^ 63)).map fun n => -(n : ℤ)
  else ((parseDigits (unsigned b)).filter fun n => decide (n < 2 ^ 63)).map Int.ofNat

/-- Lines `<pool>/<dataset>@<name>\t<epoch-seconds>`. -/
def parseZfsList (out poolDataset : Text) : List SnapshotInfo :=
  (lines out).filterMap fun line => do
    let (full, ts) ← splitOnce ['\t'] line
    let name ← stripPrefix (poolDataset ++ ['@']) full
    pure ⟨name, ← parseI64 (trim ts)⟩

/-- What `rfind` of the pattern starts. -/
def lastOccurrence (pat : Text) : Text → Option Text
  | [] => if pat.isEmpty then some [] else none
  | c :: cs =>
    match lastOccurrence pat cs with
    | some found => some found
    | none => if pat.isPrefixOf (c :: cs) then some (c :: cs) else none

def snapshotNameFromPath (path : Text) : Option Text := do
  let cand ← lastOccurrence "synora-".toList path
  if matchesSynora cand then some cand else none

/-- Lines `ID <id> gen <gen> top level <t> path <name>`. -/
def parseBtrfsList (out : Text) : List SnapshotInfo :=
  (lines out).filterMap fun line => do
    let path ← (splitWhitespace line).getLast?
    pure ⟨← snapshotNameFromPath path, 0⟩

namespace SnapshotProvider

/-- What the command line calls the snapshot. -/
def fullName : SnapshotProvider → Text → Text
  | .zfs poolDataset, name => poolDataset ++ '@' :: name
  | .btrfs subvol, name => subvol ++ '-' :: name

def create (p : SnapshotProvider) (cmd : Commands) (name : Text) : Bool :=
  validateName name && cmd.snapshot (p.fullName name)

def delete (p : SnapshotProvider) (cmd : Commands) (name : Text) : Bool :=
  validateName name && cmd.destroy (p.fullName name)

def list (p : SnapshotProvider) (cmd : Commands) : Option (List SnapshotInfo) :=
  cmd.list.map fun out =>
    match p with
    | .zfs poolDataset => parseZfsList out poolDataset
    | .btrfs _ => parseBtrfsList out

end SnapshotProvider

/-! ## The snapshot after a successful run -/

/-- The resolved configuration, as far as snapshots go. -/
structure ResolvedConfig where
  storages : List (Text × StorageConfig)
  snapshotRetention : RetentionPolicy
  minFreeBytes : Option ℕ
  cgroup : Option Path
deriving DecidableEq, Repr

/-- What the loader makes of the document. -/
def resolve (root : Toml.Table) (storages : List (Text × StorageConfig)) (minFreeBytes : Option ℕ)
    (cgroup : Option Path) : ResolvedConfig :=
  ⟨storages, parseRetention root, minFreeBytes, cgroup⟩

/-- `RunStorageCtx::from_config` -/
def fromConfig (cfg : ResolvedConfig) : Option RunStorageCtx :=
  if cfg.storages = [] ∧ cfg.snapshotRetention = .default ∧ cfg.minFreeBytes = none ∧
      cfg.cgroup = none then none
  else some ⟨cfg.storages⟩

/-- The provider of the job's storage. -/
def snapshotProvider (cfg : ResolvedConfig) (job : MirrorSpec) : Option SnapshotProvider := do
  let ctx ← fromConfig cfg
  let storage ← ctx.storageFor (hookJob (some ctx) job)
  providerFor storage.kind

inductive SnapshotFailure
  | fail | warn | ignore
deriving DecidableEq, Repr

/-- What the stage leaves: the snapshot made, those destroyed, and whether the run still counts
as a success. -/
structure AfterSuccess where
  created : Option Text
  pruned : List Text
  ok : Bool
deriving DecidableEq, Repr

def wantsAfter (policy : SnapshotPolicy) : Bool :=
  decide (policy = .afterSuccess ∨ policy = .beforeAndAfter)

/-- The snapshot after a verified success, then the retention prune in UTC. -/
def afterSuccess (cfg : ResolvedConfig) (job : MirrorSpec) (onFailure : SnapshotFailure)
    (cmd : Commands) (now : ℤ) (runId : Text) (ok : Bool) : AfterSuccess :=
  if wantsAfter job.snapshotPolicy && ok then
    match snapshotProvider cfg job with
    | some p =>
      let name := snapshotName now runId
      if p.create cmd name then
        let planned := ((p.list cmd).map fun l => prunePlan l cfg.snapshotRetention 0).getD []
        ⟨some name, planned.filter fun n => p.delete cmd n, true⟩
      else ⟨none, [], decide (onFailure ≠ .fail)⟩
    | none => ⟨none, [], decide (onFailure ≠ .fail)⟩
  else ⟨none, [], ok⟩

/-- With no bucket set, every snapshot the program named is in the plan. -/
theorem mem_prunePlan_of_noBucket {root : Toml.Table} (hroot : NoBucket root)
    {snapshots : List SnapshotInfo} {offset : ℤ} {name : Text} :
    name ∈ prunePlan snapshots (parseRetention root) offset ↔
      (∃ s ∈ snapshots, s.name = name) ∧ matchesSynora name = true := by
  rw [mem_prunePlan, parseRetention_of_noBucket hroot, kept_default]
  simp

/-- What the stage destroys. -/
theorem mem_pruned_iff {cfg : ResolvedConfig} {job : MirrorSpec} {onFailure : SnapshotFailure}
    {cmd : Commands} {now : ℤ} {runId name : Text} {ok : Bool} :
    name ∈ (afterSuccess cfg job onFailure cmd now runId ok).pruned ↔
      wantsAfter job.snapshotPolicy = true ∧ ok = true ∧ ∃ p listed,
        snapshotProvider cfg job = some p ∧ p.create cmd (snapshotName now runId) = true ∧
        p.list cmd = some listed ∧ name ∈ prunePlan listed cfg.snapshotRetention 0 ∧
        p.delete cmd name = true := by
  rw [afterSuccess]
  split
  · rename_i hwants
    rw [Bool.and_eq_true] at hwants
    cases hp : snapshotProvider cfg job with
    | none => simp
    | some p =>
      cases hcreate : p.create cmd (snapshotName now runId) with
      | false => simp [hcreate]
      | true =>
        cases hlist : p.list cmd with
        | none => simp [hcreate, hlist]
        | some listed => simp [hwants, hcreate, hlist]
  · rename_i hwants
    simp only [Bool.and_eq_true] at hwants
    simp only [List.not_mem_nil, false_iff]
    exact fun h => hwants ⟨h.1, h.2.1⟩

/-- With no bucket set, the run destroys the very snapshot it has just made. -/
theorem created_pruned {root : Toml.Table} (hroot : NoBucket root) {cfg : ResolvedConfig}
    (hcfg : cfg.snapshotRetention = parseRetention root) {job : MirrorSpec}
    (hpolicy : wantsAfter job.snapshotPolicy = true) {onFailure : SnapshotFailure} {cmd : Commands}
    {now : ℤ} {runId : Text} {p : SnapshotProvider} {listed : List SnapshotInfo}
    (hp : snapshotProvider cfg job = some p)
    (hcreate : p.create cmd (snapshotName now runId) = true) (hlist : p.list cmd = some listed)
    (h0 : 0 ≤ (ofDay (now / 86400)).year) (h1 : (ofDay (now / 86400)).year ≤ 9999)
    (hid : IsUuid runId) (hshown : ∃ s ∈ listed, s.name = snapshotName now runId)
    (hdelete : p.delete cmd (snapshotName now runId) = true) :
    snapshotName now runId ∈ (afterSuccess cfg job onFailure cmd now runId true).pruned := by
  have hown : matchesSynora (snapshotName now runId) = true := by
    rw [matchesSynora, parseSnapshotName_snapshotName h0 h1 hid]
    rfl
  refine mem_pruned_iff.mpr ⟨hpolicy, rfl, p, listed, hp, hcreate, hlist, ?_, hdelete⟩
  rw [hcfg]
  exact (mem_prunePlan_of_noBucket hroot).mpr ⟨hshown, hown⟩

/-- With no bucket set, the stage after a success destroys nothing iff the run failed, no snapshot
was made, none could be listed, or no listed one that the program named can be destroyed. -/
theorem pruned_empty_iff (root : Toml.Table) (hroot : NoBucket root)
    (storages : List (Text × StorageConfig)) (minFreeBytes : Option ℕ) (cgroup : Option Path)
    (job : MirrorSpec) (hpolicy : wantsAfter job.snapshotPolicy = true)
    (onFailure : SnapshotFailure) (cmd : Commands) (now : ℤ) (runId : Text) (ok : Bool) :
    (afterSuccess (resolve root storages minFreeBytes cgroup) job onFailure cmd now runId
        ok).pruned = [] ↔
      ∀ p listed, ok = true →
        snapshotProvider (resolve root storages minFreeBytes cgroup) job = some p →
        p.create cmd (snapshotName now runId) = true → p.list cmd = some listed →
        ∀ s ∈ listed, matchesSynora s.name = true → p.delete cmd s.name = false := by
  rw [List.eq_nil_iff_forall_not_mem]
  constructor
  · intro hnone p listed hok hp hcreate hlist s hs hown
    by_contra hdelete
    have hplan : s.name ∈ prunePlan listed (parseRetention root) 0 :=
      (mem_prunePlan_of_noBucket hroot).mpr ⟨⟨s, hs, rfl⟩, hown⟩
    exact hnone s.name (mem_pruned_iff.mpr
      ⟨hpolicy, hok, p, listed, hp, hcreate, hlist, hplan, by simpa using hdelete⟩)
  · intro h name hname
    obtain ⟨-, hok, p, listed, hp, hcreate, hlist, hplan, hdelete⟩ := mem_pruned_iff.mp hname
    obtain ⟨⟨s, hs, rfl⟩, hown⟩ := (mem_prunePlan_of_noBucket hroot).mp hplan
    rw [h p listed hok hp hcreate hlist s hs hown] at hdelete
    exact absurd hdelete Bool.false_ne_true

/-! The retention section as `examples/production.toml` spells it, on one ZFS dataset. -/

def productionRoot : Toml.Table :=
  [("snapshot_retention".toList, .table [("keep_last".toList, .integer 8),
    ("keep_daily".toList, .integer 14), ("keep_weekly".toList, .integer 8),
    ("keep_monthly".toList, .integer 6)])]

def productionStorages : List (Text × StorageConfig) :=
  [("tank".toList, ⟨.zfs "tank".toList "data".toList, none⟩)]

def productionJob : MirrorSpec :=
  ⟨"debian".toList, Path.ofText [], some "tank".toList, .provider, .afterSuccess⟩

def productionRunId : Text := "01234567-89ab-4cde-8f01-23456789abcd".toList

/-- 2026-08-14 00:00:00 -/
def productionNow : ℤ := 1786665600

/-- Every command succeeds, and the listing shows one snapshot. -/
def productionCommands (shown : Text) : Commands where
  snapshot _ := true
  list := some ("tank/data@".toList ++ shown ++ "\t1786665600\n".toList)
  destroy _ := true

theorem productionRoot_noBucket : NoBucket productionRoot := by
  intro t ht
  have hnone : (policySection productionRoot).isNone = true := by decide
  rw [ht] at hnone
  exact absurd hnone (by simp)

theorem pruned_empty_iff_foreign : NoBucket productionRoot ∧
    (afterSuccess (resolve productionRoot productionStorages none none) productionJob .fail
      (productionCommands "manual-backup".toList) productionNow productionRunId true).pruned = [] := by
  refine ⟨productionRoot_noBucket, (pruned_empty_iff productionRoot productionRoot_noBucket
    productionStorages none none productionJob rfl .fail
    (productionCommands "manual-backup".toList) productionNow productionRunId true).mpr ?_⟩
  intro p listed _ hp _ hlist s hs hown
  have hprovider : snapshotProvider (resolve productionRoot productionStorages none none)
      productionJob = some (.zfs "tank/data".toList) := by decide +kernel
  have hlisted : (SnapshotProvider.zfs "tank/data".toList).list
      (productionCommands "manual-backup".toList) =
        some [⟨"manual-backup".toList, 1786665600⟩] := by decide +kernel
  have hforeign : matchesSynora "manual-backup".toList = false := by decide +kernel
  obtain rfl : _ = p := Option.some.inj (hprovider.symm.trans hp)
  obtain rfl : _ = listed := Option.some.inj (hlisted.symm.trans hlist)
  obtain rfl := List.mem_singleton.mp hs
  rw [hforeign] at hown
  exact absurd hown Bool.false_ne_true

/-- The snapshot that the run has just made is destroyed again. -/
theorem own_snapshot_pruned : NoBucket productionRoot ∧
    afterSuccess (resolve productionRoot productionStorages none none) productionJob .fail
      (productionCommands (snapshotName productionNow productionRunId)) productionNow
      productionRunId true =
    ⟨some (snapshotName productionNow productionRunId),
      [snapshotName productionNow productionRunId], true⟩ :=
  ⟨productionRoot_noBucket, by decide +kernel⟩

end Synora.Storage
