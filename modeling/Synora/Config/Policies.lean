import Synora.Config.Load

namespace Synora.Config
open Strings Engine Storage

/-! # Numbers of the sections without a type -/

/-- The buckets of `[snapshot.policy]` with what they are resolved to. -/
def bucketSettings (p : RetentionPolicy) : List (Text × Option ℕ) :=
  [("keep_last".toList, p.keepLast), ("keep_daily".toList, p.keepDaily),
    ("keep_weekly".toList, p.keepWeekly), ("keep_monthly".toList, p.keepMonthly)]

/-- The value written for a bucket. -/
def bucketValue (root : RootDoc) (key : Text) : Option Toml.Value :=
  (policySection root.extras).bind fun t => t.lookup key

/-- The value written for `alert_after_failures`. -/
def alertValue (root : RootDoc) : Option Toml.Value :=
  (webhookSection root).bind fun t => t.lookup "alert_after_failures".toList

/-- The setting is the written number. -/
def Holds (v : Toml.Value) (setting : Option ℕ) : Prop :=
  ∃ n : ℕ, v.asInteger = some (n : ℤ) ∧ n < 2 ^ 32 ∧ setting = some n

/-- A number of bytes; as in a memory limit, `K`, `M`, `G` and `T` are powers of 1024. -/
def byteQuantity (s : Text) : Option ℕ :=
  match s.getLast? with
  | some 'K' => (parseU64 s.dropLast).map (· * 1024)
  | some 'M' => (parseU64 s.dropLast).map (· * 1024 ^ 2)
  | some 'G' => (parseU64 s.dropLast).map (· * 1024 ^ 3)
  | some 'T' => (parseU64 s.dropLast).map (· * 1024 ^ 4)
  | _ => parseU64 s

/-- Every number of the documents is what the configuration has in its place. -/
structure NumbersKept {Addr Sections : Type} (root : RootDoc) (cfg : ResolvedConfig Addr Sections) :
    Prop where
  buckets : ∀ b ∈ bucketSettings cfg.snapshotRetention, ∀ v, bucketValue root b.1 = some v →
    Holds v b.2
  alert : ∀ v, alertValue root = some v → Holds v (some cfg.notifications.alertAfterFailures)
  freeBytes : ∀ s, freeBytesText root = some s →
    ∃ n, byteQuantity s = some n ∧ cfg.minFreeBytes = some n

/-- An integer that a `u32` holds. -/
def fitsU32 (v : Toml.Value) : Bool := v.asInteger.any fun n => decide (0 ≤ n ∧ n < 2 ^ 32)

/-! ## Integers -/

theorem fitsU32_iff {v : Toml.Value} :
    fitsU32 v = true ↔ ∃ n : ℕ, v.asInteger = some (n : ℤ) ∧ n < 2 ^ 32 := by
  unfold fitsU32
  cases v.asInteger with
  | none => simp
  | some m =>
    simp only [Option.any_some, decide_eq_true_eq, Option.some.injEq]
    constructor
    · rintro ⟨hpos, hlt⟩
      exact ⟨m.toNat, (Int.toNat_of_nonneg hpos).symm, by omega⟩
    · rintro ⟨n, rfl, hlt⟩
      omega

/-- The cast keeps a number that fits. -/
theorem asU32_of_lt {n : ℕ} (h : n < 2 ^ 32) : asU32 (n : ℤ) = n := by
  unfold asU32
  omega

/-- A number is kept through the cast exactly when it fits. -/
theorem holds_cast_iff {v : Toml.Value} (default : Option ℤ) :
    Holds v ((v.asInteger.or default).map asU32) ↔ fitsU32 v = true := by
  rw [fitsU32_iff]
  constructor
  · rintro ⟨n, hn, hlt, -⟩
    exact ⟨n, hn, hlt⟩
  · rintro ⟨n, hn, hlt⟩
    exact ⟨n, hn, hlt, by rw [hn, Option.some_or, Option.map_some, asU32_of_lt hlt]⟩

theorem bucket_of_value {root : RootDoc} {key : Text} {v : Toml.Value}
    (h : bucketValue root key = some v) :
    ((policySection root.extras).map fun t => bucket t key).getD none =
      (v.asInteger.or none).map asU32 := by
  obtain ⟨t, ht, hv⟩ := Option.bind_eq_some_iff.mp h
  rw [ht, Option.map_some, Option.getD_some, bucket, hv, Option.bind_some, Option.or_none]

theorem bucketSettings_parseRetention (root : RootDoc) :
    bucketSettings (parseRetention root.extras) = (["keep_last", "keep_daily", "keep_weekly",
      "keep_monthly"].map String.toList).map fun key =>
        (key, ((policySection root.extras).map fun t => bucket t key).getD none) := by
  unfold parseRetention
  cases policySection root.extras <;> rfl

theorem alert_of_value {root : RootDoc} {v : Toml.Value} (h : alertValue root = some v) :
    some (parseNotifications root).alertAfterFailures =
      (v.asInteger.or (some 1)).map asU32 := by
  obtain ⟨t, ht, hv⟩ := Option.bind_eq_some_iff.mp h
  unfold parseNotifications
  rw [ht, Option.map_some, Option.getD_some]
  dsimp only
  rw [hv, Option.bind_some]
  cases v.asInteger <;> rfl

/-! ## Byte quantities -/

/-- An accepted duration ends with a unit. -/
theorem durationFrom_ends {s cs : Text} {total d : ℤ} {num : ℕ} {sawDigit sawUnit : Bool}
    (h : durationFrom s total num sawDigit sawUnit cs = some (.ok d)) (hne : cs ≠ []) :
    ∃ c, cs.getLast? = some c ∧ (unitSecs c).isSome := by
  induction cs generalizing total num sawDigit sawUnit with
  | nil => exact absurd rfl hne
  | cons c cs ih =>
    have hlast {rest : Text} (hrest : rest ≠ []) : (c :: rest).getLast? = rest.getLast? := by
      rw [List.getLast?_cons, List.getLast?_eq_some_getLast hrest]
      rfl
    unfold durationFrom at h
    split_ifs at h with hdigit hlt hsaw
    · -- the text cannot end with a digit
      cases cs with
      | nil =>
        unfold durationFrom at h
        simp at h
      | cons c' cs =>
        rw [hlast (List.cons_ne_nil c' cs)]
        exact ih h (List.cons_ne_nil c' cs)
    · cases h
    · split at h <;> cases h
    · cases hunit : unitSecs c with
      | none =>
        rw [hunit] at h
        cases h
      | some secs =>
        rw [hunit] at h
        obtain ⟨unit, -, h⟩ := Option.bind_eq_some_iff.mp h
        obtain ⟨sum, -, h⟩ := Option.bind_eq_some_iff.mp h
        cases cs with
        | nil => exact ⟨c, rfl, by rw [hunit]; rfl⟩
        | cons c' cs =>
          rw [hlast (List.cons_ne_nil c' cs)]
          exact ih h (List.cons_ne_nil c' cs)

/-- A number ends with a digit. -/
theorem parseU64_eq_none {s : Text} {c : Char} (hlast : s.getLast? = some c)
    (hc : c.isDigit = false) : parseU64 s = none := by
  unfold parseU64
  refine if_pos (or_iff_not_imp_left.mpr fun hne hall => ?_)
  have hmem : c ∈ (stripPrefix "+".toList s).getD s := by
    cases hstrip : stripPrefix "+".toList s with
    | none => exact List.mem_of_getLast? hlast
    | some rest =>
      rw [hstrip, Option.getD_some, List.isEmpty_iff] at hne
      rw [stripPrefix_eq_some_iff.mp hstrip, List.getLast?_append_of_ne_nil _ hne] at hlast
      exact List.mem_of_getLast? hlast
  rw [List.all_eq_true] at hall
  exact Bool.noConfusion ((hall c hmem).symm.trans hc)

/-- No text is a duration and a number of bytes. -/
theorem byteQuantity_of_duration {s : Text} {d : ℤ} (h : parseDurationHuman s = some (.ok d)) :
    byteQuantity s = none := by
  have hne : s ≠ [] := by
    rintro rfl
    cases h
  obtain ⟨c, hlast, hunit⟩ := durationFrom_ends h hne
  have hnum := parseU64_eq_none hlast (not_isDigit_of_unit hunit)
  unfold byteQuantity
  rw [hlast]
  unfold unitSecs at hunit
  split at hunit
  all_goals first | exact hnum | cases hunit

/-- The numbers are kept exactly when every one of them fits into a `u32` and no minimum of free
space is written: that is read as a duration. -/
theorem numbers_kept_iff {Addr Sections : Type} (crates : Crates Addr Sections)
    (documents : Documents) (env : String → Option String) (overrides : CliOverrides)
    (root : RootDoc) (jobs : List JobEntry) (hdocs : documents = .ok (root, jobs))
    (cfg : ResolvedConfig Addr Sections)
    (h : load crates documents env overrides = .ok cfg) :
    NumbersKept root cfg ↔
      (∀ key ∈ ["keep_last", "keep_daily", "keep_weekly", "keep_monthly"].map String.toList,
        ∀ v, bucketValue root key = some v → fitsU32 v) ∧
      (∀ v, alertValue root = some v → fitsU32 v) ∧ freeBytesText root = none := by
  obtain ⟨tokens, hres, htokens⟩ := load_ok hdocs h
  constructor
  · rintro ⟨hbuckets, halert, hfree⟩
    refine ⟨?_, ?_, ?_⟩
    · intro key hkey v hv
      rw [hres.snapshotRetention, bucketSettings_parseRetention] at hbuckets
      have hholds := hbuckets _ (List.mem_map_of_mem hkey) v hv
      rw [bucket_of_value hv] at hholds
      exact (holds_cast_iff none).mp hholds
    · intro v hv
      have hholds := halert v hv
      rw [hres.notifications, alert_of_value hv] at hholds
      exact (holds_cast_iff (some 1)).mp hholds
    · cases hs : freeBytesText root with
      | none => rfl
      | some s =>
        obtain ⟨n, hquantity, hmin⟩ := hfree s hs
        have hparse := hres.minFreeBytes
        unfold parseMinFree at hparse
        rw [hs, hmin] at hparse
        dsimp only at hparse
        split at hparse
        · rename_i d hd
          rw [byteQuantity_of_duration hd] at hquantity
          cases hquantity
        · cases hparse
        · cases hparse
  · rintro ⟨hbuckets, halert, hfree⟩
    refine ⟨?_, ?_, ?_⟩
    · rw [hres.snapshotRetention, bucketSettings_parseRetention]
      intro b hb v hv
      obtain ⟨key, hkey, rfl⟩ := List.mem_map.mp hb
      rw [bucket_of_value hv]
      exact (holds_cast_iff none).mpr (hbuckets key hkey v hv)
    · intro v hv
      rw [hres.notifications, alert_of_value hv]
      exact (holds_cast_iff (some 1)).mpr (halert v hv)
    · intro s hs
      rw [hfree] at hs
      cases hs

/-! Documents with these sections and no jobs. -/

/-- A table with one entry. -/
def oneEntry (key : String) (v : Toml.Value) : Toml.Table := [(key.toList, v)]

def policyRoot (keepLast : ℤ) : RootDoc :=
  plainRoot (oneEntry "snapshot" (.table (oneEntry "policy" (.table
    (oneEntry "keep_last" (.integer keepLast))))))

def freeBytesRoot : RootDoc :=
  plainRoot (oneEntry "min_storage" (.table (oneEntry "free_bytes" (.string "100G".toList))))

/-- Seven snapshots are kept when seven are asked for. -/
theorem numbers_kept_iff_seven : ∃ cfg,
    load plainCrates (.ok (policyRoot 7, [])) (fun _ => none) noOverrides = .ok cfg ∧
      NumbersKept (policyRoot 7) cfg := by
  refine ⟨_, rfl, (numbers_kept_iff plainCrates (.ok (policyRoot 7, [])) (fun _ => none)
    noOverrides (policyRoot 7) [] rfl _ rfl).mpr ⟨?_, ?_, by decide⟩⟩
  · intro key hkey v hv
    simp only [List.map_cons, List.map_nil, List.mem_cons, List.not_mem_nil, or_false] at hkey
    rcases hkey with rfl | rfl | rfl | rfl
    · cases hv
      decide
    all_goals cases hv
  · intro v hv
    cases hv

/-- Of 2^32 snapshots none is kept, and a minimum of 100 GiB is none. -/
theorem numbers_change :
    (∃ cfg, load plainCrates (.ok (policyRoot (2 ^ 32), [])) (fun _ => none)
        noOverrides = .ok cfg ∧ cfg.snapshotRetention.keepLast = some 0 ∧
      ¬NumbersKept (policyRoot (2 ^ 32)) cfg) ∧
    ∃ cfg, load plainCrates (.ok (freeBytesRoot, [])) (fun _ => none)
        noOverrides = .ok cfg ∧ cfg.minFreeBytes = none ∧
      byteQuantity "100G".toList = some (100 * 1024 ^ 3) ∧ ¬NumbersKept freeBytesRoot cfg := by
  refine ⟨⟨_, rfl, by decide, fun h => ?_⟩, ⟨_, rfl, rfl, by decide, fun h => ?_⟩⟩
  · obtain ⟨n, hn, hlt, -⟩ := h.buckets ("keep_last".toList, some 0) (by decide)
      (.integer (2 ^ 32)) rfl
    cases hn
    exact absurd hlt (by decide)
  · obtain ⟨n, -, hn⟩ := h.freeBytes "100G".toList rfl
    cases hn

end Synora.Config
