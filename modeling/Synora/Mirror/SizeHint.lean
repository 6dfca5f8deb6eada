import Synora.Mirror.Taken
import Synora.Storage.Context

namespace Synora.Mirror
open Strings Utf8

/-! ## The size hint -/

/-- `size_hint` of the HTTP provider's result. -/
def providerHint (filesWarned : ℕ) (plan : Plan) : Option UInt64 :=
  if filesWarned = 0 then plan.totalSizeHint.map UInt64.ofNat else none

/-- The hint is the exact sum of the planned files, or absent when a size is unknown or the sum
does not fit, the sum does not wrap, and what `size_after` stores is not negative. -/
structure HintExact (m : Storage.Measures) (statistics : Storage.StatisticsMode) (path : Path)
    (filesWarned : ℕ) (taken : List (DirectoryWork × Entry)) (plan : Plan) : Prop where
  hint : ∀ n, plan.totalSizeHint = some n ↔
    none ∉ fileSizes taken ∧ exactSum taken < 2 ^ 64 ∧ n = exactSum taken
  exact : plan.sizeSum = exactSum taken
  stored : ∀ v, Storage.sizeAfter m statistics path (providerHint filesWarned plan) = some v → 0 ≤ v

/-- The number that is stored, whether a listing gave it or the machine was measured, fits into an
`i64`. -/
def FitsI64 (m : Storage.Measures) (statistics : Storage.StatisticsMode) (path : Path)
    (filesWarned : ℕ) (taken : List (DirectoryWork × Entry)) : Prop :=
  if filesWarned = 0 ∧ none ∉ fileSizes taken then exactSum taken < 2 ^ 63
  else ∀ v, Storage.measured m statistics path = some v → v.toNat < 2 ^ 63

theorem asI64_nonneg_iff (v : UInt64) : 0 ≤ Storage.asI64 v ↔ v.toNat < 2 ^ 63 := by
  have hv : v.toBitVec.toNat < 2 ^ 64 := v.toBitVec.isLt
  show 0 ≤ v.toBitVec.toInt ↔ v.toBitVec.toNat < 2 ^ 63
  rw [BitVec.toInt_eq_toNat_cond]
  split
  · omega
  · omega

theorem finish_hint {env : Env} {c : Crawl} {plan : Plan} (h : c.finish env = .ok plan) :
    plan.sizeSum = c.plan.sizeSum ∧
      plan.totalSizeHint = if c.plan.sizeUnknown then none else some c.plan.sizeSum := by
  unfold Crawl.finish at h
  dsimp only at h
  split at h
  · cases h
  split at h
  · split at h
    · cases h
    · cases h
      exact ⟨rfl, rfl⟩
  · cases h
    exact ⟨rfl, rfl⟩

theorem planInner_hint {env : Env} {baseUrl : Text} {depth : ℕ} {events : List Event} {c : Crawl}
    {plan : Plan} (h : planInner env baseUrl depth events = some (.ok (c, plan))) :
    plan.sizeSum = exactSum (takenUp env (c.items env)) % 2 ^ 64 ∧
      plan.totalSizeHint = if none ∈ fileSizes (takenUp env (c.items env)) then none
        else some (exactSum (takenUp env (c.items env)) % 2 ^ 64) := by
  have href := planInner_reflects h
  obtain ⟨hsum, hhint⟩ := finish_hint (planInner_run h).2
  refine ⟨hsum.trans href.sizeSum, ?_⟩
  rw [hhint, href.sizeSum]
  simp only [href.sizeUnknown]

/-- The number stored from a hint, or from the machine when there is none. -/
theorem stored_nonneg_iff {m : Storage.Measures} {statistics : Storage.StatisticsMode}
    {path : Path} {hint : Option UInt64} :
    (∀ v, Storage.sizeAfter m statistics path hint = some v → 0 ≤ v) ↔
      ∀ v, hint.or (Storage.measured m statistics path) = some v → v.toNat < 2 ^ 63 := by
  unfold Storage.sizeAfter
  simp only [Option.map_eq_some_iff]
  constructor
  · exact fun h v hv => (asI64_nonneg_iff v).mp (h _ ⟨v, hv, rfl⟩)
  · rintro h - ⟨v, hv, rfl⟩
    exact (asI64_nonneg_iff v).mpr (h v hv)

/-- A machine on which nothing is measured. -/
def unmeasured : Storage.Measures := ⟨fun _ => none, fun _ => 0⟩

def sizedPage : Bytes := encode
  ("<Contents><Key>a</Key><Size>7</Size></Contents>" ++
    "<Contents><Key>b</Key><Size>5</Size></Contents>").toList

/-- Two objects whose sizes add up to `2 ^ 64`. -/
def hugePage : Bytes := encode
  ("<Contents><Key>a</Key><Size>18446744073709551615</Size></Contents>" ++
    "<Contents><Key>b</Key><Size>1</Size></Contents>").toList

end Synora.Mirror
