import Synora.Lib.Periods
import Synora.Storage.Names

namespace Synora.Storage
open Strings Civil Periods

/-! ## What retention keeps -/

/-- ISO weeks, in order. -/
def weekOf (day : ℤ) : ℤ ×ₗ ℤ := toLex (isoWeekKey day)

/-- Calendar months, in order. -/
def monthOf (day : ℤ) : ℤ ×ₗ ℤ := toLex ((ofDay day).year, (ofDay day).month)

/-- The snapshot is the oldest of its period, and fewer than `n` later periods have a snapshot. -/
def KeptFor {K : Type} [LinearOrder K] (key : SnapshotInfo → Option K) (l : List SnapshotInfo)
    (n : ℕ) (s : SnapshotInfo) : Prop :=
  ∃ k, key s = some k ∧ (∀ t ∈ l, key t = some k → olderFirst s t) ∧ (later key l k).card < n

/-- Some bucket keeps the snapshot. `day` is the calendar day of a snapshot. -/
def Retained (day : SnapshotInfo → Option ℤ) (l : List SnapshotInfo) (policy : RetentionPolicy)
    (s : SnapshotInfo) : Prop :=
  (∃ n ∈ policy.keepLast, (l.filter fun t => decide (olderFirst s t ∧ t ≠ s)).length < n) ∨
  (∃ n ∈ policy.keepDaily, KeptFor day l n s) ∨
  (∃ n ∈ policy.keepWeekly, KeptFor (fun t => (day t).map weekOf) l n s) ∨
  ∃ n ∈ policy.keepMonthly, KeptFor (fun t => (day t).map monthOf) l n s

/-- The day that `prune_plan` computes. -/
def dayKey (offset : ℤ) (s : SnapshotInfo) : Option ℤ := (effectiveTs s offset).map (· / 86400)

theorem weekOf_mono {m n : ℤ} (h : m ≤ n) : weekOf m ≤ weekOf n := by
  rw [weekOf, weekOf, Prod.Lex.toLex_le_toLex]
  exact isoWeek_mono h

theorem monthOf_mono {m n : ℤ} (h : m ≤ n) : monthOf m ≤ monthOf n := by
  rw [monthOf, monthOf, Prod.Lex.toLex_le_toLex]
  exact month_mono h

/-! ## The order of snapshots -/

theorem olderFirst_refl (s : SnapshotInfo) : olderFirst s s := Or.inr ⟨rfl, le_refl s.name⟩

theorem olderFirst_antisymm (s t : SnapshotInfo) (h : olderFirst s t) (h' : olderFirst t s) :
    s = t := by
  unfold olderFirst at h h'
  have htime : s.createdAt = t.createdAt := by omega
  have hname : s.name = t.name := by
    apply le_antisymm
    · exact (h.resolve_left (by omega)).2
    · exact (h'.resolve_left (by omega)).2
  cases s
  cases t
  simp_all

instance : Std.Total olderFirst where
  total s t := by
    unfold olderFirst
    rcases lt_trichotomy s.createdAt t.createdAt with h | h | h
    · exact Or.inl (Or.inl h)
    · rcases le_total s.name t.name with hle | hle
      · exact Or.inl (Or.inr ⟨h, hle⟩)
      · exact Or.inr (Or.inr ⟨h.symm, hle⟩)
    · exact Or.inr (Or.inl h)

instance : IsTrans SnapshotInfo olderFirst where
  trans s t u h h' := by
    unfold olderFirst at *
    rcases h with h | ⟨h, hle⟩
    · exact Or.inl (by omega)
    · rcases h' with h' | ⟨h', hle'⟩
      · exact Or.inl (by omega)
      · exact Or.inr ⟨h.trans h', le_trans hle hle'⟩

theorem ownSnapshots_sorted (snapshots : List SnapshotInfo) :
    (ownSnapshots snapshots).Pairwise olderFirst := List.pairwise_insertionSort olderFirst _

theorem ownSnapshots_perm (snapshots : List SnapshotInfo) : (ownSnapshots snapshots).Perm
    (snapshots.filter fun s => matchesSynora s.name) := List.perm_insertionSort olderFirst _

/-! ## The buckets of the plan -/

theorem representatives_eq {K : Type} [DecidableEq K] (keyOf : SnapshotInfo → Option K)
    (seen : List K) (l : List SnapshotInfo) :
    representatives keyOf seen l = (firsts keyOf seen l).map SnapshotInfo.name := by
  induction l generalizing seen with
  | nil => rfl
  | cons s l ih =>
    unfold representatives firsts
    cases keyOf s with
    | none => exact ih seen
    | some k =>
      simp only
      split
      · exact ih seen
      · rw [List.map_cons, ih]

theorem periodicKept_eq {K : Type} [DecidableEq K] (l : List SnapshotInfo) (n : ℕ)
    (keyOf : SnapshotInfo → Option K) : periodicKept l n keyOf =
      ((firsts keyOf [] l).reverse.take n).map SnapshotInfo.name := by
  unfold periodicKept
  split
  · rename_i hn
    rw [hn]
    rfl
  · rw [representatives_eq, ← List.map_reverse, ← List.map_take]

/-- Pairs of numbers are compared the same way whether or not they are ordered. -/
theorem periodicKept_toLex (l : List SnapshotInfo) (n : ℕ) (day : SnapshotInfo → Option ℤ)
    (f : ℤ → ℤ × ℤ) : periodicKept l n (fun s => (day s).map f) =
      periodicKept l n fun s => (day s).map fun d => toLex (f d) := by
  rw [periodicKept_eq, periodicKept_eq, ← firsts_map toLex.injective]
  simp only [Option.map_map, List.map_nil]
  rfl

section
variable {l : List SnapshotInfo} (hnodup : (l.map SnapshotInfo.name).Nodup)
include hnodup

theorem mem_map_name {sub : List SnapshotInfo} (hsub : ∀ s ∈ sub, s ∈ l) {s : SnapshotInfo}
    (hs : s ∈ l) : s.name ∈ sub.map SnapshotInfo.name ↔ s ∈ sub := by
  rw [List.mem_map]
  constructor
  · rintro ⟨t, ht, hname⟩
    have heq : t = s := List.inj_on_of_nodup_map hnodup (hsub t ht) hs hname
    rwa [← heq]
  · exact fun h => ⟨s, h, rfl⟩

variable (hsorted : l.Pairwise olderFirst)
include hsorted

theorem mem_periodicKept {K : Type} [LinearOrder K] {key : SnapshotInfo → Option K}
    (hmono : ∀ s ∈ l, ∀ t ∈ l, olderFirst s t → ∀ a ∈ key s, ∀ b ∈ key t, a ≤ b) {n : ℕ}
    {s : SnapshotInfo} (hs : s ∈ l) :
    s.name ∈ periodicKept l n key ↔ KeptFor key l n s := by
  have hmem := mem_newest_periods olderFirst_refl olderFirst_antisymm hsorted hmono (x := s)
    (n := n)
  have hsub (t : SnapshotInfo) (ht : t ∈ (firsts key [] l).reverse.take n) : t ∈ l := by
    have hfirst := List.mem_reverse.mp (List.mem_of_mem_take ht)
    exact (key_of_mem_firsts hfirst).1
  rw [periodicKept_eq, mem_map_name hnodup hsub hs, hmem]
  exact and_iff_right hs

/-- What the buckets of the plan keep, when later snapshots are not dated earlier. -/
theorem mem_kept {offset : ℤ} {policy : RetentionPolicy}
    (hmono : ∀ s ∈ l, ∀ t ∈ l, olderFirst s t →
      ∀ a ∈ dayKey offset s, ∀ b ∈ dayKey offset t, a ≤ b) {s : SnapshotInfo} (hs : s ∈ l) :
    s.name ∈ kept l policy offset ↔ Retained (dayKey offset) l policy s := by
  have hlast (n : ℕ) : s.name ∈ (l.reverse.take n).map SnapshotInfo.name ↔
      (l.filter fun t => decide (olderFirst s t ∧ t ≠ s)).length < n := by
    have hsub (t : SnapshotInfo) (ht : t ∈ l.reverse.take n) : t ∈ l :=
      List.mem_reverse.mp (List.mem_of_mem_take ht)
    rw [mem_map_name hnodup hsub hs,
      mem_newest olderFirst_antisymm (List.Nodup.of_map _ hnodup) hsorted]
    exact and_iff_right hs
  have hcoarse {f : ℤ → ℤ ×ₗ ℤ} (hf : ∀ {a b}, a ≤ b → f a ≤ f b) : ∀ s ∈ l, ∀ t ∈ l,
      olderFirst s t → ∀ a ∈ (dayKey offset s).map f, ∀ b ∈ (dayKey offset t).map f, a ≤ b := by
    intro s hs t ht hst a ha b hb
    obtain ⟨d, hd, rfl⟩ := Option.map_eq_some_iff.mp ha
    obtain ⟨e, he, rfl⟩ := Option.map_eq_some_iff.mp hb
    exact hf (hmono s hs t ht hst d hd e he)
  have hgetD {o : Option ℕ} {f : ℕ → List Text} :
      s.name ∈ (o.map f).getD [] ↔ ∃ n ∈ o, s.name ∈ f n := by
    cases o <;> simp
  have hday (n : ℕ) : s.name ∈ periodicKept l n (dayKey offset) ↔ KeptFor (dayKey offset) l n s :=
    mem_periodicKept hnodup hsorted hmono hs
  have hweek (n : ℕ) : s.name ∈ periodicKept l n (fun t => (dayKey offset t).map isoWeekKey) ↔
      KeptFor (fun t => (dayKey offset t).map weekOf) l n s := by
    rw [periodicKept_toLex]
    exact mem_periodicKept hnodup hsorted (hcoarse weekOf_mono) hs
  have hmonth (n : ℕ) : s.name ∈ periodicKept l n (fun t => (dayKey offset t).map fun day =>
      ((ofDay day).year, (ofDay day).month)) ↔
      KeptFor (fun t => (dayKey offset t).map monthOf) l n s := by
    rw [periodicKept_toLex]
    exact mem_periodicKept hnodup hsorted (hcoarse monthOf_mono) hs
  unfold kept Retained
  simp only [List.mem_append, hgetD, hlast, or_assoc]
  refine or_congr_right (or_congr ?_ (or_congr ?_ ?_))
  · exact exists_congr fun n => and_congr_right fun _ => hday n
  · exact exists_congr fun n => and_congr_right fun _ => hweek n
  · exact exists_congr fun n => and_congr_right fun _ => hmonth n

end

/-! ## Dates -/

/-- Every creation time is known, or none is and the names carry the times. -/
def Dated (snapshots : List SnapshotInfo) : Prop :=
  (∀ s ∈ snapshots, 0 < s.createdAt) ∨
    ∀ s ∈ snapshots, s.createdAt = 0 ∧ (matchesSynora s.name → DigitName s.name)

theorem dayKey_mono {snapshots : List SnapshotInfo} (h : Dated snapshots) {offset : ℤ}
    {s t : SnapshotInfo} (hs : s ∈ snapshots) (ht : t ∈ snapshots) (hst : olderFirst s t) {a b : ℤ}
    (ha : a ∈ dayKey offset s) (hb : b ∈ dayKey offset t) : a ≤ b := by
  obtain ⟨u, hu, rfl⟩ := Option.map_eq_some_iff.mp ha
  obtain ⟨v, hv, rfl⟩ := Option.map_eq_some_iff.mp hb
  unfold effectiveTs at hu hv
  unfold olderFirst at hst
  rcases h with h | h
  · rw [if_pos (h s hs), Option.ite_none_right_eq_some, Option.some.injEq] at hu
    rw [if_pos (h t ht), Option.ite_none_right_eq_some, Option.some.injEq] at hv
    omega
  · obtain ⟨hs0, hsname⟩ := h s hs
    obtain ⟨ht0, htname⟩ := h t ht
    rw [if_neg (by omega)] at hu hv
    have hle := (hst.resolve_left (by omega)).2
    have hs' : matchesSynora s.name = true := by rw [matchesSynora, hu]; rfl
    have ht' : matchesSynora t.name = true := by rw [matchesSynora, hv]; rfl
    have := (hsname hs').time_le (htname ht') hle hu hv
    omega

/-- Some bucket that is not empty goes by the calendar. -/
def RetentionPolicy.dates (policy : RetentionPolicy) : Bool :=
  [policy.keepDaily, policy.keepWeekly, policy.keepMonthly].any fun n => n.any (0 < ·)

/-- The time is one of the calendar in UTC, but not at the offset. -/
def pastCalendar (offset : ℤ) (s : SnapshotInfo) : Bool :=
  decide (0 < s.createdAt ∧ s.createdAt ≤ maxTimestamp ∧ maxTimestamp < s.createdAt + offset)

/-- `prune_plan`; `none` is the panic of `to_offset` at a time past the calendar. -/
def prunePlanAt (snapshots : List SnapshotInfo) (policy : RetentionPolicy) (offset : ℤ) :
    Option (List Text) :=
  if policy.dates && (ownSnapshots snapshots).any (pastCalendar offset) then none
  else some (prunePlan snapshots policy offset)

/-! ## The plan -/

theorem nodup_own {snapshots : List SnapshotInfo} (h : (snapshots.map SnapshotInfo.name).Nodup) :
    ((ownSnapshots snapshots).map SnapshotInfo.name).Nodup := by
  rw [((ownSnapshots_perm snapshots).map SnapshotInfo.name).nodup_iff]
  exact h.sublist (List.filter_sublist.map SnapshotInfo.name)

/-- The plan lists the snapshots that no bucket keeps. -/
theorem mem_prunePlan_iff {snapshots : List SnapshotInfo} {policy : RetentionPolicy} {offset : ℤ}
    (hnodup : (snapshots.map SnapshotInfo.name).Nodup) (hdated : Dated snapshots) {name : Text} :
    name ∈ prunePlan snapshots policy offset ↔ ∃ s ∈ snapshots, s.name = name ∧
      matchesSynora s.name = true ∧
      ¬Retained (dayKey offset) (ownSnapshots snapshots) policy s := by
  have hkept {s : SnapshotInfo} (hs : s ∈ ownSnapshots snapshots) :
      s.name ∈ kept (ownSnapshots snapshots) policy offset ↔
        Retained (dayKey offset) (ownSnapshots snapshots) policy s := by
    refine mem_kept (nodup_own hnodup) (ownSnapshots_sorted snapshots) ?_ hs
    intro s hs t ht hst a ha b hb
    exact dayKey_mono hdated (mem_ownSnapshots.mp hs).1 (mem_ownSnapshots.mp ht).1 hst ha hb
  rw [mem_prunePlan]
  constructor
  · rintro ⟨⟨s, hs, rfl⟩, hown, hnot⟩
    exact ⟨s, hs, rfl, hown, (hkept (mem_ownSnapshots.mpr ⟨hs, hown⟩)).not.mp hnot⟩
  · rintro ⟨s, hs, rfl, hown, hnot⟩
    exact ⟨⟨s, hs, rfl⟩, hown, (hkept (mem_ownSnapshots.mpr ⟨hs, hown⟩)).not.mpr hnot⟩

theorem prunePlan_nodup {snapshots : List SnapshotInfo} {policy : RetentionPolicy} {offset : ℤ}
    (h : (snapshots.map SnapshotInfo.name).Nodup) :
    (prunePlan snapshots policy offset).Nodup :=
  (nodup_own h).sublist (List.filter_sublist.map SnapshotInfo.name)

/-- The order of the list does not matter, nor do days of other snapshots. -/
theorem keptFor_congr {K : Type} [LinearOrder K] {key key' : SnapshotInfo → Option K}
    {l l' : List SnapshotInfo} (hperm : l.Perm l') (hkey : ∀ t ∈ l, key t = key' t) {n : ℕ}
    {s : SnapshotInfo} (hs : s ∈ l) : KeptFor key l n s ↔ KeptFor key' l' n s := by
  unfold KeptFor
  have hlater (k : K) : later key l k = later key' l' k := by
    unfold later
    rw [List.filterMap_congr hkey, List.toFinset_eq_of_perm _ _ (hperm.filterMap key')]
  simp only [hkey s hs, hlater]
  refine exists_congr fun k => and_congr_right fun _ => and_congr_left fun _ => ?_
  constructor
  · intro h t ht hk
    have ht' := hperm.mem_iff.mpr ht
    exact h t ht' ((hkey t ht').trans hk)
  · intro h t ht hk
    exact h t (hperm.mem_iff.mp ht) ((hkey t ht).symm.trans hk)

theorem retained_congr {day day' : SnapshotInfo → Option ℤ} {l l' : List SnapshotInfo}
    (hperm : l.Perm l') (hday : ∀ t ∈ l, day t = day' t) {policy : RetentionPolicy}
    {s : SnapshotInfo} (hs : s ∈ l) : Retained day l policy s ↔ Retained day' l' policy s := by
  have hcoarse {f : ℤ → ℤ ×ₗ ℤ} (n : ℕ) : KeptFor (fun t => (day t).map f) l n s ↔
      KeptFor (fun t => (day' t).map f) l' n s :=
    keptFor_congr hperm (fun t ht => by rw [hday t ht]) hs
  unfold Retained
  simp only [(hperm.filter _).length_eq, keptFor_congr hperm hday hs, hcoarse]

/-! ## The documented retention -/

/-- The calendar day of a snapshot at the offset. -/
def calendarDay (offset : ℤ) (s : SnapshotInfo) : ℤ :=
  (if 0 < s.createdAt then s.createdAt + offset else (parseSnapshotName s.name).getD 0) / 86400

theorem dayKey_eq {offset : ℤ} {s : SnapshotInfo} (hown : matchesSynora s.name = true)
    (h : s.createdAt ≤ maxTimestamp) : dayKey offset s = some (calendarDay offset s) := by
  unfold dayKey effectiveTs calendarDay
  rw [if_pos h]
  split
  · rfl
  · obtain ⟨t, ht⟩ := Option.isSome_iff_exists.mp hown
    rw [ht]
    rfl

/-- The times are known and `now`'s offset can express them, or the names carry them. -/
def DatedAt (offset : ℤ) (snapshots : List SnapshotInfo) : Prop :=
  (∀ s ∈ snapshots, 0 < s.createdAt ∧ s.createdAt ≤ maxTimestamp ∧
    s.createdAt + offset ≤ maxTimestamp) ∨
  ∀ s ∈ snapshots, s.createdAt = 0 ∧ (matchesSynora s.name → DigitName s.name)

theorem DatedAt.dated {offset : ℤ} {snapshots : List SnapshotInfo} (h : DatedAt offset snapshots) :
    Dated snapshots := h.imp_left fun h s hs => (h s hs).1

theorem prunePlanAt_eq_some {snapshots : List SnapshotInfo} {offset : ℤ}
    (h : ∀ s ∈ ownSnapshots snapshots, pastCalendar offset s = false) (policy : RetentionPolicy) :
    prunePlanAt snapshots policy offset = some (prunePlan snapshots policy offset) := by
  have hnone : (ownSnapshots snapshots).any (pastCalendar offset) = false := by
    rw [List.any_eq_false]
    exact fun s hs => by simp [h s hs]
  unfold prunePlanAt
  rw [hnone, Bool.and_false]
  rfl

/-- The plan names snapshots of the program only; and it names exactly those that are neither among
the newest nor the oldest of one of the newest days, weeks or months. -/
theorem prunePlan_exact :
    (∀ snapshots policy offset plan, prunePlanAt snapshots policy offset = some plan →
      ∀ name ∈ plan, (parseSnapshotName name).isSome) ∧
    ∀ snapshots policy offset, (snapshots.map SnapshotInfo.name).Nodup →
      DatedAt offset snapshots → ∃ plan, prunePlanAt snapshots policy offset = some plan ∧
        plan.Nodup ∧ ∀ name, name ∈ plan ↔ ∃ s ∈ snapshots, s.name = name ∧
          (parseSnapshotName name).isSome ∧ ¬Retained (fun s => some (calendarDay offset s))
            (snapshots.filter fun s => matchesSynora s.name) policy s := by
  constructor
  · intro snapshots policy offset plan hplan name hname
    unfold prunePlanAt at hplan
    rw [Option.ite_none_left_eq_some, Option.some.injEq] at hplan
    rw [← hplan.2, mem_prunePlan] at hname
    exact hname.2.1
  · intro snapshots policy offset hnodup hdated
    have hinside (s : SnapshotInfo) (hs : s ∈ ownSnapshots snapshots) :
        s.createdAt ≤ maxTimestamp ∧ pastCalendar offset s = false := by
      have hs' := (mem_ownSnapshots.mp hs).1
      unfold pastCalendar
      rw [decide_eq_false_iff_not]
      rcases hdated with h | h
      · have := h s hs'
        omega
      · have := (h s hs').1
        have hmax : maxTimestamp = 253402300799 := rfl
        omega
    refine ⟨_, prunePlanAt_eq_some (fun s hs => (hinside s hs).2) policy,
      prunePlan_nodup hnodup, fun name => ?_⟩
    rw [mem_prunePlan_iff hnodup hdated.dated]
    refine exists_congr fun s => and_congr_right fun hs => and_congr_right fun hname => ?_
    subst hname
    refine and_congr_right fun hown => not_congr ?_
    refine retained_congr (ownSnapshots_perm snapshots) (fun t ht => ?_)
      (mem_ownSnapshots.mpr ⟨hs, hown⟩)
    exact dayKey_eq (mem_ownSnapshots.mp ht).2 (hinside t ht).1

/-- Two snapshots of one day and one of the next. -/
def threeSnapshots : List SnapshotInfo :=
  [⟨"synora-20260816-020000".toList, 1786845600⟩, ⟨"synora-20260815-130000".toList, 1786798800⟩,
    ⟨"synora-20260815-010000".toList, 1786755600⟩]

def keepTwoDays : RetentionPolicy := ⟨some 1, some 2, none, none⟩

theorem threeSnapshots_dated : DatedAt 0 threeSnapshots := by
  refine Or.inl ?_
  decide +kernel

theorem prunePlan_exact_three : ∃ plan, prunePlanAt threeSnapshots keepTwoDays 0 = some plan ∧
    ("synora-20260815-130000".toList ∈ plan ↔ ∃ s ∈ threeSnapshots,
      s.name = "synora-20260815-130000".toList ∧
      (parseSnapshotName "synora-20260815-130000".toList).isSome ∧
      ¬Retained (fun s => some (calendarDay 0 s))
        (threeSnapshots.filter fun s => matchesSynora s.name) keepTwoDays s) := by
  obtain ⟨plan, hplan, -, hmem⟩ := prunePlan_exact.2 threeSnapshots keepTwoDays 0
    (by decide +kernel) threeSnapshots_dated
  exact ⟨plan, hplan, hmem _⟩

/-- A snapshot from the first second of the year 10000. -/
def beyondCalendar : SnapshotInfo := ⟨"synora-20260816-020000".toList, 253402300800⟩

/-- It has a calendar day, and is the only one of it, but the day's bucket does not keep it. -/
theorem beyondCalendar_pruned :
    ¬∀ snapshots policy offset, (snapshots.map SnapshotInfo.name).Nodup → Dated snapshots →
      ∃ plan, prunePlanAt snapshots policy offset = some plan ∧ ∀ name, name ∈ plan ↔
        ∃ s ∈ snapshots, s.name = name ∧ (parseSnapshotName name).isSome ∧
          ¬Retained (fun s => some (calendarDay offset s))
            (snapshots.filter fun s => matchesSynora s.name) policy s := by
  intro h
  have hdated : Dated [beyondCalendar] := Or.inl (by decide +kernel)
  obtain ⟨plan, hplan, hmem⟩ := h [beyondCalendar] ⟨none, some 1, none, none⟩ 0 (by decide) hdated
  have hplan' : prunePlanAt [beyondCalendar] ⟨none, some 1, none, none⟩ 0 =
      some [beyondCalendar.name] := by decide +kernel
  rw [hplan', Option.some.injEq] at hplan
  obtain ⟨s, hs, -, -, hnot⟩ := (hmem beyondCalendar.name).mp (by rw [← hplan]; simp)
  rw [List.mem_singleton] at hs
  have hfilter : ([beyondCalendar].filter fun s => matchesSynora s.name) = [beyondCalendar] := by
    decide +kernel
  rw [hs, hfilter] at hnot
  refine hnot (Or.inr (Or.inl ⟨1, rfl, calendarDay 0 beyondCalendar, rfl, ?_, ?_⟩))
  · intro t ht _
    rw [List.mem_singleton.mp ht]
    exact olderFirst_refl _
  · decide +kernel

/-! ## Pruning again, and under other policies -/

/-- Counts are raised, and buckets are added. -/
structure RetentionPolicy.Raised (p q : RetentionPolicy) : Prop where
  keepLast : ∀ n ∈ p.keepLast, ∃ m ∈ q.keepLast, n ≤ m
  keepDaily : ∀ n ∈ p.keepDaily, ∃ m ∈ q.keepDaily, n ≤ m
  keepWeekly : ∀ n ∈ p.keepWeekly, ∃ m ∈ q.keepWeekly, n ≤ m
  keepMonthly : ∀ n ∈ p.keepMonthly, ∃ m ∈ q.keepMonthly, n ≤ m

section
variable {K : Type} [LinearOrder K] {key : SnapshotInfo → Option K} {l l' : List SnapshotInfo}
  {s : SnapshotInfo}

theorem KeptFor.raise {m n : ℕ} (hle : n ≤ m) (h : KeptFor key l n s) : KeptFor key l m s := by
  obtain ⟨k, hk, holdest, hlater⟩ := h
  exact ⟨k, hk, holdest, lt_of_lt_of_le hlater hle⟩

/-- With fewer snapshots there are fewer later periods. -/
theorem KeptFor.restrict {n : ℕ} (hsub : ∀ t ∈ l', t ∈ l) (h : KeptFor key l n s) :
    KeptFor key l' n s := by
  obtain ⟨k, hk, holdest, hlater⟩ := h
  refine ⟨k, hk, fun t ht => holdest t (hsub t ht), lt_of_le_of_lt (Finset.card_le_card ?_) hlater⟩
  intro j hj
  simp only [later, Finset.mem_filter, List.mem_toFinset, List.mem_filterMap] at hj ⊢
  obtain ⟨⟨t, ht, htj⟩, hlt⟩ := hj
  exact ⟨⟨t, hsub t ht, htj⟩, hlt⟩

end

theorem Retained.raise {day : SnapshotInfo → Option ℤ} {l : List SnapshotInfo}
    {p q : RetentionPolicy} {s : SnapshotInfo} (hraised : p.Raised q) (h : Retained day l p s) :
    Retained day l q s := by
  rcases h with ⟨n, hn, h⟩ | ⟨n, hn, h⟩ | ⟨n, hn, h⟩ | ⟨n, hn, h⟩
  · obtain ⟨m, hm, hle⟩ := hraised.keepLast n hn
    exact Or.inl ⟨m, hm, lt_of_lt_of_le h hle⟩
  · obtain ⟨m, hm, hle⟩ := hraised.keepDaily n hn
    exact Or.inr (Or.inl ⟨m, hm, h.raise hle⟩)
  · obtain ⟨m, hm, hle⟩ := hraised.keepWeekly n hn
    exact Or.inr (Or.inr (Or.inl ⟨m, hm, h.raise hle⟩))
  · obtain ⟨m, hm, hle⟩ := hraised.keepMonthly n hn
    exact Or.inr (Or.inr (Or.inr ⟨m, hm, h.raise hle⟩))

theorem Retained.restrict {day : SnapshotInfo → Option ℤ} {l l' : List SnapshotInfo}
    {policy : RetentionPolicy} {s : SnapshotInfo} (hsub : ∀ t ∈ l', t ∈ l) (hnodup : l'.Nodup)
    (h : Retained day l policy s) : Retained day l' policy s := by
  rcases h with ⟨n, hn, h⟩ | ⟨n, hn, h⟩ | ⟨n, hn, h⟩ | ⟨n, hn, h⟩
  · refine Or.inl ⟨n, hn, lt_of_le_of_lt ?_ h⟩
    have hsubperm : l'.Subperm l := List.subperm_of_subset hnodup hsub
    exact (hsubperm.filter _).length_le
  · exact Or.inr (Or.inl ⟨n, hn, h.restrict hsub⟩)
  · exact Or.inr (Or.inr (Or.inl ⟨n, hn, h.restrict hsub⟩))
  · exact Or.inr (Or.inr (Or.inr ⟨n, hn, h.restrict hsub⟩))

/-- The snapshots that a plan leaves. -/
def survivors (snapshots : List SnapshotInfo) (plan : List Text) : List SnapshotInfo :=
  snapshots.filter fun s => decide (s.name ∉ plan)

/-- Nothing is left to prune, and a more generous policy prunes no more. -/
def Stable (snapshots : List SnapshotInfo) (policy : RetentionPolicy) (offset : ℤ) : Prop :=
  ∃ plan, prunePlanAt snapshots policy offset = some plan ∧
    prunePlanAt (survivors snapshots plan) policy offset = some [] ∧
    ∀ q, policy.Raised q → ∃ plan', prunePlanAt snapshots q offset = some plan' ∧ plan' ⊆ plan

theorem prunePlan_survivors {snapshots : List SnapshotInfo} {policy : RetentionPolicy} {offset : ℤ}
    (hnodup : (snapshots.map SnapshotInfo.name).Nodup) (hdated : Dated snapshots) :
    prunePlan (survivors snapshots (prunePlan snapshots policy offset)) policy offset = [] := by
  have hsub (s : SnapshotInfo) (hs : s ∈ survivors snapshots (prunePlan snapshots policy offset)) :
      s ∈ snapshots ∧ s.name ∉ prunePlan snapshots policy offset := by
    simpa [survivors] using hs
  have hnodup' : ((survivors snapshots (prunePlan snapshots policy offset)).map
      SnapshotInfo.name).Nodup := hnodup.sublist (List.filter_sublist.map _)
  have hdated' : Dated (survivors snapshots (prunePlan snapshots policy offset)) :=
    hdated.imp (fun h s hs => h s (hsub s hs).1) fun h s hs => h s (hsub s hs).1
  rw [List.eq_nil_iff_forall_not_mem]
  intro name hname
  rw [mem_prunePlan_iff hnodup' hdated'] at hname
  obtain ⟨s, hs, -, hown, hnot⟩ := hname
  -- the survivor was kept by a bucket, and the bucket still keeps it
  have hkept : Retained (dayKey offset) (ownSnapshots snapshots) policy s := by
    by_contra hpruned
    exact (hsub s hs).2 ((mem_prunePlan_iff hnodup hdated).mpr
      ⟨s, (hsub s hs).1, rfl, hown, hpruned⟩)
  refine hnot (hkept.restrict (fun t ht => ?_) (List.Nodup.of_map _ (nodup_own hnodup')))
  rw [mem_ownSnapshots] at ht ⊢
  exact ⟨(hsub t ht.1).1, ht.2⟩

theorem prunePlan_antitone {snapshots : List SnapshotInfo} {p q : RetentionPolicy} {offset : ℤ}
    (hnodup : (snapshots.map SnapshotInfo.name).Nodup) (hdated : Dated snapshots)
    (hraised : p.Raised q) : prunePlan snapshots q offset ⊆ prunePlan snapshots p offset := by
  intro name hname
  rw [mem_prunePlan_iff hnodup hdated] at hname ⊢
  obtain ⟨s, hs, heq, hown, hnot⟩ := hname
  exact ⟨s, hs, heq, hown, fun hkept => hnot (hkept.raise hraised)⟩

end Synora.Storage
