import Mathlib.Data.List.Sort
import Mathlib.Data.String.Basic
import Synora.Db.StoreSpec

namespace Synora.Db
open Core

/-- `ORDER BY priority DESC, created_at` -/
def runOrder (a b : RunRow) : Prop :=
  b.priority < a.priority ∨ (a.priority = b.priority ∧ a.createdAt ≤ b.createdAt)

instance : DecidableRel runOrder := fun a b =>
  inferInstanceAs (Decidable (b.priority < a.priority ∨ _))

def runsWhere (t : Tables) (p : RunRow → Bool) : List RunRow :=
  (t.jobRuns.filter p).insertionSort runOrder

def dueRetries (t : Tables) (now : Time) : List RunRow :=
  runsWhere t fun r => decide (r.status = .retrying ∧ ∃ n ∈ r.nextRetryAt, n ≤ now)

def activeRunsOfJob (t : Tables) (job : String) : List RunRow :=
  runsWhere t fun r => decide (r.jobId = job ∧ r.status.isExecuting)

def expiredRuns (t : Tables) (now : Time) : List RunRow :=
  runsWhere t fun r => decide ((∃ w ∈ r.workerId, w ≠ localWorker) ∧ r.status.isActive ∧
    ∃ e ∈ r.leaseExpiresAt, e ≤ now)

/-- What a worker may pick up. -/
def queuedRuns (t : Tables) (worker : String) : List RunRow :=
  runsWhere t fun r => decide (r.status = .queued ∧ (r.workerId = none ∨ r.workerId = some worker))

def inflightRunsOfJob (t : Tables) (job : String) : List RunRow :=
  runsWhere t fun r => decide (r.jobId = job ∧ r.status.isInflight)

/-- `ORDER BY created_at DESC, id DESC` -/
def newest (a b : RunRow) : Prop :=
  b.createdAt < a.createdAt ∨ (a.createdAt = b.createdAt ∧ b.id ≤ a.id)

instance : DecidableRel newest := fun a b =>
  inferInstanceAs (Decidable (b.createdAt < a.createdAt ∨ _))

def runHistory (t : Tables) (job : String) (limit : ℕ) : List RunRow :=
  ((t.jobRuns.filter fun r => decide (r.jobId = job)).insertionSort newest).take limit

theorem mem_runsWhere {t : Tables} {p : RunRow → Bool} {r : RunRow} :
    r ∈ runsWhere t p ↔ r ∈ t.jobRuns ∧ p r := by
  rw [runsWhere, (List.perm_insertionSort runOrder _).mem_iff, List.mem_filter]

/-! ## The newest run of a job -/

instance : Std.Total newest where
  total a b := by
    rcases lt_trichotomy a.createdAt b.createdAt with h | h | h
    · exact Or.inr (Or.inl h)
    · rcases le_total b.id a.id with hid | hid
      · exact Or.inl (Or.inr ⟨h, hid⟩)
      · exact Or.inr (Or.inr ⟨h.symm, hid⟩)
    · exact Or.inl (Or.inl h)

instance : IsTrans RunRow newest where
  trans a b c := by
    rintro (hab | ⟨hab, hid⟩) (hbc | ⟨hbc, hid'⟩)
    · exact Or.inl (hbc.trans hab)
    · exact Or.inl (hbc ▸ hab)
    · exact Or.inl (hab ▸ hbc)
    · exact Or.inr ⟨hab.trans hbc, hid'.trans hid⟩

theorem newest_antisymm {a b : RunRow} (h : newest a b) (h' : newest b a) : a.id = b.id := by
  rcases h with h | ⟨h, hid⟩ <;> rcases h' with h' | ⟨h', hid'⟩
  · exact absurd h' h.asymm
  · exact absurd h' h.ne
  · exact absurd h h'.ne
  · exact le_antisymm hid' hid

/-- `run_history(job, 1)` is the newest run of the job. -/
theorem head_runHistory {t : Tables} (hv : t.Valid) {job : String} {r : RunRow} :
    (runHistory t job 1).head? = some r ↔
      r ∈ t.jobRuns ∧ r.jobId = job ∧ ∀ x ∈ t.jobRuns, x.jobId = job → newest r x := by
  have hmem (x : RunRow) : x ∈ (t.jobRuns.filter fun r => decide (r.jobId = job)).insertionSort
      newest ↔ x ∈ t.jobRuns ∧ x.jobId = job := by simp
  have hsort := List.pairwise_insertionSort newest
    (t.jobRuns.filter fun r => decide (r.jobId = job))
  rw [runHistory, List.head?_take, if_neg one_ne_zero]
  cases hl : (t.jobRuns.filter fun r => decide (r.jobId = job)).insertionSort newest with
  | nil =>
    simp only [hl, List.not_mem_nil, false_iff, not_and] at hmem
    simp only [List.head?_nil, reduceCtorEq, false_iff, not_and]
    intro hr hj
    exact absurd hj (hmem r hr)
  | cons y l =>
    rw [hl] at hsort hmem
    have hy := (hmem y).mp List.mem_cons_self
    have hle : ∀ x ∈ t.jobRuns, x.jobId = job → newest y x := by
      intro x hx hj
      rcases List.mem_cons.mp ((hmem x).mpr ⟨hx, hj⟩) with rfl | hx
      · exact (total_of newest x x).elim id id
      · exact (List.pairwise_cons.mp hsort).1 x hx
    rw [List.head?_cons, Option.some.injEq]
    constructor
    · rintro rfl
      exact ⟨hy.1, hy.2, hle⟩
    · rintro ⟨hr, hj, hnew⟩
      have hid : y.id = r.id := newest_antisymm (hle r hr hj) (hnew y hy.1 hy.2)
      exact Option.some.inj ((hv.run_of_mem hy.1).symm.trans (hid ▸ hv.run_of_mem hr))

theorem exists_head_runHistory {t : Tables} {job : String} {r : RunRow} (hr : r ∈ t.jobRuns)
    (hj : r.jobId = job) : ∃ x, (runHistory t job 1).head? = some x := by
  have hmem : r ∈ (t.jobRuns.filter fun r => decide (r.jobId = job)).insertionSort newest := by
    simp [hr, hj]
  rw [runHistory, List.head?_take, if_neg one_ne_zero]
  exact ⟨_, List.head?_eq_some_head (List.ne_nil_of_mem hmem)⟩

end Synora.Db
