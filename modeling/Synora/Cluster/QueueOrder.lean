import Synora.Cluster.System

namespace Synora.Db
open Core Table

/-! ## The priority column -/

/-- The priority that an `INSERT` gives; the column's default where it names none. -/
def Stmt.priority : Stmt → ℤ
  | .createRun _ _ _ _ priority _ => priority
  | _ => 0

theorem RunStmt.write_priority (u : RunStmt) (r : RunRow) :
    (u.update.write r).priority = r.priority := by
  cases u <;> rfl

theorem priority_of_inserted {t : Tables} {q : Stmt} {id : String} {r : RunRow}
    (hn : t.run id = none) (hr : (after t q).run id = some r) (hins : Inserted q id r) :
    r.priority = q.priority := by
  have hnew : ∀ {row : RunRow}, lookup RunRow.id id (t.jobRuns ++ [row]) = some r → row = r := by
    intro row hrow
    obtain h | ⟨-, -, h⟩ := lookup_concat RunRow.id id t.jobRuns row
    · exact absurd (hrow.symm.trans (h.trans hn)) (Option.some_ne_none r)
    · exact Option.some.inj (h.symm.trans hrow)
  obtain ⟨he, -⟩ | ⟨he, -⟩ := after_eq t q
  swap
  · rw [he, hn] at hr
    cases hr
  rw [he] at hr
  obtain ⟨job, worker, status, priority, now, rfl, -⟩ | ⟨src, worker, now, rfl, -⟩ := hins.source
  · rw [← hnew hr]
    rfl
  · unfold Stmt.effect createLostRequeue at hr
    dsimp only at hr
    split at hr
    · exact absurd (hr.symm.trans hn) (Option.some_ne_none r)
    split at hr
    · rw [← hnew hr]
      rfl
    · exact absurd (hr.symm.trans hn) (Option.some_ne_none r)

/-- The column is written once, by the `INSERT`. -/
theorem priority_after {t : Tables} (hv : t.Valid) {q : Stmt} {id : String} {r' : RunRow}
    (h : (after t q).run id = some r') :
    (∃ r, t.run id = some r ∧ r'.priority = r.priority) ∨
      (t.run id = none ∧ r'.priority = q.priority) := by
  obtain heq | ⟨u, r, rfl, hr, -, hw, -⟩ | ⟨hn, r, hr, hins⟩ | ⟨job, -, hnone⟩ := after_run hv q id
  · exact Or.inl ⟨r', heq ▸ h, rfl⟩
  · rw [hw, Option.some.injEq] at h
    exact Or.inl ⟨r, hr, h ▸ u.write_priority r⟩
  · obtain rfl := Option.some.inj (hr.symm.trans h)
    exact Or.inr ⟨hn, priority_of_inserted hn hr hins⟩
  · rw [hnone] at h
    cases h

end Synora.Db

namespace Synora.Cluster
open Core Db Manager

/-! ## Queued runs -/

instance : Std.Total runOrder where
  total a b := by
    rcases lt_trichotomy a.priority b.priority with h | h | h
    · exact Or.inr (Or.inl h)
    · rcases le_total a.createdAt b.createdAt with hat | hat
      · exact Or.inl (Or.inr ⟨h, hat⟩)
      · exact Or.inr (Or.inr ⟨h.symm, hat⟩)
    · exact Or.inl (Or.inl h)

instance : IsTrans RunRow runOrder where
  trans a b c := by
    rintro (hab | ⟨hab, hat⟩) (hbc | ⟨hbc, hat'⟩)
    · exact Or.inl (hbc.trans hab)
    · exact Or.inl (hbc ▸ hab)
    · exact Or.inl (hab ▸ hbc)
    · exact Or.inr ⟨hab.trans hbc, hat.trans hat'⟩

/-- What `SELECT … ORDER BY priority DESC, created_at` may answer: rows that are equal in both come
in any order. -/
def Answers (t : Tables) (p : RunRow → Bool) (rows : List RunRow) : Prop :=
  rows.Perm (t.jobRuns.filter p) ∧ rows.Pairwise runOrder

theorem answers_runsWhere (t : Tables) (p : RunRow → Bool) : Answers t p (runsWhere t p) :=
  ⟨List.perm_insertionSort runOrder _, List.pairwise_insertionSort runOrder _⟩

/-- The condition of `assigned_runs`. -/
def isAssigned (t : Tables) (worker : String) (r : RunRow) : Bool :=
  decide (r.status = .queued ∧ r.workerId = some worker ∧
    r.jobId ∉ (t.jobRuns.filter fun a => a.status.isExecuting).map RunRow.jobId)

/-- The condition of `queued_runs`. -/
def isQueuedFor (worker : String) (r : RunRow) : Bool :=
  decide (r.status = .queued ∧ (r.workerId = none ∨ r.workerId = some worker))

theorem answers_assignedRuns (t : Tables) (worker : String) :
    Answers t (isAssigned t worker) (assignedRuns t worker) := answers_runsWhere t _

theorem answers_queuedRuns (t : Tables) (worker : String) :
    Answers t (isQueuedFor worker) (queuedRuns t worker) := answers_runsWhere t _

/-- The database, and which of its runs an operator has asked for. -/
structure Queue where
  db : Tables
  forced : String → Bool

/-- What is done to the queue: `dispatch_current` queues or skips a run, and every other statement
of the store, retries and requeues among them. -/
inductive QueueAct
  | dispatch (id job : String) (worker : Option String) (forced : Bool) (now : Time)
  | skip (id job : String) (now : Time)
  | other (q : Stmt)
deriving DecidableEq, Repr

namespace QueueAct

def stmt : QueueAct → Stmt
  | .dispatch id job worker forced now =>
    .createRun id job worker .queued (if forced then 1 else 0) now
  | .skip id job now => .createRun id job none .skipped 0 now
  | .other q => q

def forces : QueueAct → String → Bool
  | .dispatch id _ _ forced _ => fun name => forced && decide (name = id)
  | _ => fun _ => false

/-- No run is created but by `dispatch_current` and `create_lost_requeue`. -/
def allowed : QueueAct → Bool
  | .other (.createRun ..) => false
  | _ => true

end QueueAct

namespace Queue

def empty : Queue := ⟨.empty, fun _ => false⟩

def step (s : Queue) (a : QueueAct) : Option Queue :=
  if a.allowed then
    some ⟨after s.db a.stmt, fun id => if (s.db.run id).isSome then s.forced id else a.forces id⟩
  else none

/-- The column holds the operator's demand and nothing else. -/
structure Columns (s : Queue) : Prop where
  valid : s.db.Valid
  priority : ∀ id r, s.db.run id = some r → r.priority = if s.forced id then 1 else 0

theorem columns_empty : Columns empty where
  valid := Tables.empty_valid
  priority _ _ h := by cases h

/-- What an allowed statement gives to the run that it inserts. -/
theorem priority_of_allowed {a : QueueAct} {id : String} {r : RunRow} (ha : a.allowed = true)
    (hins : Inserted a.stmt id r) : a.stmt.priority = if a.forces id then 1 else 0 := by
  rcases a with ⟨_, job, worker, forced, now⟩ | ⟨_, job, now⟩ | q
  · obtain ⟨_, _, _, _, _, heq, -⟩ | ⟨_, _, _, heq, -⟩ := hins.source
    · obtain rfl := (Stmt.createRun.inj heq).1
      simp [QueueAct.stmt, QueueAct.forces, Stmt.priority]
    · cases heq
  · rfl
  · obtain ⟨_, _, _, _, _, rfl, -⟩ | ⟨_, _, _, rfl, -⟩ := hins.source
    · cases ha
    · rfl

theorem columns_step {s s' : Queue} {a : QueueAct} (h : Columns s) (hs : step s a = some s') :
    Columns s' := by
  obtain ⟨ha, hs⟩ := Option.ite_none_right_eq_some.mp hs
  obtain rfl := Option.some.inj hs
  refine ⟨after_valid h.valid _, fun id r' hr' => ?_⟩
  show r'.priority = if (if (s.db.run id).isSome then s.forced id else a.forces id) then 1 else 0
  obtain ⟨r, hr, heq⟩ | ⟨hn, heq⟩ := priority_after h.valid hr'
  · rw [heq, h.priority id r hr, hr]
    rfl
  · rw [heq, hn, priority_of_allowed ha (inserted_of_new h.valid hn hr')]
    rfl

theorem columns_exec {s : Queue} {acts : List QueueAct}
    (h : Runs.exec step empty acts = some s) : Columns s :=
  Runs.exec_invariant step Columns (fun _ _ _ => columns_step) columns_empty h

/-- The order that the jobs ask for: demanded runs first, and the others by the priority of their
jobs and then by age. -/
def Before (priority : String → ℤ) (forced : String → Bool) (a b : RunRow) : Prop :=
  if forced b.id then forced a.id = true
  else forced a.id = true ∨ priority b.jobId < priority a.jobId ∨
    priority a.jobId = priority b.jobId ∧ a.createdAt ≤ b.createdAt

instance (ranks : String → ℤ) (forced : String → Bool) : DecidableRel (Before ranks forced) :=
  fun a b => inferInstanceAs (Decidable (if forced b.id then forced a.id = true else _ ∨ _ ∨ _))

/-- Among the runs that nobody demanded, those of the higher job priority are the older ones. -/
def Aligned (s : Queue) (priority : String → ℤ) (p : RunRow → Bool) : Prop :=
  ∀ a ∈ s.db.jobRuns, ∀ b ∈ s.db.jobRuns, p a = true → p b = true →
    s.forced a.id = false → s.forced b.id = false → priority b.jobId < priority a.jobId →
      a.createdAt < b.createdAt

instance (s : Queue) (priority : String → ℤ) (p : RunRow → Bool) :
    Decidable (Aligned s priority p) := inferInstanceAs (Decidable (∀ _ ∈ _, _))

theorem ordered_iff {s : Queue} (h : Columns s) (priority : String → ℤ) (p : RunRow → Bool) :
    (∀ rows, Answers s.db p rows → rows.Pairwise (Before priority s.forced)) ↔
      Aligned s priority p := by
  have hcolumn : ∀ r ∈ s.db.jobRuns, r.priority = if s.forced r.id then 1 else 0 := fun r hr =>
    h.priority r.id r (h.valid.run_of_mem hr)
  constructor
  · intro hrows a ha b hb hpa hpb hfa hfb hlt
    by_contra hage
    have hne : a ≠ b := fun heq => hlt.ne (congrArg (priority ∘ RunRow.jobId) heq.symm)
    have hmema : a ∈ (s.db.jobRuns.filter p).erase b :=
      (List.mem_erase_of_ne hne).mpr (List.mem_filter.mpr ⟨ha, hpa⟩)
    have hmemb : b ∈ s.db.jobRuns.filter p := List.mem_filter.mpr ⟨hb, hpb⟩
    have hba : runOrder b a := by
      refine Or.inr ⟨?_, not_lt.mp hage⟩
      rw [hcolumn a ha, hcolumn b hb, hfa, hfb]
    -- the younger run of the higher priority may come second
    let rest := ((s.db.jobRuns.filter p).erase b).erase a
    have hperm : (b :: a :: rest).Perm (s.db.jobRuns.filter p) :=
      ((List.perm_cons_erase hmemb).trans ((List.perm_cons_erase hmema).cons b)).symm
    have hbefore := hrows _ ⟨(List.perm_insertionSort runOrder _).trans hperm,
      List.pairwise_insertionSort runOrder (b :: a :: rest)⟩
    have hfront : [b, a].Sublist (b :: a :: rest) :=
      ((List.nil_sublist rest).cons_cons a).cons_cons b
    have hsub := List.pair_sublist_insertionSort hba hfront
    have hpair := List.pairwise_pair.mp (hbefore.sublist hsub)
    simp only [Before, hfa, hfb, Bool.false_eq_true, if_false, false_or] at hpair
    omega
  · intro haligned rows hrows
    refine hrows.2.imp_of_mem fun {a b} ha hb hab => ?_
    obtain ⟨ha, hpa⟩ := List.mem_filter.mp (hrows.1.mem_iff.mp ha)
    obtain ⟨hb, hpb⟩ := List.mem_filter.mp (hrows.1.mem_iff.mp hb)
    unfold runOrder at hab
    rw [hcolumn a ha, hcolumn b hb] at hab
    unfold Before
    by_cases hfb : s.forced b.id
    · rw [if_pos hfb]
      by_contra hfa
      simp only [hfb, if_true, if_neg hfa] at hab
      omega
    · rw [if_neg hfb]
      by_cases hfa : s.forced a.id
      · exact Or.inl hfa
      · right
        have hflip := haligned b hb a ha hpb hpa (by simpa using hfb) (by simpa using hfa)
        simp only [if_neg hfb, if_neg hfa, lt_irrefl, false_or, true_and] at hab
        rcases lt_trichotomy (priority a.jobId) (priority b.jobId) with hlt | heq | hgt
        · exact absurd (hflip hlt) (not_lt.mpr hab)
        · exact Or.inr ⟨heq, hab⟩
        · exact Or.inl hgt

/-- The list that a worker is offered, and the one that the standalone daemon executes, follow the
jobs' priorities exactly where the runs were created in that order. -/
theorem queue_ordered_iff {acts : List QueueAct} {s : Queue}
    (h : Runs.exec step empty acts = some s) (priority : String → ℤ) (worker : String) :
    ((∀ rows, Answers s.db (isAssigned s.db worker) rows →
        rows.Pairwise (Before priority s.forced)) ↔
      Aligned s priority (isAssigned s.db worker)) ∧
    ((∀ rows, Answers s.db (isQueuedFor localWorker) rows →
        rows.Pairwise (Before priority s.forced)) ↔
      Aligned s priority (isQueuedFor localWorker)) :=
  ⟨ordered_iff (columns_exec h) priority _, ordered_iff (columns_exec h) priority _⟩

/-- A run of the job `low` is followed by one of the job `high`. -/
def twoDispatches : List QueueAct :=
  [.other (.upsertWorker "w"), .other (.syncJob "low"), .other (.syncJob "high"),
    .dispatch "r1" "low" (some "w") false 100, .dispatch "r2" "high" (some "w") false 200]

def twoRuns : Queue := (Runs.exec step empty twoDispatches).getD empty

theorem exec_twoDispatches : Runs.exec step empty twoDispatches = some twoRuns := by
  have hsome : (Runs.exec step empty twoDispatches).isSome = true := by decide +kernel
  obtain ⟨s, hs⟩ := Option.isSome_iff_exists.mp hsome
  rw [twoRuns, hs, Option.getD_some]

theorem queue_ordered_iff_lowFirst : (assignedRuns twoRuns.db "w").Pairwise
    (Before (fun job => if job = "low" then 10 else 0) twoRuns.forced) :=
  (queue_ordered_iff exec_twoDispatches _ "w").1.mpr (by decide +kernel) _
    (answers_assignedRuns twoRuns.db "w")

/-- The older run is offered first, whatever the jobs' priorities are. -/
theorem low_offered_first :
    ¬∀ (acts : List QueueAct) (s : Queue), Runs.exec step empty acts = some s →
      ∀ (priority : String → ℤ) (worker : String),
        (assignedRuns s.db worker).Pairwise (Before priority s.forced) := by
  intro h
  have hpair := h _ _ exec_twoDispatches (fun job => if job = "high" then 10 else 0) "w"
  exact absurd hpair (by decide +kernel)

end Queue

end Synora.Cluster
