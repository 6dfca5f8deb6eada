import Mathlib.Data.List.Pairwise
import Mathlib.Logic.Function.Basic
import Synora.Lib.Runs

/-! Advisory file locks: owners open files one after the other and give up at the first one that
another open file holds. -/

namespace Synora.Flock
open Runs

inductive Mode
  | shared | exclusive
deriving DecidableEq, Repr

structure Lock (F : Type*) where
  file : F
  mode : Mode
deriving DecidableEq

/-- No two open files hold these locks at once. -/
def Lock.Clashes {F : Type*} (a b : Lock F) : Prop :=
  a.file = b.file ∧ (a.mode = .exclusive ∨ b.mode = .exclusive)

instance {F : Type*} [DecidableEq F] (a b : Lock F) : Decidable (a.Clashes b) :=
  inferInstanceAs (Decidable (_ ∧ _))

theorem Lock.Clashes.symm {F : Type*} {a b : Lock F} (h : a.Clashes b) : b.Clashes a :=
  ⟨h.1.symm, h.2.symm⟩

/-- The locks an owner takes, in this order, and whether it can open all the files for it. -/
structure Plan (F : Type*) where
  locks : List (Lock F)
  opens : Bool
deriving DecidableEq

inductive Phase
  | idle
  /-- So many of the locks are taken. -/
  | taking (n : ℕ)
  | holding
deriving DecidableEq, Repr

/-- Where each owner is, and the locks of all open files. -/
structure State (ι F : Type*) where
  phase : ι → Phase
  table : List (ι × Lock F)

inductive Action (ι : Type*)
  | begin (i : ι)
  /-- The next `flock` call. -/
  | take (i : ι)
  /-- Every descriptor of the owner is closed. -/
  | close (i : ι)

variable {ι F : Type*}

def init : State ι F := ⟨fun _ => .idle, []⟩

section
variable [DecidableEq ι]

/-- Closing the files of an owner gives all its locks back. -/
def State.drop (s : State ι F) (i : ι) : State ι F :=
  ⟨Function.update s.phase i .idle, s.table.filter fun e => decide (e.1 ≠ i)⟩

/-- One step of the owners that take the locks of `plan`. -/
def step [DecidableEq F] (plan : ι → Plan F) (s : State ι F) : Action ι → Option (State ι F)
  | .begin i =>
    if s.phase i = .idle then some { s with phase := Function.update s.phase i (.taking 0) }
    else none
  | .take i =>
    match s.phase i with
    | .taking n =>
      match (plan i).locks[n]? with
      | some l =>
        if ∀ e ∈ s.table, ¬e.2.Clashes l then
          some ⟨Function.update s.phase i (.taking (n + 1)), (i, l) :: s.table⟩
        else some (s.drop i)
      | none =>
        if (plan i).opens then some { s with phase := Function.update s.phase i .holding }
        else some (s.drop i)
    | _ => none
  | .close i => if s.phase i = .idle then none else some (s.drop i)

end

variable {plan : ι → Plan F} {s s' : State ι F} {a : Action ι} {i j : ι}

/-- The locks an owner has in this phase. -/
def taken (plan : ι → Plan F) (i : ι) : Phase → List (Lock F)
  | .idle => []
  | .taking n => (plan i).locks.take n
  | .holding => (plan i).locks

/-- The table holds what the owners have taken, and no two entries clash. -/
structure Sound (plan : ι → Plan F) (s : State ι F) : Prop where
  owned : ∀ i l, (i, l) ∈ s.table ↔ l ∈ taken plan i (s.phase i)
  opened : ∀ i, s.phase i = .holding → (plan i).opens
  compatible : s.table.Pairwise fun e e' => ¬e.2.Clashes e'.2

theorem sound_init : Sound plan (init : State ι F) := 
  ⟨by simp [init, taken], by simp [init], List.Pairwise.nil⟩

section
variable [DecidableEq ι]

theorem Sound.drop (h : Sound plan s) (i : ι) : Sound plan (s.drop i) := by
  refine ⟨fun j l => ?_, fun j hj => ?_, h.compatible.filter _⟩
  · simp only [State.drop, List.mem_filter, decide_eq_true_eq, h.owned]
    by_cases hj : j = i
    · subst hj
      simp [taken]
    · simp [hj]
  · have hne : j ≠ i := fun he => by simp [State.drop, he] at hj
    exact h.opened j (by simpa [State.drop, hne] using hj)

/-- Only the owner's own locks change. -/
theorem Sound.move (h : Sound plan s) {p : Phase} (hp : taken plan i p = taken plan i (s.phase i))
    (ho : p = .holding → (plan i).opens) :
    Sound plan { s with phase := Function.update s.phase i p } := by
  refine ⟨fun j l => ?_, fun j hj => ?_, h.compatible⟩
  · rw [h.owned]
    by_cases hj : j = i
    · subst hj
      simp [hp]
    · simp [hj]
  · by_cases hji : j = i
    · subst hji
      exact ho (by simpa using hj)
    · exact h.opened j (by simpa [hji] using hj)

theorem Sound.take (h : Sound plan s) {n : ℕ} {l : Lock F} (hn : s.phase i = .taking n)
    (hl : (plan i).locks[n]? = some l) (hfree : ∀ e ∈ s.table, ¬e.2.Clashes l) :
    Sound plan ⟨Function.update s.phase i (.taking (n + 1)), (i, l) :: s.table⟩ := by
  refine ⟨fun j l' => ?_, fun j hj => ?_, List.Pairwise.cons ?_ h.compatible⟩
  · by_cases hj : j = i
    · subst hj
      have htake : (plan j).locks.take (n + 1) = (plan j).locks.take n ++ [l] := by
        rw [List.take_add_one, hl]
        rfl
      simp [taken, htake, h.owned, hn, or_comm]
    · simp [hj, h.owned]
  · have hne : j ≠ i := fun he => by simp [he] at hj
    exact h.opened j (by simpa [hne] using hj)
  · exact fun e he hc => hfree e he hc.symm

theorem Sound.step [DecidableEq F] (h : Sound plan s) (hs : step plan s a = some s') :
    Sound plan s' := by
  cases a with
  | begin i =>
    simp only [Flock.step, Option.ite_none_right_eq_some, Option.some.injEq] at hs
    obtain ⟨hidle, rfl⟩ := hs
    exact h.move (by simp [taken, hidle]) nofun
  | take i =>
    rw [Flock.step] at hs
    split at hs
    · rename_i n hn
      cases hl : (plan i).locks[n]? with
      | some l =>
        simp only [hl] at hs
        split at hs
        · obtain rfl := Option.some.inj hs
          exact h.take hn hl ‹_›
        · obtain rfl := Option.some.inj hs
          exact h.drop i
      | none =>
        simp only [hl] at hs
        split at hs
        · obtain rfl := Option.some.inj hs
          refine h.move ?_ fun _ => ‹_›
          rw [hn]
          exact (List.take_of_length_le (List.getElem?_eq_none_iff.mp hl)).symm
        · obtain rfl := Option.some.inj hs
          exact h.drop i
    · cases hs
  | close i =>
    simp only [Flock.step, Option.ite_none_left_eq_some, Option.some.injEq] at hs
    obtain ⟨-, rfl⟩ := hs
    exact h.drop i

theorem sound_exec [DecidableEq F] {as : List (Action ι)}
    (h : exec (Flock.step plan) init as = some s) :
    Sound plan s :=
  exec_invariant _ (Sound plan) (fun _ _ _ hs ht => hs.step ht) sound_init h

end

/-- Two owners that hold their locks at the same time have none that clash. -/
theorem Sound.compatible_plans (h : Sound plan s) (hij : i ≠ j) (hi : s.phase i = .holding)
    (hj : s.phase j = .holding) : ∀ l ∈ (plan i).locks, ∀ l' ∈ (plan j).locks, ¬l.Clashes l' := by
  intro l hl l' hl'
  have hil : (i, l) ∈ s.table := (h.owned i l).mpr (by rwa [hi])
  have hjl : (j, l') ∈ s.table := (h.owned j l').mpr (by rwa [hj])
  have : Std.Symm fun e e' : ι × Lock F => ¬e.2.Clashes e'.2 := ⟨fun _ _ hc hc' => hc hc'.symm⟩
  exact h.compatible.forall hil hjl (by simp [hij])

/-- Whoever gave up, or has not begun, holds nothing. -/
theorem Sound.idle_holds_nothing (h : Sound plan s) (hi : s.phase i = .idle) (l : Lock F) :
    (i, l) ∉ s.table := by
  simp [h.owned, hi, taken]

/-! ## An acquisition that nothing stands against succeeds -/

section
variable [DecidableEq ι] [DecidableEq F]

/-- The calls of one undisturbed acquisition. -/
def acquisition (plan : ι → Plan F) (i : ι) : List (Action ι) :=
  .begin i :: List.replicate ((plan i).locks.length + 1) (.take i)

theorem exec_take {k n : ℕ} (hopens : (plan i).opens) (hk : n + k = (plan i).locks.length)
    (hn : s.phase i = .taking n)
    (hself : (plan i).locks.Pairwise fun l l' => ¬l.Clashes l')
    (hmine : ∀ l, (i, l) ∈ s.table → l ∈ (plan i).locks.take n)
    (hothers : ∀ e ∈ s.table, e.1 ≠ i → ∀ l ∈ (plan i).locks, ¬e.2.Clashes l) :
    ∃ t, exec (step plan) s (List.replicate (k + 1) (.take i)) = some t ∧ t.phase i = .holding ∧
      ∀ j, j ≠ i → t.phase j = s.phase j := by
  induction k generalizing n s with
  | zero =>
    have hend : (plan i).locks[n]? = none := List.getElem?_eq_none_iff.mpr (by omega)
    refine ⟨{ s with phase := Function.update s.phase i .holding }, ?_, by simp, fun j hj => ?_⟩
    · simp [step, hn, hend, hopens]
    · simp [hj]
  | succ k ih =>
    have hlt : n < (plan i).locks.length := by omega
    have hget : (plan i).locks[n]? = some (plan i).locks[n] := List.getElem?_eq_getElem hlt
    have hfree : ∀ e ∈ s.table, ¬e.2.Clashes (plan i).locks[n] := by
      rintro ⟨j, l⟩ he
      by_cases hj : j = i
      · subst hj
        obtain ⟨m, hm, rfl⟩ := List.mem_take_iff_getElem.mp (hmine l he)
        exact List.pairwise_iff_getElem.mp hself m n (by omega) hlt (by omega)
      · exact hothers _ he hj _ (List.getElem_mem hlt)
    have hmine' : ∀ l, (i, l) ∈ (i, (plan i).locks[n]) :: s.table →
        l ∈ (plan i).locks.take (n + 1) := by
      intro l hl
      have htake : (plan i).locks.take (n + 1) = (plan i).locks.take n ++ [(plan i).locks[n]] := by
        rw [List.take_add_one, hget]
        rfl
      rw [htake]
      rcases List.mem_cons.mp hl with heq | hl
      · exact List.mem_append_right _ (List.mem_singleton.mpr (Prod.mk.inj heq).2)
      · exact List.mem_append_left _ (hmine l hl)
    have hothers' : ∀ e ∈ (i, (plan i).locks[n]) :: s.table, e.1 ≠ i →
        ∀ l ∈ (plan i).locks, ¬e.2.Clashes l := by
      intro e he hne
      rcases List.mem_cons.mp he with rfl | he
      · exact absurd rfl hne
      · exact hothers e he hne
    obtain ⟨t, ht, hold, hrest⟩ := ih (s := ⟨Function.update s.phase i (.taking (n + 1)),
      (i, (plan i).locks[n]) :: s.table⟩) (by omega) (by simp) hmine' hothers'
    refine ⟨t, ?_, hold, fun j hj => ?_⟩
    · rw [List.replicate_succ, exec_cons]
      simpa [step, hn, hget, if_pos hfree] using ht
    · simpa [hj] using hrest j hj

theorem Sound.acquire (h : Sound plan s) (hi : s.phase i = .idle)
    (hopens : (plan i).opens) (hself : (plan i).locks.Pairwise fun l l' => ¬l.Clashes l')
    (hothers : ∀ e ∈ s.table, ∀ l ∈ (plan i).locks, ¬e.2.Clashes l) :
    ∃ t, exec (Flock.step plan) s (acquisition plan i) = some t ∧ t.phase i = .holding ∧
      ∀ j, j ≠ i → t.phase j = s.phase j := by
  have hmine (l : Lock F) : (i, l) ∉ s.table := h.idle_holds_nothing hi l
  obtain ⟨t, ht, hold, hrest⟩ := exec_take (s := { s with
    phase := Function.update s.phase i (.taking 0) }) hopens (Nat.zero_add _) (by simp) hself
    (fun l hl => absurd hl (hmine l)) (fun e he _ => hothers e he)
  refine ⟨t, ?_, hold, fun j hj => ?_⟩
  · rw [acquisition, exec_cons]
    simpa [Flock.step, hi] using ht
  · simpa [hj] using hrest j hj

/-- Owners whose locks do not clash can hold them at the same time. -/
theorem both_hold (hij : i ≠ j) (hoi : (plan i).opens) (hoj : (plan j).opens)
    (hi : (plan i).locks.Pairwise fun l l' => ¬l.Clashes l')
    (hj : (plan j).locks.Pairwise fun l l' => ¬l.Clashes l')
    (hc : ∀ l ∈ (plan i).locks, ∀ l' ∈ (plan j).locks, ¬l.Clashes l') :
    ∃ as s, exec (step plan) init as = some s ∧ s.phase i = .holding ∧ s.phase j = .holding := by
  obtain ⟨t, ht, hti, htr⟩ :=
    (sound_init : Sound plan (init : State ι F)).acquire rfl hoi hi (by simp [init])
  have hjt : t.phase j = .idle := htr j hij.symm
  have hst : Sound plan t := sound_exec ht
  have hothers : ∀ e ∈ t.table, ∀ l ∈ (plan j).locks, ¬e.2.Clashes l := by
    rintro ⟨k, l⟩ he
    have hl : l ∈ taken plan k (t.phase k) := (hst.owned k l).mp he
    by_cases hk : k = i
    · subst hk
      exact hc l (by simpa [hti, taken] using hl)
    · simp [htr k hk, init, taken] at hl
  obtain ⟨u, hu, huj, hur⟩ := hst.acquire hjt hoj hj hothers
  refine ⟨acquisition plan i ++ acquisition plan j, u, ?_, ?_, huj⟩
  · exact (exec_append_eq_some _).mpr ⟨t, ht, hu⟩
  · rw [hur i hij, hti]

end

/-! ## An acquisition in one step -/

section
variable [DecidableEq ι] [DecidableEq F] {opens : F → Bool} {grants : Bool}
  {table : List (ι × Lock F)} {ls : List (Lock F)}

/-- The locks are taken one by one; at the first failure all files of the owner are closed. -/
def attempt (opens : F → Bool) (grants : Bool) (i : ι) (table : List (ι × Lock F)) :
    List (Lock F) → Bool × List (ι × Lock F)
  | [] => if grants then (true, table) else (false, table.filter fun e => decide (e.1 ≠ i))
  | l :: ls =>
    if opens l.file ∧ ∀ e ∈ table, ¬e.2.Clashes l then attempt opens grants i ((i, l) :: table) ls
    else (false, table.filter fun e => decide (e.1 ≠ i))

/-- What fails gives back what it has taken, and no more. -/
theorem attempt_failed (mine : List (ι × Lock F)) (hmine : ∀ e ∈ mine, e.1 = i)
    (hothers : ∀ e ∈ table, e.1 ≠ i)
    (h : (attempt opens grants i (mine ++ table) ls).1 = false) :
    (attempt opens grants i (mine ++ table) ls).2 = table := by
  have hclosed : (mine ++ table).filter (fun e => decide (e.1 ≠ i)) = table := by
    rw [List.filter_append, List.filter_eq_nil_iff.mpr (by simpa using hmine),
      List.filter_eq_self.mpr (by simpa using hothers), List.nil_append]
  induction ls generalizing mine with
  | nil =>
    unfold attempt at h ⊢
    split at h
    · cases h
    · rw [if_neg ‹_›]
      exact hclosed
  | cons l ls ih =>
    unfold attempt at h ⊢
    split at h
    · rw [if_pos ‹_›]
      have hmine' : ∀ e ∈ (i, l) :: mine, e.1 = i := List.forall_mem_cons.mpr ⟨rfl, hmine⟩
      refine ih ((i, l) :: mine) hmine' h ?_
      rw [List.cons_append, List.filter_cons_of_neg (by simp), hclosed]
    · rw [if_neg ‹_›]
      exact hclosed

theorem attempt_succeeded (h : (attempt opens grants i table ls).1 = true) :
    (attempt opens grants i table ls).2 = (ls.map fun l => (i, l)).reverse ++ table := by
  induction ls generalizing table with
  | nil =>
    unfold attempt at h ⊢
    split at h
    · rw [if_pos ‹_›]
      rfl
    · cases h
  | cons l ls ih =>
    unfold attempt at h ⊢
    split at h
    · rw [if_pos ‹_›, ih h, List.map_cons, List.reverse_cons, List.append_assoc]
      rfl
    · cases h

theorem attempt_refused : (attempt opens false i table ls).1 = false := by
  induction ls generalizing table with
  | nil => rfl
  | cons l ls ih =>
    unfold attempt
    split
    · exact ih
    · rfl

/-- It succeeds when all files can be opened and no lock of the table is in the way. -/
theorem attempt_iff (hself : ls.Pairwise fun l l' => ¬l.Clashes l') :
    (attempt opens grants i table ls).1 = true ↔ grants = true ∧ (∀ l ∈ ls, opens l.file) ∧
      ∀ e ∈ table, ∀ l ∈ ls, ¬e.2.Clashes l := by
  induction ls generalizing table with
  | nil => cases grants <;> simp [attempt]
  | cons l ls ih =>
    obtain ⟨hl, hls⟩ := List.pairwise_cons.mp hself
    unfold attempt
    split_ifs with hfree
    · rw [ih hls]
      constructor
      · rintro ⟨hgrants, hopens, hclash⟩
        exact ⟨hgrants, List.forall_mem_cons.mpr ⟨hfree.1, hopens⟩, fun e he =>
          List.forall_mem_cons.mpr ⟨hfree.2 e he, hclash e (List.mem_cons_of_mem _ he)⟩⟩
      · rintro ⟨hgrants, hopens, hclash⟩
        exact ⟨hgrants, (List.forall_mem_cons.mp hopens).2, List.forall_mem_cons.mpr
          ⟨hl, fun e he => (List.forall_mem_cons.mp (hclash e he)).2⟩⟩
    · refine iff_of_false not_false ?_
      rintro ⟨-, hopens, hclash⟩
      exact hfree ⟨hopens l List.mem_cons_self, fun e he => hclash e he l List.mem_cons_self⟩

end

end Synora.Flock
