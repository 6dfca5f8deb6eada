import Mathlib.Data.List.Basic
import Mathlib.Logic.Function.Iterate
import Mathlib.Tactic.Common

/-! Programs that leave a trace of operations and may stop with an error. -/

namespace Synora.Effects

variable {S Op E α : Type*}

structure Traced (S Op : Type*) where
  state : S
  ops : List Op

/-- The state and the trace so far survive when a program stops with an error. -/
abbrev Prog (S Op E : Type*) := Traced S Op → Traced S Op × Option E

namespace Prog

def stop (e : E) : Prog S Op E := fun x => (x, some e)

def skip : Prog S Op E := fun x => (x, none)

/-- Performs an operation. -/
def perform (op : Op) : Prog S Op E := fun x => (⟨x.state, x.ops ++ [op]⟩, none)

def modify (f : S → S) : Prog S Op E := fun x => (⟨f x.state, x.ops⟩, none)

def andThen (p q : Prog S Op E) : Prog S Op E := fun x =>
  match p x with
  | (y, none) => q y
  | (y, some e) => (y, some e)

/-- Runs only from a state that passes the test. -/
def guarded (b : S → Bool) (p : Prog S Op E) : Prog S Op E := fun x =>
  if b x.state then p x else (x, none)

/-- A loop over a list that stops at the first error. -/
def forEach (body : ℕ → α → Prog S Op E) : ℕ → List α → Prog S Op E
  | _, [] => skip
  | i, a :: as => (body i a).andThen (forEach body (i + 1) as)

theorem andThen_of_none {p : Prog S Op E} {x y : Traced S Op} (h : p x = (y, none))
    (q : Prog S Op E) : p.andThen q x = q y := by
  rw [andThen, h]

theorem guarded_of_false {b : S → Bool} {x : Traced S Op} (h : b x.state = false)
    (p : Prog S Op E) : guarded b p x = (x, none) := by
  simp [guarded, h]

end Prog

/-- What a trace starts with stands before anything that is not part of it. -/
theorem prefix_of_not_mem {ops rest pre post : List Op} {op : Op}
    (h : ops ++ rest = pre ++ op :: post) (hop : op ∉ ops) : ops <+: pre := by
  rcases List.append_eq_append_iff.mp h with ⟨as, has, -⟩ | ⟨as, has, hpost⟩
  · exact ⟨as, has.symm⟩
  · cases as with
    | nil => exact ⟨[], by simpa using has⟩
    | cons a as =>
      obtain ⟨rfl, -⟩ := List.cons.inj hpost
      refine absurd ?_ hop
      rw [has]
      exact List.mem_append_right _ List.mem_cons_self

/-- The program only adds operations that meet `P`. -/
def Only (P : Op → Prop) (p : Prog S Op E) : Prop :=
  ∀ x, ∃ ops, (p x).1.ops = x.ops ++ ops ∧ ∀ op ∈ ops, P op

section
variable {P : Op → Prop} {p q : Prog S Op E}

theorem only_stop (e : E) : Only P (Prog.stop (S := S) e) :=
  fun x => ⟨[], (List.append_nil _).symm, by simp⟩

theorem only_skip : Only P (Prog.skip (S := S) (E := E)) :=
  fun x => ⟨[], (List.append_nil _).symm, by simp⟩

theorem only_perform {op : Op} (h : P op) : Only P (Prog.perform (S := S) (E := E) op) :=
  fun x => ⟨[op], rfl, by simpa using h⟩

theorem only_modify (f : S → S) : Only P (Prog.modify (E := E) f) :=
  fun x => ⟨[], (List.append_nil _).symm, by simp⟩

theorem Only.andThen (hp : Only P p) (hq : Only P q) : Only P (p.andThen q) := by
  intro x
  obtain ⟨ops, hops, hP⟩ := hp x
  unfold Prog.andThen
  split
  · rename_i y hy
    rw [hy] at hops
    obtain ⟨ops', hops', hP'⟩ := hq y
    refine ⟨ops ++ ops', ?_, List.forall_mem_append.mpr ⟨hP, hP'⟩⟩
    rw [hops', hops, List.append_assoc]
  · rename_i y e hy
    rw [hy] at hops
    exact ⟨ops, hops, hP⟩

theorem Only.guarded (b : S → Bool) (hp : Only P p) : Only P (Prog.guarded b p) := by
  intro x
  unfold Prog.guarded
  split
  · exact hp x
  · exact only_skip x

theorem Only.forEach {body : ℕ → α → Prog S Op E} {as : List α}
    (h : ∀ i, ∀ a ∈ as, Only P (body i a)) (i : ℕ) : Only P (Prog.forEach body i as) := by
  induction as generalizing i with
  | nil => exact only_skip
  | cons a as ih =>
    refine (h i a List.mem_cons_self).andThen (ih (fun j b hb => ?_) (i + 1))
    exact h j b (List.mem_cons_of_mem a hb)

end

/-! ## Programs that count -/

section
variable {C K : Type*}

theorem Prog.andThen_eq_none {p q : Prog S Op E} {x y : Traced S Op} :
    p.andThen q x = (y, none) ↔ ∃ z, p x = (z, none) ∧ q z = (y, none) := by
  unfold Prog.andThen
  constructor
  · intro h
    split at h
    · rename_i z hz
      exact ⟨z, hz, h⟩
    · cases h
  · rintro ⟨z, hz, hy⟩
    rw [hz]
    exact hy

/-- A run of the program that ends well leaves `rest` of the state alone and ticks the counter at
most `k` times, and if it never does then `Q` holds of the trace. -/
def Counts (count : S → C) (tick : C → C) (rest : S → K) (k : ℕ) (Q : List Op → Prop)
    (p : Prog S Op E) : Prop :=
  ∀ x y, p x = (y, none) → x.ops <+: y.ops ∧ rest y.state = rest x.state ∧
    ∃ j ≤ k, count y.state = tick^[j] (count x.state) ∧ (j = 0 → Q y.ops)

variable {count : S → C} {tick : C → C} {rest : S → K} {k l : ℕ} {Q R : List Op → Prop}
  {p q : Prog S Op E}

theorem counts_stop (e : E) :
    Counts count tick rest k Q (Prog.stop e : Prog S Op E) :=
  fun _ _ h => by cases h

theorem counts_skip (h : ∀ ops, Q ops) :
    Counts count tick rest k Q (Prog.skip (E := E)) := by
  rintro x y ⟨⟩
  exact ⟨List.prefix_rfl, rfl, 0, Nat.zero_le k, rfl, fun _ => h _⟩

theorem counts_modify {f : S → S} (hrest : ∀ s, rest (f s) = rest s)
    (hcount : ∀ s, count (f s) = tick (count s)) :
    Counts count tick rest 1 Q (Prog.modify f : Prog S Op E) := by
  rintro x y ⟨⟩
  exact ⟨List.prefix_rfl, hrest _, 1, Nat.le_refl 1, hcount _, by simp⟩

theorem Counts.imp (hp : Counts count tick rest k Q p) (hk : k ≤ l) (h : ∀ ops, Q ops → R ops) :
    Counts count tick rest l R p := by
  intro x y hy
  obtain ⟨hops, hrest, j, hj, hcount, hdone⟩ := hp x y hy
  exact ⟨hops, hrest, j, Nat.le_trans hj hk, hcount, fun hzero => h _ (hdone hzero)⟩

theorem counts_perform {op : Op} {f : S → S} (hrest : ∀ s, rest (f s) = rest s)
    (hcount : ∀ s, count (f s) = count s) (h : ∀ ops, op ∈ ops → Q ops) :
    Counts count tick rest k Q (Prog.andThen (E := E) (.perform op) (.modify f)) := by
  rintro x y ⟨⟩
  exact ⟨List.prefix_append _ _, hrest _, 0, Nat.zero_le k, hcount _,
    fun _ => h _ (List.mem_append_right _ List.mem_cons_self)⟩

/-- An operation that fails is part of the trace. -/
theorem counts_perform_failed {op : Op} {f : S → S} (hrest : ∀ s, rest (f s) = rest s)
    (hcount : ∀ s, count (f s) = tick (count s)) :
    Counts count tick rest 1 Q (Prog.andThen (E := E) (.perform op) (.modify f)) := by
  rintro x y ⟨⟩
  exact ⟨List.prefix_append _ _, hrest _, 1, Nat.le_refl 1, hcount _, by simp⟩

theorem Counts.andThen (hp : Counts count tick rest k Q p) (hq : Counts count tick rest l R q)
    (hQ : ∀ a b, a <+: b → Q a → Q b) :
    Counts count tick rest (k + l) (fun ops => Q ops ∧ R ops) (p.andThen q) := by
  intro x y h
  obtain ⟨z, hz, hy⟩ := Prog.andThen_eq_none.mp h
  obtain ⟨hops, hrest, i, hi, hcount, hdone⟩ := hp x z hz
  obtain ⟨hops', hrest', j, hj, hcount', hdone'⟩ := hq z y hy
  refine ⟨hops.trans hops', hrest'.trans hrest, j + i, by omega, ?_, fun hzero => ?_⟩
  · rw [hcount', hcount, Function.iterate_add_apply]
  · exact ⟨hQ _ _ hops' (hdone (by omega)), hdone' (by omega)⟩

/-- A loop has done for each element what its body does. -/
theorem Counts.forEach {body : ℕ → α → Prog S Op E} {Q : ℕ → α → List Op → Prop}
    (h : ∀ i a, Counts count tick rest k (Q i a) (body i a))
    (hQ : ∀ i a ops ops', ops <+: ops' → Q i a ops → Q i a ops') (i : ℕ) (as : List α) :
    Counts count tick rest (as.length * k) (fun ops => ∀ j a, as[j]? = some a → Q (i + j) a ops)
      (Prog.forEach body i as) := by
  induction as generalizing i with
  | nil => exact counts_skip (by simp)
  | cons a as ih =>
    intro x y hy
    obtain ⟨hops, hrest, n, hn, hcount, hdone⟩ := (h i a).andThen (ih (i + 1)) (hQ i a) x y hy
    have hlen : k + as.length * k = (a :: as).length * k := by
      rw [List.length_cons, Nat.add_mul, Nat.one_mul, Nat.add_comm]
    refine ⟨hops, hrest, n, Nat.le_trans hn (Nat.le_of_eq hlen), hcount, fun hzero j b hb => ?_⟩
    obtain ⟨hfirst, hothers⟩ := hdone hzero
    cases j with
    | zero =>
      rw [List.getElem?_cons_zero, Option.some.injEq] at hb
      rw [← hb]
      exact hfirst
    | succ j =>
      have hnext := hothers j b hb
      rwa [Nat.add_assoc, Nat.add_comm 1 j] at hnext

/-- Behind a gate the program counts, and has done its work if the gate was open. -/
theorem Counts.guarded (hp : Counts count tick rest k Q p) {b : S → Bool} {x y : Traced S Op}
    (h : Prog.guarded b p x = (y, none)) : x.ops <+: y.ops ∧ rest y.state = rest x.state ∧
      ∃ j ≤ k, count y.state = tick^[j] (count x.state) ∧ (j = 0 → b x.state = true → Q y.ops) := by
  unfold Prog.guarded at h
  split at h
  · obtain ⟨hops, hrest, j, hj, hcount, hdone⟩ := hp x y h
    exact ⟨hops, hrest, j, hj, hcount, fun hzero _ => hdone hzero⟩
  · rename_i hclosed
    cases h
    exact ⟨List.prefix_rfl, rfl, 0, Nat.zero_le k, rfl, fun _ hopen => absurd hopen hclosed⟩

end

end Synora.Effects
