import Mathlib.Logic.Relation
import Mathlib.Data.List.Basic
import Mathlib.Data.Set.Finite.Basic
import Mathlib.Order.WellFounded
import Mathlib.Tactic.Common

namespace Synora.Dependency

/-! # Orders in which everything comes after what it depends on -/

variable {α : Type*} (deps : α → List α)

/-- Everything listed has what it depends on in front of it, or in `done`. -/
def ReadyOrder : List α → List α → Prop
  | _, [] => True
  | done, a :: rest => deps a ⊆ done ∧ ReadyOrder (a :: done) rest

/-- One of the nodes depends on this one. -/
def DependsOn (nodes : List α) (a b : α) : Prop := a ∈ nodes ∧ b ∈ deps a

def Closed (nodes : List α) : Prop := ∀ a ∈ nodes, deps a ⊆ nodes

def Acyclic (nodes : List α) : Prop := ∀ a, ¬Relation.TransGen (DependsOn deps nodes) a a

section
variable [DecidableEq α]

def ready (done : List α) (a : α) : Bool := (deps a).all fun b => decide (b ∈ done)

/-- What is left after some rounds, each of which takes away all that depends on nothing left. -/
def peel : ℕ → List α → List α → List α
  | 0, _, todo => todo
  | n + 1, done, todo =>
    peel n (todo.filter (ready deps done) ++ done) (todo.filter fun a => !ready deps done a)

/-- Nothing is left in the end. -/
def Settles (nodes : List α) : Prop := peel deps nodes.length [] nodes = []

instance (nodes : List α) : Decidable (Settles deps nodes) :=
  inferInstanceAs (Decidable (_ = _))

end

variable {deps}

theorem ready_iff [DecidableEq α] {done : List α} {a : α} :
    ready deps done a = true ↔ deps a ⊆ done := by
  unfold ready
  rw [List.all_eq_true]
  exact forall₂_congr fun b _ => decide_eq_true_iff

/-! ## Ready orders -/

theorem ReadyOrder.mono {done done' order : List α} (h : ReadyOrder deps done order)
    (hsub : done ⊆ done') : ReadyOrder deps done' order := by
  induction order generalizing done done' with
  | nil => trivial
  | cons a rest ih =>
    obtain ⟨ha, hrest⟩ := h
    exact ⟨List.Subset.trans ha hsub, ih hrest (List.cons_subset_cons a hsub)⟩

theorem ReadyOrder.append {done as bs : List α} (has : ReadyOrder deps done as)
    (hbs : ReadyOrder deps (as ++ done) bs) : ReadyOrder deps done (as ++ bs) := by
  induction as generalizing done with
  | nil => exact hbs
  | cons a as ih =>
    obtain ⟨ha, hrest⟩ := has
    refine ⟨ha, ih hrest (hbs.mono ?_)⟩
    intro b hb
    simp only [List.cons_append, List.mem_cons, List.mem_append] at hb ⊢
    tauto

theorem readyOrder_of_subset {done as : List α} (h : ∀ a ∈ as, deps a ⊆ done) :
    ReadyOrder deps done as := by
  induction as generalizing done with
  | nil => trivial
  | cons a as ih =>
    refine ⟨h a List.mem_cons_self, ih fun b hb => ?_⟩
    exact List.Subset.trans (h b (List.mem_cons_of_mem a hb)) (List.subset_cons_self a done)

/-- What something depends on stands in front of it. -/
theorem ReadyOrder.before {done pre post : List α} {a : α}
    (h : ReadyOrder deps done (pre ++ a :: post)) : deps a ⊆ pre ++ done := by
  induction pre generalizing done with
  | nil => exact h.1
  | cons b pre ih =>
    refine List.Subset.trans (ih h.2) fun c hc => ?_
    simp only [List.cons_append, List.mem_cons, List.mem_append] at hc ⊢
    tauto

theorem ReadyOrder.closed {order : List α} (h : ReadyOrder deps [] order) : Closed deps order := by
  intro a ha b hb
  obtain ⟨pre, post, rfl⟩ := List.append_of_mem ha
  have hmem := h.before hb
  rw [List.append_nil] at hmem
  exact List.mem_append_left _ hmem

section
variable [DecidableEq α]

/-- Along the dependencies the places in a ready order fall. -/
theorem ReadyOrder.idxOf_lt {order : List α} (h : ReadyOrder deps [] order) {a b : α}
    (hab : Relation.TransGen (DependsOn deps order) a b) : order.idxOf b < order.idxOf a := by
  have hstep {a b : α} (h' : DependsOn deps order a b) : order.idxOf b < order.idxOf a := by
    obtain ⟨pre, post, rfl, hpre⟩ := List.eq_append_cons_of_mem h'.1
    have hb := h.before h'.2
    rw [List.append_nil] at hb
    rw [List.idxOf_append_of_mem hb, List.idxOf_append_of_notMem hpre, List.idxOf_cons_self]
    have hlt := List.idxOf_lt_length_of_mem hb
    omega
  induction hab with
  | single h' => exact hstep h'
  | tail _ h' ih => exact (hstep h').trans ih

theorem ReadyOrder.acyclic {order : List α} (h : ReadyOrder deps [] order) :
    Acyclic deps order := fun _ hcycle => lt_irrefl _ (h.idxOf_lt hcycle)

/-! ## Peeling -/

theorem peel_nil (n : ℕ) (done : List α) : peel deps n done [] = [] := by
  induction n generalizing done with
  | zero => rfl
  | succ n ih => exact ih _

/-- The rounds are a ready order. -/
theorem exists_order_of_peel {n : ℕ} {done todo : List α} (h : peel deps n done todo = []) :
    ∃ order, order.Perm todo ∧ ReadyOrder deps done order := by
  induction n generalizing done todo with
  | zero =>
    obtain rfl : todo = [] := h
    exact ⟨[], .refl _, trivial⟩
  | succ n ih =>
    obtain ⟨order, hperm, horder⟩ := ih h
    refine ⟨todo.filter (ready deps done) ++ order, ?_, .append ?_ horder⟩
    · exact (hperm.append_left _).trans (List.filter_append_perm _ todo)
    · exact readyOrder_of_subset fun a ha => ready_iff.mp (List.mem_filter.mp ha).2

/-- Among nodes without a cycle, some one of those left depends on none of them. -/
theorem exists_ready {nodes done todo : List α} (hclosed : Closed deps nodes)
    (hacyclic : Acyclic deps nodes) (htodo : todo ⊆ nodes) (hcover : nodes ⊆ todo ++ done)
    (hne : todo ≠ []) : ∃ a ∈ todo, ready deps done a := by
  let below (x y : {a // a ∈ nodes}) : Prop := Relation.TransGen (DependsOn deps nodes) y.1 x.1
  have : Finite {a // a ∈ nodes} := (List.finite_toSet nodes).to_subtype
  have : IsTrans {a // a ∈ nodes} below := ⟨fun _ _ _ hxy hyz => hyz.trans hxy⟩
  have : Std.Irrefl below := ⟨fun x => hacyclic x.1⟩
  have hwf : WellFounded below := Finite.wellFounded_of_trans_of_irrefl below
  obtain ⟨a, ha⟩ := List.exists_mem_of_ne_nil todo hne
  obtain ⟨m, hm, hmin⟩ := hwf.has_min {x | x.1 ∈ todo} ⟨⟨a, htodo ha⟩, ha⟩
  refine ⟨m.1, hm, ready_iff.mpr fun b hb => ?_⟩
  have hnode : b ∈ nodes := hclosed m.1 m.2 hb
  refine (List.mem_append.mp (hcover hnode)).resolve_left fun hleft => ?_
  exact hmin ⟨b, hnode⟩ hleft (.single ⟨m.2, hb⟩)

theorem peel_eq_nil {nodes done todo : List α} (hclosed : Closed deps nodes)
    (hacyclic : Acyclic deps nodes) (htodo : todo ⊆ nodes) (hcover : nodes ⊆ todo ++ done) {n : ℕ}
    (hn : todo.length ≤ n) : peel deps n done todo = [] := by
  induction n generalizing done todo with
  | zero =>
    obtain rfl : todo = [] := List.length_eq_zero_iff.mp (by omega)
    rfl
  | succ n ih =>
    by_cases hne : todo = []
    · rw [hne]
      exact peel_nil _ _
    · obtain ⟨a, ha, hready⟩ := exists_ready hclosed hacyclic htodo hcover hne
      refine ih (List.Subset.trans (List.filter_subset_self _) htodo) ?_ ?_
      · intro b hb
        have hmem := hcover hb
        simp only [List.mem_append, List.mem_filter] at hmem ⊢
        cases hr : ready deps done b <;> simp_all
      · have hlt : (todo.filter fun a => !ready deps done a).length < todo.length :=
          List.length_filter_lt_length_iff_exists.mpr ⟨a, ha, by simp [hready]⟩
        omega

/-- Peeling leaves nothing exactly when all that is depended on is there and there is no cycle. -/
theorem settles_iff {nodes : List α} :
    Settles deps nodes ↔ Closed deps nodes ∧ Acyclic deps nodes := by
  constructor
  · intro h
    obtain ⟨order, hperm, horder⟩ := exists_order_of_peel h
    have hedge : DependsOn deps nodes = DependsOn deps order := by
      funext a b
      exact propext (and_congr_left fun _ => hperm.mem_iff.symm)
    refine ⟨fun a ha => ?_, fun a => ?_⟩
    · exact List.Subset.trans (horder.closed a (hperm.mem_iff.mpr ha)) hperm.subset
    · rw [hedge]
      exact horder.acyclic a
  · rintro ⟨hclosed, hacyclic⟩
    exact peel_eq_nil hclosed hacyclic (List.Subset.refl _) (List.subset_append_left _ _) le_rfl

end

end Synora.Dependency
