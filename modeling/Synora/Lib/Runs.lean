import Mathlib.Data.List.Induction
import Mathlib.Data.List.Nodup
import Mathlib.Tactic.Common

namespace Synora.Runs

variable {S A : Type*} (step : S → A → Option S)

/-- The state after a list of actions; `none` when one of them is not enabled. -/
def exec : S → List A → Option S
  | s, [] => some s
  | s, a :: as => (step s a).bind fun t => exec t as

@[simp] theorem exec_nil (s : S) : exec step s [] = some s := rfl

@[simp] theorem exec_cons (s : S) (a : A) (as : List A) :
    exec step s (a :: as) = (step s a).bind fun t => exec step t as := rfl

theorem exec_append (s : S) (as bs : List A) :
    exec step s (as ++ bs) = (exec step s as).bind fun t => exec step t bs := by
  induction as generalizing s with
  | nil => rfl
  | cons a as ih =>
    simp only [List.cons_append, exec_cons, Option.bind_assoc]
    congr 1
    funext t
    exact ih t

theorem exec_append_eq_some {s u : S} {as bs : List A} :
    exec step s (as ++ bs) = some u ↔ ∃ t, exec step s as = some t ∧ exec step t bs = some u := by
  rw [exec_append, Option.bind_eq_some_iff]

theorem exec_concat_eq_some {s u : S} {as : List A} {a : A} :
    exec step s (as ++ [a]) = some u ↔ ∃ t, exec step s as = some t ∧ step t a = some u := by
  simp [exec_append_eq_some]

theorem exec_cons_eq_some {s u : S} {as : List A} {a : A} :
    exec step s (a :: as) = some u ↔ ∃ t, step s a = some t ∧ exec step t as = some u := by
  rw [exec_cons, Option.bind_eq_some_iff]

/-- Induction on a run from its end: the last action is the one analysed. -/
theorem exec_induction {s : S} {P : List A → S → Prop} (h0 : P [] s)
    (hs : ∀ as t a u, exec step s as = some t → P as t → step t a = some u → P (as ++ [a]) u)
    {as : List A} {u : S} (h : exec step s as = some u) : P as u := by
  induction as using List.reverseRecOn generalizing u with
  | nil => simpa using (by simpa using h : s = u) ▸ h0
  | append_singleton as a ih =>
    obtain ⟨t, ht, hu⟩ := (exec_concat_eq_some step).mp h
    exact hs as t a u ht (ih ht) hu

/-- A property of states that every step keeps holds after every run. -/
theorem exec_invariant {s u : S} {as : List A} (I : S → Prop)
    (hs : ∀ t a u, I t → step t a = some u → I u) (h0 : I s) (h : exec step s as = some u) :
    I u :=
  exec_induction step (P := fun _ t => I t) h0 (fun _ t a u _ hi hu => hs t a u hi hu) h

/-- A map of states that commutes with every step commutes with every run. -/
theorem exec_map {T : Type*} {step' : T → A → Option T} {f : S → T}
    (hf : ∀ s a, (step s a).map f = step' (f s) a) (s : S) (as : List A) :
    (exec step s as).map f = exec step' (f s) as := by
  induction as generalizing s with
  | nil => rfl
  | cons a as ih =>
    rw [exec_cons, exec_cons, ← hf]
    cases step s a with
    | none => rfl
    | some t => exact ih t

/-- Every step of the run is taken in a state, and with an action, that meets `C`. -/
def Along (C : S → A → Prop) : S → List A → Prop
  | _, [] => True
  | s, a :: as => C s a ∧ ∀ t, step s a = some t → Along C t as

instance Along.decidable {C : S → A → Prop} [∀ s a, Decidable (C s a)] :
    ∀ s as, Decidable (Along step C s as)
  | _, [] => .isTrue trivial
  | s, a :: as =>
    have : ∀ t, Decidable (Along step C t as) := fun t => Along.decidable t as
    inferInstanceAs (Decidable (C s a ∧ ∀ t ∈ step s a, Along step C t as))

/-- A condition that no state can break holds along every run. -/
theorem along_of_forall {C : S → A → Prop} {as : List A} (h : ∀ a ∈ as, ∀ s, C s a) (s : S) :
    Along step C s as := by
  induction as generalizing s with
  | nil => trivial
  | cons a as ih =>
    exact ⟨h a List.mem_cons_self s, fun t _ => ih (fun b hb => h b (List.mem_cons_of_mem a hb)) t⟩

theorem Along.and {C C' : S → A → Prop} {s : S} {as : List A} (h : Along step C s as)
    (h' : Along step C' s as) : Along step (fun s a => C s a ∧ C' s a) s as := by
  induction as generalizing s with
  | nil => trivial
  | cons a as ih => exact ⟨⟨h.1, h'.1⟩, fun t ht => ih (h.2 t ht) (h'.2 t ht)⟩

theorem along_append {C : S → A → Prop} {s : S} {as bs : List A} :
    Along step C s (as ++ bs) ↔
      Along step C s as ∧ ∀ t, exec step s as = some t → Along step C t bs := by
  induction as generalizing s with
  | nil => simp [Along]
  | cons b as ih =>
    simp only [List.cons_append, Along, ih, exec_cons_eq_some]
    constructor
    · intro h
      refine ⟨⟨h.1, fun t ht => (h.2 t ht).1⟩, ?_⟩
      rintro u ⟨t, ht, hu⟩
      exact (h.2 t ht).2 u hu
    · intro h
      exact ⟨h.1.1, fun t ht => ⟨h.1.2 t ht, fun u hu => h.2 u ⟨t, ht, hu⟩⟩⟩

/-- The invariant rule for runs whose steps all meet a condition. -/
theorem exec_invariant_along {s u : S} {as : List A} (C : S → A → Prop) (I : S → Prop)
    (hs : ∀ t a u, C t a → I t → step t a = some u → I u) (h0 : I s)
    (hc : Along step C s as) (h : exec step s as = some u) : I u := by
  induction as generalizing s with
  | nil => simpa using (by simpa using h : s = u) ▸ h0
  | cons a as ih =>
    obtain ⟨t, ht, hu⟩ := (exec_cons_eq_some step).mp h
    exact ih (hs s a t hc.1 h0 ht) (hc.2 t ht) hu

/-- Where a condition on the steps is what keeps a property and its failure breaks the property at
once, the property holds in every state of a run exactly when every step meets the condition. What
holds of every state anyway may be used for both. -/
theorem forall_prefix_iff_along {C : S → A → Prop} {I : S → Prop} (J : S → Prop)
    (inv : ∀ s a t, J s → step s a = some t → J t)
    (keeps : ∀ s a t, J s → I s → C s a → step s a = some t → I t)
    (breaks : ∀ s a, J s → I s → ¬C s a → ∃ t, step s a = some t ∧ ¬I t)
    {s : S} (hj : J s) (hi : I s) {as : List A} :
    (∀ pre, pre <+: as → ∀ t, exec step s pre = some t → I t) ↔ Along step C s as := by
  constructor
  · intro h
    induction as generalizing s with
    | nil => trivial
    | cons a as ih =>
      have hnext (t : S) (ht : step s a = some t) : I t := h [a] ⟨as, rfl⟩ t (by simp [ht])
      refine ⟨?_, fun t ht => ih (inv s a t hj ht) (hnext t ht) fun pre hpre u hu => ?_⟩
      · by_contra hc
        obtain ⟨t, ht, hbroken⟩ := breaks s a hj hi hc
        exact hbroken (hnext t ht)
      · exact h (a :: pre) (List.cons_prefix_cons.mpr ⟨rfl, hpre⟩) u (by simpa [ht] using hu)
  · rintro h pre ⟨post, rfl⟩ t ht
    exact (exec_invariant_along step C (fun s => J s ∧ I s)
      (fun s a u hc hs hu => ⟨inv s a u hs.1 hu, keeps s a u hs.1 hs.2 hc hu⟩) ⟨hj, hi⟩
      ((along_append step).mp h).1 ht).2

/-- Some element meets a condition on itself and on what stands before it. -/
def Meets (P : List A → A → Prop) (l : List A) : Prop :=
  ∃ pre a post, l = pre ++ a :: post ∧ P pre a

theorem not_meets_nil {P : List A → A → Prop} : ¬Meets P [] := by
  rintro ⟨pre, a, post, h, -⟩
  simp at h

theorem Meets.append {P : List A → A → Prop} {l : List A} (h : Meets P l) (l' : List A) :
    Meets P (l ++ l') := by
  obtain ⟨pre, a, post, rfl, hp⟩ := h
  exact ⟨pre, a, post ++ l', by simp, hp⟩

theorem meets_concat {P : List A → A → Prop} {l : List A} {a : A} :
    Meets P (l ++ [a]) ↔ Meets P l ∨ P l a := by
  constructor
  · rintro ⟨pre, b, post, h, hp⟩
    rcases List.eq_nil_or_concat post with rfl | ⟨post, c, rfl⟩
    · obtain ⟨rfl, hb⟩ := List.append_inj' h rfl
      cases hb
      exact Or.inr hp
    · left
      refine ⟨pre, b, post, ?_, hp⟩
      have h' : l ++ [a] = (pre ++ b :: post) ++ [c] := by simpa using h
      exact (List.append_inj' h' rfl).1
  · rintro (h | h)
    · exact h.append [a]
    · exact ⟨l, a, [], rfl, h⟩

/-- A stamp that is issued once marks one position of a list of actions. -/
theorem split_unique {B : Type*} {f : A → Option B} {b : B} {pre pre' post post' : List A}
    {a a' : A} (hn : ((pre ++ a :: post).filterMap f).Nodup) (ha : f a = some b)
    (ha' : f a' = some b) (h : pre ++ a :: post = pre' ++ a' :: post') :
    pre = pre' ∧ post = post' := by
  have hsecond (c : List A) (x y : List A) (u v : A) (hu : f u = some b) (hv : f v = some b)
      (hd : ((c ++ u :: (x ++ v :: y)).filterMap f).Nodup) : False := by
    simp only [List.filterMap_append, List.filterMap_cons, hu, hv] at hd
    simp [List.nodup_append] at hd
  obtain ⟨c, hc, hrest⟩ | ⟨c, hc, hrest⟩ := List.append_eq_append_iff.mp h
  · cases c with
    | nil => exact ⟨by simpa using hc.symm, by simpa using (List.cons.inj (by simpa using hrest)).2⟩
    | cons x c =>
      obtain ⟨rfl, rfl⟩ := List.cons.inj (by simpa using hrest)
      exact (hsecond pre c post' a a' ha ha' hn).elim
  · cases c with
    | nil =>
      exact ⟨by simpa using hc, by simpa using (List.cons.inj (by simpa using hrest)).2.symm⟩
    | cons x c =>
      obtain ⟨rfl, rfl⟩ := List.cons.inj (by simpa using hrest)
      subst hc
      exact (hsecond pre' c post a' a ha' ha (by simpa using hn)).elim

/-- Where each write replaces what is seen or leaves it, the last that replaces it is seen. -/
theorem foldl_last {O : Type*} {f : S → A → S} (see : S → O) {g : A → Option O} {as : List A}
    (h : ∀ a ∈ as, ∀ s, see (f s a) = (g a).getD (see s)) (s : S) :
    see (as.foldl f s) = (as.filterMap g).getLast?.getD (see s) := by
  induction as generalizing s with
  | nil => rfl
  | cons a as ih =>
    obtain ⟨ha, has⟩ := List.forall_mem_cons.mp h
    rw [List.foldl_cons, ih has, ha]
    cases hg : g a with
    | none => rw [List.filterMap_cons_none hg, Option.getD_none]
    | some o =>
      rw [List.filterMap_cons_some hg, List.getLast?_cons, Option.getD_some, Option.getD_some]

end Synora.Runs
