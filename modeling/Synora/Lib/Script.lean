import Mathlib.Data.List.Basic
import Mathlib.Tactic.Common

/-! Straight-line scripts over a world, any call of which may fail. -/

namespace Synora.Script

variable {W E α : Type*}

/-- One line of a script. -/
inductive Op (W E : Type*)
  /-- A call whose error is returned. -/
  | call (f : W → W)
  /-- A call whose error is dropped. -/
  | attempt (f : W → W)
  /-- Code that cannot fail. -/
  | memory (f : W → W)
  /-- An early return. -/
  | check (p : Bool) (e : E)
  /-- Code that panics unless `p`. -/
  | assert (p : Bool)

inductive Verdict (E : Type*)
  | ok
  | err (e : E)
  | panicked
deriving DecidableEq, Repr

/-- Runs the lines from number `n` on; `fails n` is the error of line `n`, where it is a call that
fails. What was done before an error stays done. -/
def run (fails : ℕ → Option E) : ℕ → List (Op W E) → W → Verdict E × W
  | _, [], w => (.ok, w)
  | n, .call f :: ops, w =>
    match fails n with
    | some e => (.err e, w)
    | none => run fails (n + 1) ops (f w)
  | n, .attempt f :: ops, w => run fails (n + 1) ops (if (fails n).isSome then w else f w)
  | n, .memory f :: ops, w => run fails (n + 1) ops (f w)
  | n, .check p e :: ops, w => if p then run fails (n + 1) ops w else (.err e, w)
  | n, .assert p :: ops, w => if p then run fails (n + 1) ops w else (.panicked, w)

variable {fails : ℕ → Option E} {n : ℕ} {ops ops' : List (Op W E)} {w w' : W}

@[simp]
theorem run_nil : run fails n ([] : List (Op W E)) w = (.ok, w) := rfl

@[simp]
theorem run_call {f : W → W} : run fails n (.call f :: ops) w =
    match fails n with
    | some e => (.err e, w)
    | none => run fails (n + 1) ops (f w) := rfl

@[simp]
theorem run_attempt {f : W → W} : run fails n (.attempt f :: ops) w =
    run fails (n + 1) ops (if (fails n).isSome then w else f w) := rfl

@[simp]
theorem run_memory {f : W → W} :
    run fails n (.memory f :: ops) w = run fails (n + 1) ops (f w) := rfl

@[simp]
theorem run_check {p : Bool} {e : E} : run fails n (.check p e :: ops) w =
    if p then run fails (n + 1) ops w else (.err e, w) := rfl

@[simp]
theorem run_assert {p : Bool} : run fails n (.assert p :: ops) w =
    if p then run fails (n + 1) ops w else (.panicked, w) := rfl

theorem run_nil_ok : run fails n ([] : List (Op W E)) w = (.ok, w') ↔ w = w' := by simp

theorem run_call_ok {f : W → W} :
    run fails n (.call f :: ops) w = (.ok, w') ↔
      fails n = none ∧ run fails (n + 1) ops (f w) = (.ok, w') := by
  cases h : fails n <;> simp [h]

theorem run_attempt_ok {f : W → W} :
    run fails n (.attempt f :: ops) w = (.ok, w') ↔
      run fails (n + 1) ops (if (fails n).isSome then w else f w) = (.ok, w') := by simp

theorem run_memory_ok {f : W → W} :
    run fails n (.memory f :: ops) w = (.ok, w') ↔ run fails (n + 1) ops (f w) = (.ok, w') := by
  simp

theorem run_check_ok {p : Bool} {e : E} :
    run fails n (.check p e :: ops) w = (.ok, w') ↔
      p ∧ run fails (n + 1) ops w = (.ok, w') := by
  cases p <;> simp

theorem run_assert_ok {p : Bool} :
    run fails n (.assert p :: ops) w = (.ok, w') ↔ p ∧ run fails (n + 1) ops w = (.ok, w') := by
  cases p <;> simp

theorem run_append_ok :
    run fails n (ops ++ ops') w = (.ok, w') ↔
      ∃ v, run fails n ops w = (.ok, v) ∧ run fails (n + ops.length) ops' v = (.ok, w') := by
  induction ops generalizing n w with
  | nil => simp
  | cons op ops ih =>
    have hlen : n + (op :: ops).length = n + 1 + ops.length := by simp; omega
    rw [hlen, List.cons_append]
    cases op with
    | call f => simp only [run_call_ok, ih, exists_and_left, and_assoc]
    | attempt f => simp only [run_attempt_ok, ih]
    | memory f => simp only [run_memory_ok, ih]
    | check p e => simp only [run_check_ok, ih, exists_and_left, and_assoc]
    | assert p => simp only [run_assert_ok, ih, exists_and_left, and_assoc]

/-! ## What a line keeps -/

/-- The line keeps `I`, whether or not it succeeds. -/
def Op.Keeps (I : W → Prop) : Op W E → Prop
  | .call f | .attempt f | .memory f => ∀ w, I w → I (f w)
  | .check _ _ | .assert _ => True

/-- What every line keeps holds wherever the script ends. -/
theorem run_keeps {I : W → Prop} (hops : ∀ op ∈ ops, op.Keeps I) (hw : I w) :
    I (run fails n ops w).2 := by
  induction ops generalizing n w with
  | nil => exact hw
  | cons op ops ih =>
    have hop := hops op List.mem_cons_self
    have hrest : ∀ op ∈ ops, op.Keeps I := fun o ho => hops o (List.mem_cons_of_mem op ho)
    cases op with
    | call f =>
      rw [run_call]
      cases fails n with
      | none => exact ih hrest (hop w hw)
      | some e => exact hw
    | attempt f =>
      rw [run_attempt]
      refine ih hrest ?_
      split
      · exact hw
      · exact hop w hw
    | memory f => exact ih hrest (hop w hw)
    | check p e =>
      cases p with
      | true => exact ih hrest hw
      | false => exact hw
    | assert p =>
      cases p with
      | true => exact ih hrest hw
      | false => exact hw

/-- Behind a panic nothing happens. -/
theorem run_panic (post : List (Op W E)) :
    (run fails n (ops ++ .assert false :: post) w).1 ≠ .ok ∧
      (run fails n (ops ++ .assert false :: post) w).2 = (run fails n ops w).2 := by
  induction ops generalizing n w with
  | nil => simp
  | cons op ops ih =>
    cases op with
    | call f =>
      cases h : fails n with
      | none => simpa [h] using ih
      | some e => simp [h]
    | attempt f => simpa using ih
    | memory f => simpa using ih
    | check p e =>
      cases p with
      | true => simpa using ih
      | false => simp
    | assert p =>
      cases p with
      | true => simpa using ih
      | false => simp

theorem keeps_of_run_ok {I : W → Prop} (hops : ∀ op ∈ ops, op.Keeps I) (hw : I w)
    (h : run fails n ops w = (.ok, w')) : I w' := by
  have hk : I (run fails n ops w).2 := run_keeps hops hw
  rwa [h] at hk

/-! ## When a script succeeds -/

/-- The line lets the script go on. -/
def Op.Passes (fails : ℕ → Option E) (n : ℕ) : Op W E → Prop
  | .call _ => fails n = none
  | .attempt _ | .memory _ => True
  | .check p _ | .assert p => p

/-- No line stops the script. -/
def Passes (fails : ℕ → Option E) : ℕ → List (Op W E) → Prop
  | _, [] => True
  | n, op :: ops => op.Passes fails n ∧ Passes fails (n + 1) ops

theorem run_ok_iff : (run fails n ops w).1 = .ok ↔ Passes fails n ops := by
  induction ops generalizing n w with
  | nil => simp [Passes]
  | cons op ops ih =>
    cases op with
    | call f => cases h : fails n <;> simp [Passes, Op.Passes, h, ih]
    | attempt f => simp [Passes, Op.Passes, ih]
    | memory f => simp [Passes, Op.Passes, ih]
    | check p e => cases p <;> simp [Passes, Op.Passes, ih]
    | assert p => cases p <;> simp [Passes, Op.Passes, ih]

/-- A script that does not panic ends with a verdict on its calls and checks. -/
theorem run_err_or_ok (hp : ∀ p, .assert p ∈ ops → p = true) :
    (∃ e, (run fails n ops w).1 = .err e) ∨ (run fails n ops w).1 = .ok := by
  induction ops generalizing n w with
  | nil => exact Or.inr rfl
  | cons op ops ih =>
    have hrest : ∀ p, .assert p ∈ ops → p = true := fun p h => hp p (List.mem_cons_of_mem op h)
    cases op with
    | call f =>
      rw [run_call]
      cases fails n with
      | none => exact ih hrest
      | some e => exact Or.inl ⟨e, rfl⟩
    | attempt f => exact ih hrest
    | memory f => exact ih hrest
    | check p e =>
      cases p with
      | true => exact ih hrest
      | false => exact Or.inl ⟨e, rfl⟩
    | assert p =>
      obtain rfl := hp p List.mem_cons_self
      exact ih hrest

end Synora.Script
