import Synora.Lib.Utf8

namespace Synora.Exchange
open Utf8

/-! # A connection and what is read from it and written to it -/

/-- What the other side sends until it closes, and what has been written to it. -/
structure Conn where
  incoming : Bytes
  written : Bytes
deriving DecidableEq, Repr

variable {ε α β : Type}

abbrev Io (ε : Type) := ExceptT ε (StateM Conn)

/-- `read_exact`: a connection that closes before all bytes have come is an error. -/
def readExact (eof : ε) (n : ℕ) : Io ε Bytes := fun s =>
  if n ≤ s.incoming.length then
    (.ok (s.incoming.take n), { s with incoming := s.incoming.drop n })
  else (.error eof, { s with incoming := [] })

/-- `write_all` -/
def writeAll (bytes : Bytes) : Io ε Unit := fun s =>
  (.ok (), { s with written := s.written ++ bytes })

@[simp] theorem pure_run (a : α) (s : Conn) : (pure a : Io ε α) s = (.ok a, s) := rfl

@[simp] theorem throw_run (e : ε) (s : Conn) : (throw e : Io ε α) s = (.error e, s) := rfl

theorem bind_run (m : Io ε α) (f : α → Io ε β) (s : Conn) :
    (m >>= f) s = match m s with
      | (.ok a, t) => f a t
      | (.error e, t) => (.error e, t) := by
  change (ExceptT.bind m f) s = _
  unfold ExceptT.bind ExceptT.mk
  change ((m s).1 |> ExceptT.bindCont f) (m s).2 = _
  rcases m s with ⟨a | e, t⟩ <;> rfl

theorem bind_ok {m : Io ε α} {s t : Conn} {a : α} (h : m s = (.ok a, t)) (f : α → Io ε β) :
    (m >>= f) s = f a t := by
  rw [bind_run, h]

theorem bind_error {m : Io ε α} {s t : Conn} {e : ε} (h : m s = (.error e, t))
    (f : α → Io ε β) : (m >>= f) s = (.error e, t) := by
  rw [bind_run, h]

theorem readExact_of_le {eof : ε} {n : ℕ} {incoming : Bytes} (h : n ≤ incoming.length)
    (written : Bytes) : readExact eof n ⟨incoming, written⟩ =
      (.ok (incoming.take n), ⟨incoming.drop n, written⟩) :=
  if_pos h

theorem readExact_of_lt {eof : ε} {n : ℕ} {incoming : Bytes} (h : incoming.length < n)
    (written : Bytes) : readExact eof n ⟨incoming, written⟩ = (.error eof, ⟨[], written⟩) :=
  if_neg (Nat.not_le_of_lt h)

theorem readExact_append {eof : ε} {n : ℕ} {bytes : Bytes} (h : bytes.length = n) (rest : Bytes)
    (written : Bytes) :
    readExact eof n ⟨bytes ++ rest, written⟩ = (.ok bytes, ⟨rest, written⟩) := by
  subst h
  rw [readExact_of_le (by simp)]
  simp

theorem writeAll_run (bytes incoming written : Bytes) :
    (writeAll bytes : Io ε Unit) ⟨incoming, written⟩ = (.ok (), ⟨incoming, written ++ bytes⟩) := rfl

/-! ## Reading alone -/

/-- Nothing is written. -/
def Silent (m : Io ε α) : Prop := ∀ s, (m s).2.written = s.written

theorem silent_pure (a : α) : Silent (pure a : Io ε α) := fun _ => rfl

theorem silent_throw (e : ε) : Silent (throw e : Io ε α) := fun _ => rfl

theorem silent_readExact (eof : ε) (n : ℕ) : Silent (readExact eof n) := by
  intro s
  unfold readExact
  split
  · rfl
  · rfl

theorem Silent.bind {m : Io ε α} {f : α → Io ε β} (hm : Silent m) (hf : ∀ a, Silent (f a)) :
    Silent (m >>= f) := by
  intro s
  have h := hm s
  rcases hrun : m s with ⟨e | a, t⟩
  · rw [hrun] at h
    rw [bind_error hrun]
    exact h
  · rw [hrun] at h
    rw [bind_ok hrun]
    exact (hf a t).trans h

theorem Silent.ite {p : Prop} [Decidable p] {m m' : Io ε α} (hm : Silent m) (hm' : Silent m') :
    Silent (if p then m else m') := by
  split
  · exact hm
  · exact hm'

end Synora.Exchange
