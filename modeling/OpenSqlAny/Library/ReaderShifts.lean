import OpenSqlAny.Library.CursorReader

namespace OpenSqlAny.Library.ReaderShifts

open Faults CursorReader

variable {ε α β γ σ : Type} {a b : Nat}

/-- The same value or the same fault, and as far behind `a` as behind `b`. -/
def SameBehind (a b : Nat) : EStateM.Result (Fault ε) Nat α → EStateM.Result (Fault ε) Nat α → Prop
  | .ok v c, .ok w d => v = w ∧ ∃ k, c = a + k ∧ d = b + k
  | .error e _, .error e' _ => e = e'
  | _, _ => False

/-- Behind `b` the second reader does what the first one does behind `a`. -/
structure Shifted (a b : Nat) (p q : Reader ε α) : Prop where
  same : ∀ k, SameBehind a b (p (a + k)) (q (b + k))

theorem Shifted.pure (v : α) : Shifted a b (pure v : Reader ε α) (pure v) := ⟨fun k => ⟨rfl, k, rfl, rfl⟩⟩

theorem Shifted.lift (x : Outcome ε α) : Shifted a b (CursorReader.lift x) (CursorReader.lift x) := by
  constructor
  intro k
  cases x with
  | ok v => exact ⟨rfl, k, rfl, rfl⟩
  | error e => exact (rfl : e = e)

theorem Shifted.bind {p q : Reader ε α} {p' q' : α → Reader ε β} (h : Shifted a b p q)
    (h' : ∀ v, Shifted a b (p' v) (q' v)) : Shifted a b (p >>= p') (q >>= q') := by
  constructor
  intro k
  have hsame := h.same k
  change SameBehind a b (EStateM.bind p p' (a + k)) (EStateM.bind q q' (b + k))
  rw [EStateM.bind, EStateM.bind]
  revert hsame
  cases p (a + k) with
  | ok v c =>
      cases q (b + k) with
      | ok w d =>
          rintro ⟨rfl, m, rfl, rfl⟩
          exact (h' v).same m
      | error e d => exact False.elim
  | error e c =>
      cases q (b + k) with
      | ok w d => exact False.elim
      | error e' d => exact id

theorem Shifted.ite {c : Prop} [Decidable c] {p q p' q' : Reader ε α} (h : Shifted a b p q)
    (h' : Shifted a b p' q') : Shifted a b (if c then p else p') (if c then q else q') := by
  split
  · exact h
  · exact h'

theorem Shifted.foldlM {step step' : σ → γ → Reader ε σ} (hstep : ∀ s x, Shifted a b (step s x) (step' s x))
    (xs : List γ) (s : σ) : Shifted a b (xs.foldlM step s) (xs.foldlM step' s) := by
  induction xs generalizing s with
  | nil => exact .pure s
  | cons x xs ih =>
      rw [List.foldlM_cons, List.foldlM_cons]
      exact .bind (hstep s x) ih

theorem Shifted.guard (n : Nat) (e : ε) : Shifted a b (guard (a + n) e) (guard (b + n) e) := by
  constructor
  intro k
  rw [CursorReader.guard, CursorReader.guard]
  by_cases h : k ≤ n
  · rw [if_pos (Nat.add_le_add_left h a), if_pos (Nat.add_le_add_left h b)]
    exact ⟨rfl, k, rfl, rfl⟩
  · rw [if_neg (by omega), if_neg (by omega)]
    exact (rfl : (Fault.err e) = .err e)

section Rows

variable {row row' : List β}

theorem slice_behind (h : row.drop a = row'.drop b) (ha : a ≤ row.length) (hb : b ≤ row'.length) (lo hi : Nat) :
    (slice row (a + lo) (a + hi) : Outcome ε (List β)) = slice row' (b + lo) (b + hi) := by
  have hlength : row.length - a = row'.length - b := by
    rw [← List.length_drop, ← List.length_drop, h]
  have hbytes : (row.take (a + hi)).drop (a + lo) = (row'.take (b + hi)).drop (b + lo) := by
    rw [List.drop_take, List.drop_take, ← List.drop_drop, ← List.drop_drop, h, Nat.add_sub_add_left,
      Nat.add_sub_add_left]
  rw [slice, slice, hbytes]
  by_cases hin : lo ≤ hi ∧ hi ≤ row.length - a
  · rw [if_pos (by omega), if_pos (by omega)]
  · rw [if_neg (by omega), if_neg (by omega)]

theorem Shifted.takeOr (h : row.drop a = row'.drop b) (ha : a ≤ row.length) (hb : b ≤ row'.length) (count : Nat)
    (short : Nat → ε) : Shifted a b (takeOr row count short) (takeOr row' count short) := by
  constructor
  intro k
  have hlength : row.length - a = row'.length - b := by
    rw [← List.length_drop, ← List.length_drop, h]
  have hremaining : row.length - (a + k) = row'.length - (b + k) := by omega
  have hslice : (slice row (a + k) (a + k + count) : Outcome ε (List β)) = slice row' (b + k) (b + k + count) := by
    rw [Nat.add_assoc, Nat.add_assoc]
    exact slice_behind h ha hb k (k + count)
  rw [CursorReader.takeOr, CursorReader.takeOr, hremaining, hslice]
  split
  · exact (rfl : Fault.err (short (row'.length - (b + k))) = _)
  · cases (slice row' (b + k) (b + k + count) : Outcome ε (List β)) with
    | ok bytes => exact ⟨rfl, k + count, Nat.add_assoc _ _ _, Nat.add_assoc _ _ _⟩
    | error e => exact (rfl : e = e)

end Rows

theorem Shifted.runFrom {p q : Reader ε α} (h : Shifted a b p q) (k : Nat) :
    (∃ e, runFrom p (a + k) = .error e ∧ runFrom q (b + k) = .error e) ∨
      ∃ v n, runFrom p (a + k) = .ok (v, a + n) ∧ runFrom q (b + k) = .ok (v, b + n) := by
  have hsame := h.same k
  rw [CursorReader.runFrom, CursorReader.runFrom]
  revert hsame
  cases p (a + k) with
  | ok v c =>
      cases q (b + k) with
      | ok w d =>
          rintro ⟨rfl, n, rfl, rfl⟩
          exact .inr ⟨v, n, rfl, rfl⟩
      | error e d => exact False.elim
  | error e c =>
      cases q (b + k) with
      | ok w d => exact False.elim
      | error e' d =>
          rintro (rfl : e = e')
          exact .inl ⟨e, rfl, rfl⟩

end OpenSqlAny.Library.ReaderShifts
