import OpenSqlAny.Library.CursorReader

namespace OpenSqlAny.Library.ErrorClasses

open Faults CursorReader

variable {ε α β γ σ : Type} {P Q : ε → Prop}

/-- Every error of an outcome is of a class. A panic is not an error. -/
structure Raises (P : ε → Prop) (x : Outcome ε α) : Prop where
  error : ∀ e, x = .error (.err e) → P e

structure ReaderRaises (P : ε → Prop) (p : Reader ε α) : Prop where
  error : ∀ c c' e, p c = .error (.err e) c' → P e

theorem Raises.mono {x : Outcome ε α} (h : Raises P x) (hPQ : ∀ e, P e → Q e) : Raises Q x :=
  ⟨fun e he => hPQ e (h.error e he)⟩

theorem Raises.ok (a : α) : Raises P (.ok a : Outcome ε α) := ⟨fun _ he => nomatch he⟩

theorem Raises.panicked : Raises P (panicked : Outcome ε α) := ⟨fun _ he => nomatch he⟩

theorem Raises.fail {e : ε} (h : P e) : Raises P (fail e : Outcome ε α) := by
  constructor
  rintro _ ⟨⟩
  exact h

theorem Raises.bind {x : Outcome ε α} {f : α → Outcome ε β} (hx : Raises P x)
    (hf : ∀ a, x = .ok a → Raises P (f a)) : Raises P (x >>= f) := by
  cases x with
  | error fault =>
      constructor
      rintro e ⟨⟩
      exact hx.error e rfl
  | ok a => exact hf a rfl

theorem Raises.mapErr {δ : Type} {f : δ → ε} (h : ∀ e, P (f e)) (x : Outcome δ α) : Raises P (mapErr f x) := by
  rcases x with (e | _) | a
  · exact .fail (h e)
  · exact .panicked
  · exact .ok a

theorem Raises.ite {c : Prop} [Decidable c] {x y : Outcome ε α} (hx : c → Raises P x) (hy : ¬c → Raises P y) :
    Raises P (if c then x else y) := by
  split
  next h => exact hx h
  next h => exact hy h

theorem Raises.index (xs : List α) (i : Nat) : Raises P (index xs i : Outcome ε α) := by
  rw [Faults.index]
  split
  · exact .ok _
  · exact .panicked

theorem Raises.slice (xs : List α) (lo hi : Nat) : Raises P (slice xs lo hi : Outcome ε (List α)) :=
  .ite (fun _ => .ok _) fun _ => .panicked

theorem Raises.assign (xs : List α) (i : Nat) (x : α) : Raises P (assign xs i x : Outcome ε (List α)) :=
  .ite (fun _ => .ok _) fun _ => .panicked

theorem Raises.subtract (a b : Nat) : Raises P (subtract a b : Outcome ε Nat) :=
  .ite (fun _ => .ok _) fun _ => .panicked

theorem Raises.foldlM {step : σ → γ → Outcome ε σ} {xs : List γ}
    (hstep : ∀ s x, x ∈ xs → Raises P (step s x)) (s : σ) : Raises P (xs.foldlM step s) := by
  induction xs generalizing s with
  | nil => exact .ok s
  | cons x xs ih =>
      rw [List.foldlM_cons]
      apply Raises.bind (hstep s x (List.mem_cons_self ..))
      intro t _
      exact ih (fun u y hy => hstep u y (List.mem_cons_of_mem x hy)) t

theorem ReaderRaises.mono {p : Reader ε α} (h : ReaderRaises P p) (hPQ : ∀ e, P e → Q e) : ReaderRaises Q p :=
  ⟨fun c c' e he => hPQ e (h.error c c' e he)⟩

theorem ReaderRaises.pure (a : α) : ReaderRaises P (pure a : Reader ε α) := ⟨fun _ _ _ he => nomatch he⟩

theorem ReaderRaises.lift {x : Outcome ε α} (h : Raises P x) : ReaderRaises P (lift x) := by
  constructor
  intro c c' e he
  rcases x with fault | a
  · cases he
    exact h.error e rfl
  · cases he

theorem ReaderRaises.bind {p : Reader ε α} {q : α → Reader ε β} (hp : ReaderRaises P p)
    (hq : ∀ a, ReaderRaises P (q a)) : ReaderRaises P (p >>= q) := by
  constructor
  intro c c' e he
  rcases CursorReader.bind_eq_error_iff.mp he with he | ⟨a, d, -, he⟩
  · exact hp.error c c' e he
  · exact (hq a).error d c' e he

theorem ReaderRaises.ite {c : Prop} [Decidable c] {p q : Reader ε α} (hp : c → ReaderRaises P p)
    (hq : ¬c → ReaderRaises P q) : ReaderRaises P (if c then p else q) := by
  split
  next h => exact hp h
  next h => exact hq h

theorem ReaderRaises.takeOr (row : List β) (count : Nat) {short : Nat → ε} (h : ∀ n, P (short n)) :
    ReaderRaises P (takeOr row count short) := by
  constructor
  intro c c' e he
  rw [CursorReader.takeOr] at he
  split at he
  · cases he
    exact h _
  · split at he
    · cases he
    next fault hslice =>
      cases he
      exact (Raises.slice (P := P) row c (c + count)).error e hslice

theorem ReaderRaises.foldlM {step : σ → γ → Reader ε σ} {xs : List γ}
    (hstep : ∀ s x, x ∈ xs → ReaderRaises P (step s x)) (s : σ) : ReaderRaises P (xs.foldlM step s) := by
  induction xs generalizing s with
  | nil => exact .pure s
  | cons x xs ih =>
      rw [List.foldlM_cons]
      apply ReaderRaises.bind (hstep s x (List.mem_cons_self ..))
      exact ih fun u y hy => hstep u y (List.mem_cons_of_mem x hy)

theorem ReaderRaises.runFrom {p : Reader ε α} (h : ReaderRaises P p) (c : Nat) : Raises P (runFrom p c) := by
  constructor
  intro e he
  rw [CursorReader.runFrom] at he
  cases hp : p c with
  | ok a c' =>
      rw [hp] at he
      cases he
  | error fault c' =>
      rw [hp] at he
      cases he
      exact h.error c c' e hp

end OpenSqlAny.Library.ErrorClasses
