import Mathlib.Algebra.Order.Group.Nat
import Mathlib.Data.List.Basic

namespace OpenSqlAny.Library.Faults

/-- How a call can end without a value: an error it returns, or a panic. -/
inductive Fault (ε : Type)
  | err (e : ε)
  | panic
  deriving DecidableEq, Repr

abbrev Outcome (ε α : Type) := Except (Fault ε) α

variable {ε δ α β : Type}

def fail (e : ε) : Outcome ε α := .error (.err e)

def panicked : Outcome ε α := .error .panic

def index (xs : List α) (i : Nat) : Outcome ε α :=
  match xs[i]? with
  | some x => .ok x
  | none => panicked

def slice (xs : List α) (lo hi : Nat) : Outcome ε (List α) :=
  if lo ≤ hi ∧ hi ≤ xs.length then .ok ((xs.take hi).drop lo) else panicked

def assign (xs : List α) (i : Nat) (x : α) : Outcome ε (List α) :=
  if i < xs.length then .ok (xs.set i x) else panicked

def subtract (a b : Nat) : Outcome ε Nat :=
  if b ≤ a then .ok (a - b) else panicked

/-- Unsigned addition in a build that checks it: a sum of more than `bits` bits panics. -/
def addWithin (bits a b : Nat) : Outcome ε Nat :=
  if a + b < 2 ^ bits then .ok (a + b) else panicked

def mulWithin (bits a b : Nat) : Outcome ε Nat :=
  if a * b < 2 ^ bits then .ok (a * b) else panicked

def mapErr (f : ε → δ) : Outcome ε α → Outcome δ α
  | .ok a => .ok a
  | .error (.err e) => .error (.err (f e))
  | .error .panic => .error .panic

theorem index_eq_ok_iff {xs : List α} {i : Nat} {x : α} :
    index (ε := ε) xs i = .ok x ↔ xs[i]? = some x := by
  rw [index]
  cases h : xs[i]? <;> simp [panicked]

theorem index_of_lt {xs : List α} {i : Nat} (h : i < xs.length) :
    index (ε := ε) xs i = .ok xs[i] :=
  index_eq_ok_iff.mpr (List.getElem?_eq_getElem h)

theorem slice_of_le {xs : List α} {lo hi : Nat} (h : lo ≤ hi) (h' : hi ≤ xs.length) :
    slice (ε := ε) xs lo hi = .ok ((xs.take hi).drop lo) := by
  simp [slice, h, h']

theorem assign_of_lt {xs : List α} {i : Nat} (h : i < xs.length) (x : α) :
    assign (ε := ε) xs i x = .ok (xs.set i x) := by
  simp [assign, h]

theorem subtract_of_le {a b : Nat} (h : b ≤ a) : subtract (ε := ε) a b = .ok (a - b) := by
  simp [subtract, h]

theorem addWithin_eq_ok_iff {bits a b c : Nat} :
    addWithin (ε := ε) bits a b = .ok c ↔ a + b < 2 ^ bits ∧ c = a + b := by
  rw [addWithin]
  split
  · rename_i h
    simp [h, eq_comm]
  · rename_i h
    simp [h, panicked]

theorem mulWithin_eq_ok_iff {bits a b c : Nat} :
    mulWithin (ε := ε) bits a b = .ok c ↔ a * b < 2 ^ bits ∧ c = a * b := by
  rw [mulWithin]
  split
  · rename_i h
    simp [h, eq_comm]
  · rename_i h
    simp [h, panicked]

theorem ok_bind (a : α) (f : α → Outcome ε β) : (Except.ok a : Outcome ε α) >>= f = f a := rfl

theorem bind_eq_ok_iff {x : Outcome ε α} {f : α → Outcome ε β} {b : β} :
    x >>= f = .ok b ↔ ∃ a, x = .ok a ∧ f a = .ok b := by
  cases x with
  | error e => simp [bind, Except.bind]
  | ok a => simp [bind, Except.bind]

theorem bind_ne_panic {x : Outcome ε α} {f : α → Outcome ε β} (hx : x ≠ .error .panic)
    (hf : ∀ a, x = .ok a → f a ≠ .error .panic) : x >>= f ≠ .error .panic := by
  cases x with
  | error e => simpa [bind, Except.bind] using hx
  | ok a => simpa [bind, Except.bind] using hf a rfl

theorem mapErr_eq_ok_iff {f : ε → δ} {x : Outcome ε α} {a : α} : mapErr f x = .ok a ↔ x = .ok a := by
  rcases x with (e | _) | a <;> simp [mapErr]

theorem mapErr_ne_panic {f : ε → δ} {x : Outcome ε α} (hx : x ≠ .error .panic) :
    mapErr f x ≠ .error .panic := by
  rcases x with (e | _) | a <;> simp_all [mapErr]

theorem forM_eq_ok_iff {f : α → Outcome ε Unit} {xs : List α} :
    xs.forM f = .ok () ↔ ∀ x ∈ xs, f x = .ok () := by
  induction xs with
  | nil => simp [pure, Except.pure]
  | cons x xs ih =>
      change (f x >>= fun _ => xs.forM f) = _ ↔ _
      rw [bind_eq_ok_iff, List.forall_mem_cons, ← ih]
      constructor
      · intro ⟨_, hx, hxs⟩
        exact ⟨hx, hxs⟩
      · intro ⟨hx, hxs⟩
        exact ⟨(), hx, hxs⟩

theorem filterAuxM_eq_ok {p : α → Outcome ε Bool} {q : α → Bool} {xs : List α}
    (h : ∀ x ∈ xs, p x = .ok (q x)) (acc : List α) :
    xs.filterAuxM p acc = .ok ((xs.filter q).reverse ++ acc) := by
  induction xs generalizing acc with
  | nil => rfl
  | cons x xs ih =>
      obtain ⟨hx, hxs⟩ := List.forall_mem_cons.mp h
      rw [List.filterAuxM, hx]
      change xs.filterAuxM p (cond (q x) (x :: acc) acc) = _
      rw [ih hxs]
      cases hq : q x with
      | false => simp [hq]
      | true => simp [hq]

theorem filterM_eq_ok {p : α → Outcome ε Bool} {q : α → Bool} {xs : List α}
    (h : ∀ x ∈ xs, p x = .ok (q x)) : xs.filterM p = .ok (xs.filter q) := by
  rw [List.filterM, filterAuxM_eq_ok h []]
  change Except.ok (((xs.filter q).reverse ++ []).reverse) = _
  rw [List.append_nil, List.reverse_reverse]

theorem anyM_eq_ok {p : α → Outcome ε Bool} {q : α → Bool} {xs : List α}
    (h : ∀ x ∈ xs, p x = .ok (q x)) : xs.anyM p = .ok (xs.any q) := by
  induction xs with
  | nil => rfl
  | cons x xs ih =>
      obtain ⟨hx, hxs⟩ := List.forall_mem_cons.mp h
      rw [List.anyM, hx, List.any_cons]
      cases q x with
      | true => rfl
      | false => exact ih hxs

theorem mapM_eq_ok {f : α → Outcome ε β} {g : α → β} {xs : List α} (h : ∀ x ∈ xs, f x = .ok (g x)) :
    xs.mapM f = .ok (xs.map g) := by
  induction xs with
  | nil => rfl
  | cons x xs ih =>
      obtain ⟨hx, hxs⟩ := List.forall_mem_cons.mp h
      rw [List.mapM_cons, hx, ok_bind, ih hxs, ok_bind, List.map_cons]
      rfl

theorem filterMapM_eq_ok {f : α → Outcome ε (Option β)} {g : α → Option β} {xs : List α}
    (h : ∀ x ∈ xs, f x = .ok (g x)) : xs.filterMapM f = .ok (xs.filterMap g) := by
  induction xs with
  | nil => rfl
  | cons x xs ih =>
      obtain ⟨hx, hxs⟩ := List.forall_mem_cons.mp h
      rw [List.filterMapM_cons, hx, ok_bind, List.filterMap_cons]
      cases g x with
      | none => exact ih hxs
      | some b =>
          simp only
          rw [ih hxs]
          rfl

end OpenSqlAny.Library.Faults
