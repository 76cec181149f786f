import Mathlib.Algebra.Order.Group.Nat
import Mathlib.Data.List.Basic

namespace OpenSqlAny.Library.ListDistances

variable {α β : Type} [DecidableEq α] [DecidableEq β] {xs ys : List α}

def distance (xs ys : List α) : Nat := (xs.zip ys).countP fun pair => pair.1 ≠ pair.2

theorem distance_cons (x y : α) (xs ys : List α) :
    distance (x :: xs) (y :: ys) = (if x = y then 0 else 1) + distance xs ys := by
  rw [distance, List.zip_cons_cons, List.countP_cons, distance, Nat.add_comm]
  by_cases h : x = y
  · simp [h]
  · simp [h]

/-- Each place at which the lists differ takes away at most one element. -/
theorem count_le_count_add_distance (h : xs.length = ys.length) (a : α) :
    xs.count a ≤ ys.count a + distance xs ys := by
  induction xs generalizing ys with
  | nil => exact Nat.zero_le _
  | cons x xs ih =>
      obtain ⟨y, ys, rfl⟩ := List.exists_cons_of_length_eq_add_one h.symm
      have hrest := ih (Nat.succ.inj h)
      rw [distance_cons, List.count_cons, List.count_cons]
      by_cases hxy : x = y
      · rw [if_pos hxy, hxy]
        omega
      · rw [if_neg hxy]
        split <;> split <;> omega

theorem distance_mapIdx {f : Nat → α → β} (hf : ∀ i, Function.Injective (f i)) (xs ys : List α) :
    distance (xs.mapIdx f) (ys.mapIdx f) = distance xs ys := by
  induction xs generalizing f ys with
  | nil => rfl
  | cons x xs ih =>
      cases ys with
      | nil => rw [List.mapIdx_nil, distance, distance, List.zip_nil_right, List.zip_nil_right]; rfl
      | cons y ys =>
          rw [List.mapIdx_cons, List.mapIdx_cons, distance_cons, distance_cons, ih fun i => hf (i + 1)]
          simp only [(hf 0).eq_iff]

theorem distance_self (xs : List α) : distance xs xs = 0 := by
  induction xs with
  | nil => rfl
  | cons x xs ih => rw [distance_cons, if_pos rfl, ih]

theorem distance_set_le (xs : List α) (i : Nat) (x : α) : distance xs (xs.set i x) ≤ 1 := by
  induction xs generalizing i with
  | nil => exact Nat.zero_le _
  | cons y xs ih =>
      cases i with
      | zero =>
          rw [List.set_cons_zero, distance_cons, distance_self]
          split <;> omega
      | succ i =>
          rw [List.set_cons_succ, distance_cons, if_pos rfl, Nat.zero_add]
          exact ih i

theorem distance_part_le (xs ys : List α) (i k : Nat) :
    distance ((xs.take k).drop i) ((ys.take k).drop i) ≤ distance xs ys := by
  rw [distance, distance, List.zip, ← List.drop_zipWith, ← List.take_zipWith]
  exact ((List.drop_sublist _ _).trans (List.take_sublist _ _)).countP_le

end OpenSqlAny.Library.ListDistances
