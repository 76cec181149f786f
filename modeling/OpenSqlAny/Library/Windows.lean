import Mathlib.Data.List.Infix
import Mathlib.Data.Nat.Find

namespace OpenSqlAny.Library.Windows

variable {α : Type} {n i : Nat} {xs ys : List α}

/-- Every stretch of `n` elements that follow each other, from the first one on. -/
def windows (n : Nat) (xs : List α) : List (List α) :=
  (List.range (xs.length + 1 - n)).map fun i => (xs.drop i).take n

theorem getElem?_windows : (windows n xs)[i]? = if i + n ≤ xs.length then some ((xs.drop i).take n) else none := by
  rw [windows, List.getElem?_map]
  split
  · rename_i h
    rw [List.getElem?_range (by omega)]
    rfl
  · rename_i h
    rw [List.getElem?_eq_none (by rw [List.length_range]; omega)]
    rfl

theorem take_eq_iff_prefix : (xs.drop i).take ys.length = ys ↔ ys <+: xs.drop i := by
  rw [List.prefix_iff_eq_take, eq_comm]

theorem le_of_prefix_drop (hne : ys ≠ []) (h : ys <+: xs.drop i) : i + ys.length ≤ xs.length := by
  have hle := h.length_le
  have hpos := List.length_pos_iff.mpr hne
  rw [List.length_drop] at hle
  omega

theorem infix_iff_exists_drop : ys <:+: xs ↔ ∃ i, ys <+: xs.drop i := by
  constructor
  · rintro ⟨s, t, rfl⟩
    refine ⟨s.length, ?_⟩
    rw [List.append_assoc, List.drop_left]
    exact List.prefix_append ys t
  · rintro ⟨i, h⟩
    exact h.isInfix.trans (List.drop_suffix i xs).isInfix

section Search

variable [DecidableEq α]

/-- The first window that is the list sought is its first occurrence. -/
theorem findIdx?_windows_eq_some_iff (hne : ys ≠ []) :
    (windows ys.length xs).findIdx? (fun window => window = ys) = some i ↔
      ys <+: xs.drop i ∧ ∀ j < i, ¬ ys <+: xs.drop j := by
  have hlength : (windows ys.length xs).length = xs.length + 1 - ys.length := by
    rw [windows, List.length_map, List.length_range]
  have hpos := List.length_pos_iff.mpr hne
  have hwindow : ∀ j (hj : j < (windows ys.length xs).length),
      decide ((windows ys.length xs)[j] = ys) = true ↔ ys <+: xs.drop j := by
    intro j hj
    have hget : (windows ys.length xs)[j] = (xs.drop j).take ys.length := by
      have hsome := @getElem?_windows _ ys.length j xs
      rw [if_pos (by omega), List.getElem?_eq_getElem hj] at hsome
      exact Option.some_inj.mp hsome
    rw [decide_eq_true_iff, hget, take_eq_iff_prefix]
  rw [List.findIdx?_eq_some_iff_getElem]
  constructor
  · rintro ⟨hi, hfound, hbefore⟩
    refine ⟨(hwindow i hi).mp hfound, ?_⟩
    intro j hj hprefix
    exact hbefore j hj ((hwindow j (by omega)).mpr hprefix)
  · rintro ⟨hfound, hbefore⟩
    have hle := le_of_prefix_drop hne hfound
    refine ⟨by omega, (hwindow i (by omega)).mpr hfound, ?_⟩
    intro j hj hprefix
    exact hbefore j hj ((hwindow j (by omega)).mp hprefix)

theorem isSome_findIdx?_windows_iff (hne : ys ≠ []) :
    ((windows ys.length xs).findIdx? fun window => window = ys).isSome = true ↔ ys <:+: xs := by
  rw [infix_iff_exists_drop, Option.isSome_iff_exists]
  constructor
  · rintro ⟨i, h⟩
    exact ⟨i, ((findIdx?_windows_eq_some_iff hne).mp h).1⟩
  · intro h
    classical
    exact ⟨Nat.find h, (findIdx?_windows_eq_some_iff hne).mpr ⟨Nat.find_spec h, fun j hj => Nat.find_min h hj⟩⟩

end Search

section Chunks

def chunks (n : Nat) (xs : List α) : List (List α) :=
  (List.range ((xs.length + n - 1) / n)).map fun i => (xs.drop (i * n)).take n

theorem flatten_first_chunks (n k : Nat) (xs : List α) :
    ((List.range k).map fun i => (xs.drop (i * n)).take n).flatten = xs.take (k * n) := by
  induction k with
  | zero => rw [Nat.zero_mul]; rfl
  | succ k ih =>
      rw [List.range_succ, List.map_append, List.flatten_append, ih, List.map_singleton, List.flatten_singleton,
        ← List.take_add, Nat.succ_mul]

theorem flatten_chunks (hn : 0 < n) : (chunks n xs).flatten = xs := by
  have hround : xs.length ≤ (xs.length + n - 1) / n * n := by
    have hdiv := Nat.div_add_mod (xs.length + n - 1) n
    have hmod := Nat.mod_lt (xs.length + n - 1) hn
    rw [Nat.mul_comm]
    omega
  rw [chunks, flatten_first_chunks, List.take_of_length_le hround]

end Chunks

end OpenSqlAny.Library.Windows
