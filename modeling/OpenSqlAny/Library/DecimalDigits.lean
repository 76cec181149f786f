import Mathlib.Data.List.Basic
import Mathlib.Data.Nat.Basic
import Mathlib.Tactic.IntervalCases

namespace OpenSqlAny.Library.DecimalDigits

def significant (n : Nat) : List Char := if n = 0 then [] else Nat.toDigits 10 n

theorem digitChar_eq_zero_iff {d : Nat} (h : d < 10) : Nat.digitChar d = '0' ↔ d = 0 := by
  interval_cases d <;> decide

theorem dropWhile_append_digit {digits : List Char} {n d : Nat} (hd : d < 10)
    (h : digits.dropWhile (· == '0') = significant n) :
    (digits ++ [Nat.digitChar d]).dropWhile (· == '0') = significant (10 * n + d) := by
  rw [List.dropWhile_append, h]
  by_cases hn : n = 0
  · subst hn
    simp only [significant, ↓reduceIte, List.isEmpty_nil, Nat.mul_zero, Nat.zero_add]
    by_cases hz : d = 0
    · simp [hz]
    · rw [if_neg hz, Nat.toDigits_of_lt_base hd]
      simp [digitChar_eq_zero_iff hd, hz]
  · have hne : (Nat.toDigits 10 n).isEmpty = false := by simp
    simp only [significant, hn, ↓reduceIte, hne, Bool.false_eq_true]
    rw [if_neg (by omega), ← Nat.toDigits_of_lt_base hd]
    exact Nat.toDigits_append_toDigits (by decide) (by omega) hd

theorem significant_or_zero (n : Nat) :
    (if (significant n).isEmpty then ['0'] else significant n) = Nat.toDigits 10 n := by
  by_cases hn : n = 0
  · simp [hn, significant]
  · simp [hn, significant]

end OpenSqlAny.Library.DecimalDigits
