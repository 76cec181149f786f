import Mathlib.Algebra.BigOperators.Fin
import Mathlib.Tactic.Ring
import OpenSqlAny.Library.DecimalText
import OpenSqlAny.RowErrors

namespace OpenSqlAny.RowDecimals

open Library.Faults Library.CursorReader Library.ErrorClasses Library.LittleEndian Library.DecimalText
open RowTypes RowSegments RowDecoder RowGrammar RowFields RowErrors

def toPlainString (d : Decimal) : List Char :=
  let digits :=
    if d.scale ≥ d.coefficient.length then
      List.replicate (d.scale + 1 - d.coefficient.length) '0' ++ d.coefficient
    else d.coefficient
  let split := digits.length - d.scale
  let out := if d.scale = 0 then digits else digits.take split ++ '.' :: digits.drop split
  if d.negative && d.coefficient != ['0'] then '-' :: out else out

def padded (d : Decimal) : List Char :=
  List.replicate (d.scale + 1 - d.coefficient.length) '0' ++ d.coefficient

def integerPart (d : Decimal) : List Char := (padded d).take ((padded d).length - d.scale)

def fractionPart (d : Decimal) : List Char := (padded d).drop ((padded d).length - d.scale)

def value (d : Decimal) : ℚ := decimalValue d.negative d.coefficient d.scale

variable {d : Decimal}

theorem scale_lt_padded : d.scale < (padded d).length := by
  simp only [padded, List.length_append, List.length_replicate]
  omega

theorem length_fractionPart : (fractionPart d).length = d.scale := by
  have h := @scale_lt_padded d
  rw [fractionPart, List.length_drop]
  omega

theorem parts_append : integerPart d ++ fractionPart d = padded d := List.take_append_drop _ _

theorem integerPart_ne_nil : integerPart d ≠ [] := by
  have h := @scale_lt_padded d
  rw [← List.length_pos_iff, integerPart, List.length_take]
  omega

theorem allDigits_padded (h : AllDigits d.coefficient) : AllDigits (padded d) :=
  (allDigits_replicate _).append h

theorem toPlainString_eq :
    toPlainString d =
      signed (d.negative && d.coefficient != ['0']) (pointed (integerPart d) (fractionPart d)) := by
  have hpadded : (if d.scale ≥ d.coefficient.length then
      List.replicate (d.scale + 1 - d.coefficient.length) '0' ++ d.coefficient
      else d.coefficient) = padded d := by
    split
    · rfl
    next h =>
      have hzero : d.scale + 1 - d.coefficient.length = 0 := by omega
      rw [padded, hzero]
      rfl
  have hpoint : (if d.scale = 0 then padded d else integerPart d ++ '.' :: fractionPart d) =
      pointed (integerPart d) (fractionPart d) := by
    have hempty : (fractionPart d).isEmpty = true ↔ d.scale = 0 := by
      rw [List.isEmpty_iff, ← List.length_eq_zero_iff, length_fractionPart]
    simp only [pointed, hempty]
    split
    next h => rw [← parts_append, List.isEmpty_iff.mp (hempty.mpr h), List.append_nil]
    · rfl
  simp only [toPlainString, hpadded]
  exact congrArg (signed _) hpoint

/-- The text of a decimal denotes its value, canonical or not. -/
theorem readDecimal_toPlainString (h : AllDigits d.coefficient) :
    readDecimal (toPlainString d) = some (value d) := by
  have hdigits : AllDigits (integerPart d ++ fractionPart d) := parts_append ▸ allDigits_padded h
  rw [toPlainString_eq, readDecimal_signed _ integerPart_ne_nil hdigits, length_fractionPart, parts_append]
  have hvalue : Nat.ofDigitChars 10 (padded d) 0 = Nat.ofDigitChars 10 d.coefficient 0 := by
    rw [padded, Nat.ofDigitChars_append, Nat.ofDigitChars_replicate_zero, Nat.mul_zero]
  simp only [value, decimalValue, hvalue]
  by_cases hzero : d.coefficient = ['0']
  · simp [hzero, Nat.ofDigitChars_cons]
  · simp [hzero]

theorem canonical_integerPart (h : Canonical d.coefficient) : Canonical (integerPart d) := by
  refine ⟨integerPart_ne_nil, fun c hc => allDigits_padded h.digits c (List.mem_of_mem_take hc), ?_⟩
  obtain hlt | hle := Nat.lt_or_ge d.scale d.coefficient.length
  · have hpadded : padded d = d.coefficient := by
      have hzero : d.scale + 1 - d.coefficient.length = 0 := by omega
      rw [padded, hzero]
      rfl
    rw [integerPart, hpadded]
    obtain hc | hlead := h.leading
    · have hscale : d.scale = 0 := by simpa [hc] using hlt
      left
      rw [hc, hscale]
      rfl
    · right
      rw [List.head?_take, if_neg (by omega)]
      exact hlead
  · left
    have hlength : (padded d).length - d.scale = 1 := by
      simp only [padded, List.length_append, List.length_replicate]
      omega
    have hsucc : d.scale + 1 - d.coefficient.length = d.scale - d.coefficient.length + 1 := by omega
    rw [integerPart, hlength, padded, hsucc]
    rfl

theorem value_neg_iff (h : Canonical d.coefficient) :
    value d < 0 ↔ (d.negative && d.coefficient != ['0']) = true := by
  rw [value, decimalValue, Bool.and_eq_true, bne_iff_ne, ne_eq, ← h.value_eq_zero_iff]
  generalize Nat.ofDigitChars 10 d.coefficient 0 = n
  cases d.negative with
  | false =>
      have hnonneg : (0 : ℚ) ≤ 1 * (n / 10 ^ d.scale) := by positivity
      simpa using hnonneg
  | true =>
      obtain rfl | hn := Nat.eq_zero_or_pos n
      · simp
      · have hpos : (0 : ℚ) < n / 10 ^ d.scale := by positivity
        simpa [hn.ne'] using hpos

theorem splitSign_toPlainString (h : AllDigits d.coefficient) :
    (splitSign (toPlainString d)).1 = (d.negative && d.coefficient != ['0']) := by
  have hdigits : AllDigits (integerPart d ++ fractionPart d) := parts_append ▸ allDigits_padded h
  rw [toPlainString_eq, splitSign_pointed _ integerPart_ne_nil hdigits]

theorem readDigits_toPlainString (h : Canonical d.coefficient) :
    readDigits (toPlainString d) = (d.coefficient, d.scale) := by
  have hdigits : AllDigits (integerPart d ++ fractionPart d) := parts_append ▸ allDigits_padded h.digits
  rw [toPlainString_eq, readDigits_signed _ integerPart_ne_nil hdigits, length_fractionPart, parts_append,
    padded, trimmed_replicate_append, h.trimmed_eq]

/-- A canonical decimal and its plain text determine each other, up to the sign of zero. -/
theorem toPlainString_faithful (d : Decimal) (h : Canonical d.coefficient) :
    (∃ integer fraction, toPlainString d = signed (decide (value d < 0)) (pointed integer fraction) ∧
      Canonical integer ∧ AllDigits fraction ∧ fraction.length = d.scale) ∧
    readDigits (toPlainString d) = (d.coefficient, d.scale) ∧
    ∀ e : Decimal, Canonical e.coefficient → toPlainString e = toPlainString d →
      e.coefficient = d.coefficient ∧ e.scale = d.scale ∧
        (e.negative = d.negative ∨ d.coefficient = ['0']) := by
  refine ⟨⟨integerPart d, fractionPart d, ?_, canonical_integerPart h, ?_, length_fractionPart⟩,
    readDigits_toPlainString h, ?_⟩
  · have hsign : decide (value d < 0) = (d.negative && d.coefficient != ['0']) := by
      rw [Bool.eq_iff_iff, decide_eq_true_iff, value_neg_iff h]
    rw [hsign]
    exact toPlainString_eq
  · exact fun c hc => allDigits_padded h.digits c (List.mem_of_mem_drop hc)
  · intro e he htext
    have hdigits := readDigits_toPlainString he
    rw [htext, readDigits_toPlainString h, Prod.mk.injEq] at hdigits
    obtain ⟨hcoefficient, hscale⟩ := hdigits
    refine ⟨hcoefficient.symm, hscale.symm, ?_⟩
    by_cases hzero : d.coefficient = ['0']
    · exact Or.inr hzero
    · left
      have hsign := congrArg (fun text => (splitSign text).1) htext
      simp only [splitSign_toPlainString he.digits, splitSign_toPlainString h.digits, ← hcoefficient,
        bne_iff_ne.mpr hzero, Bool.and_true] at hsign
      exact hsign

theorem toPlainString_faithful_money :
    readDigits (toPlainString ⟨true, ['5'], 2⟩) = (['5'], 2) ∧
      ['0'] = ['0'] ∧ 2 = 2 ∧ (false = true ∨ ['0'] = ['0']) :=
  have hzero : Canonical ['0'] := ⟨by decide, by decide, by decide⟩
  ⟨(toPlainString_faithful ⟨true, ['5'], 2⟩ ⟨by decide, by decide, by decide⟩).2.1,
    (toPlainString_faithful ⟨true, ['0'], 2⟩ hzero).2.2 ⟨false, ['0'], 2⟩ hzero rfl⟩

def magnitude (d : Decimal) : ℚ := Nat.ofDigitChars 10 d.coefficient 0 * 10 ^ (-(d.scale : ℤ))

theorem value_of_nonneg (h : d.negative = false) : value d = magnitude d := by
  rw [value, decimalValue, magnitude, h, zpow_neg, zpow_natCast, div_eq_mul_inv]
  simp

theorem base100_foldl (digits : Bytes) (n : Nat) :
    ((digits.foldl (fun n d => 100 * n + d.toNat) n : ℕ) : ℚ) =
      n * 100 ^ digits.length +
        ∑ i : Fin digits.length, ((digits.get i).toNat : ℚ) * 100 ^ (digits.length - 1 - i) := by
  induction digits generalizing n with
  | nil => simp
  | cons d digits ih =>
      change _ = _ * 100 ^ (digits.length + 1) + ∑ i : Fin (digits.length + 1),
        (((d :: digits).get i).toNat : ℚ) * 100 ^ (digits.length + 1 - 1 - i)
      rw [List.foldl_cons, ih, Fin.sum_univ_succ]
      have htail (i : Fin digits.length) :
          (((d :: digits).get i.succ).toNat : ℚ) * 100 ^ (digits.length + 1 - 1 - (i.succ : ℕ)) =
            ((digits.get i).toNat : ℚ) * 100 ^ (digits.length - 1 - i) := by
        have hexp : digits.length + 1 - 1 - (i.succ : ℕ) = digits.length - 1 - i := by
          rw [Fin.val_succ]
          omega
        rw [hexp]
        rfl
      rw [Finset.sum_congr rfl fun i _ => htail i]
      push_cast
      simp only [List.get_cons_zero, Fin.val_zero, Nat.sub_zero]
      ring

theorem base100_eq_sum (digits : Bytes) :
    (base100 digits : ℚ) =
      ∑ i : Fin digits.length, ((digits.get i).toNat : ℚ) * 100 ^ (digits.length - 1 - i) := by
  have h := base100_foldl digits 0
  rw [Nat.cast_zero, zero_mul, zero_add] at h
  exact h

theorem magnitude_legacyDecimal {digits : Bytes} (hne : digits ≠ []) (exponent : UInt8) :
    magnitude (legacyDecimal exponent digits) = base100 digits * 100 ^ ((exponent.toNat : ℤ) - 0xc0) := by
  have hexponent : (exponent.toNat : ℤ) - 0xc0 =
      ((exponent.toNat - 0xc0 : ℕ) : ℤ) + -((0xc0 - exponent.toNat : ℕ) : ℤ) := by omega
  have hten (k : ℕ) : (100 : ℚ) ^ k = 10 ^ (2 * k) := by
    rw [pow_mul]
    norm_num
  rw [hexponent, zpow_add₀ (by norm_num), zpow_neg, zpow_natCast, zpow_natCast, hten, hten]
  simp only [magnitude, legacyDecimal, hne, ↓reduceIte, Nat.ofDigitChars_append,
    Nat.ofDigitChars_ten_toDigits, Nat.ofDigitChars_replicate_zero, zpow_neg, zpow_natCast]
  push_cast
  ring

theorem allDigits_legacyDecimal (exponent : UInt8) (digits : Bytes) :
    AllDigits (legacyDecimal exponent digits).coefficient := by
  unfold legacyDecimal
  split
  · exact allDigits_toDigits _
  · exact (allDigits_toDigits _).append (allDigits_replicate _)

theorem le_length_of_prefix {α : Type} {row f : List α} {a : α} {cursor : Nat} (h : a :: f <+: row.drop cursor) :
    cursor ≤ row.length := by
  have hle := h.length_le
  rw [List.length_drop, List.length_cons] at hle
  omega

theorem readNumericLegacy_of_token {row digits : Bytes} {cursor : Nat} {exponent : UInt8} (column : Nat)
    (hlength : digits.length ≤ 255) (hdigits : ∀ d ∈ digits, d ≤ 99)
    (h : UInt8.ofNat digits.length :: exponent :: digits <+: row.drop cursor) :
    readNumericLegacy row column cursor =
      .ok (legacyDecimal exponent digits) (cursor + digits.length + 2) := by
  have hcursor := le_length_of_prefix h
  apply ((readNumericLegacy_reads column).ok_iff hcursor _ _).mpr
  have hend := prefix_end_le hcursor h
  exact ⟨_, ⟨exponent, digits, ⟨by omega, hdigits, rfl⟩, rfl⟩, h, by simp only [List.length_cons]; omega,
    by simpa [Nat.add_assoc] using hend⟩

def IsInvalidDigit : DecodeError → Prop
  | .invalidNumericDigit _ _ => True
  | _ => False

theorem take_raises_truncated (row : Bytes) (count column : Nat) :
    ReaderRaises (fun e => ¬IsInvalidDigit e) (take row count column) :=
  .takeOr row count fun _ => id

theorem takeByte_raises_truncated (row : Bytes) (column : Nat) :
    ReaderRaises (fun e => ¬IsInvalidDigit e) (takeByte row column) :=
  .bind (take_raises_truncated row 1 column) fun bytes => .lift (.index bytes 0)

theorem legacyCoefficient_eq_error_iff (column : Nat) (digits : Bytes) :
    (∃ e, IsInvalidDigit e ∧ legacyCoefficient column digits = .error (.err e)) ↔ ∃ d ∈ digits, 99 < d := by
  constructor
  · rintro ⟨e, -, he⟩
    by_contra hall
    have hdigits : ∀ d ∈ digits, d ≤ 99 := by simpa using hall
    rw [(legacyCoefficient_eq_ok_iff column digits _).mpr ⟨hdigits, rfl⟩] at he
    cases he
  · intro h
    induction digits with
    | nil => simp at h
    | cons d digits ih =>
        rw [legacyCoefficient]
        split
        · exact ⟨.invalidNumericDigit column d, trivial, rfl⟩
        next hd =>
          obtain ⟨e, hinvalid, he⟩ := ih (by simpa [show ¬99 < d from hd] using h)
          exact ⟨e, hinvalid, by rw [he]; rfl⟩

theorem le_length_of_takeByte {row : Bytes} {column c c' : Nat} {b : UInt8} (h : takeByte row column c = .ok b c') :
    c ≤ row.length := by
  obtain ⟨bytes, c₁, htake, -⟩ := bind_eq_ok_iff.mp h
  rw [take, takeOr] at htake
  split at htake
  next => cases htake
  next hshort => omega

theorem token_of_invalid {row : Bytes} {column cursor c' : Nat} {e : DecodeError} (hinvalid : IsInvalidDigit e)
    (he : readNumericLegacy row column cursor = .error (.err e) c') :
    ∃ exponent digits, digits.length ≤ 255 ∧ UInt8.ofNat digits.length :: exponent :: digits <+: row.drop cursor ∧
      legacyCoefficient column digits = .error (.err e) := by
  obtain he | ⟨count, c₁, hcount, he⟩ := bind_eq_error_iff.mp he
  · exact absurd hinvalid ((takeByte_raises_truncated row column).error _ _ _ he)
  have hcursor := le_length_of_takeByte hcount
  obtain he | ⟨exponent, c₂, hexponent, he⟩ := bind_eq_error_iff.mp he
  · exact absurd hinvalid ((takeByte_raises_truncated row column).error _ _ _ he)
  split at he
  next => cases he
  next hne =>
    obtain he | ⟨digits, c₃, hdigits, he⟩ := bind_eq_error_iff.mp he
    · exact absurd hinvalid ((take_raises_truncated row _ column).error _ _ _ he)
    obtain ⟨_, rfl, hcountAt, rfl, hc₁⟩ := ((takeByte_reads column).ok_iff hcursor _ _).mp hcount
    obtain ⟨_, rfl, hexponentAt, rfl, hc₂⟩ := ((takeByte_reads column).ok_iff hc₁ _ _).mp hexponent
    obtain ⟨digits, ⟨rfl, hlength⟩, hdigitsAt, rfl, hc₃⟩ := ((take_reads _ column).ok_iff hc₂ _ _).mp hdigits
    have hcountEq : UInt8.ofNat digits.length = count := by rw [hlength, UInt8.ofNat_toNat]
    refine ⟨exponent, digits, hlength ▸ Nat.le_of_lt_succ count.toNat_lt, ?_, ?_⟩
    · rw [hcountEq]
      exact prefix_append_iff.mpr ⟨hcountAt, prefix_append_iff.mpr ⟨hexponentAt, hdigitsAt⟩⟩
    · obtain he | ⟨_, _, -, he⟩ := bind_eq_error_iff.mp he
      · exact (lift_eq_error_iff.mp he).1
      · cases he

theorem invalid_of_token {row digits : Bytes} {column cursor : Nat} {exponent : UInt8} {e : DecodeError}
    (hlength : digits.length ≤ 255) (hne : digits ≠ [])
    (hat : UInt8.ofNat digits.length :: exponent :: digits <+: row.drop cursor)
    (he : legacyCoefficient column digits = .error (.err e)) :
    ∃ c', readNumericLegacy row column cursor = .error (.err e) c' := by
  have hcount : (UInt8.ofNat digits.length).toNat = digits.length := by
    rw [UInt8.toNat_ofNat', Nat.mod_eq_of_lt (Nat.lt_succ_of_le hlength)]
  have hcountNe : UInt8.ofNat digits.length ≠ 0 := by
    intro hzero
    rw [hzero] at hcount
    exact hne (List.length_eq_zero_iff.mp hcount.symm)
  have hcursor := le_length_of_prefix hat
  have hend := prefix_end_le hcursor hat
  rw [List.length_cons, List.length_cons] at hend
  obtain ⟨hcountAt, hrest⟩ := @prefix_append_iff _ row [UInt8.ofNat digits.length] _ cursor |>.mp hat
  obtain ⟨hexponentAt, hdigitsAt⟩ := @prefix_append_iff _ row [exponent] digits _ |>.mp hrest
  refine ⟨cursor + 1 + 1 + digits.length, ?_⟩
  apply bind_eq_error_iff.mpr
  refine Or.inr ⟨_, cursor + 1, ((takeByte_reads column).ok_iff hcursor _ _).mpr
    ⟨_, rfl, hcountAt, rfl, by omega⟩, ?_⟩
  apply bind_eq_error_iff.mpr
  refine Or.inr ⟨exponent, cursor + 1 + 1, ((takeByte_reads column).ok_iff (by omega) _ _).mpr
    ⟨_, rfl, hexponentAt, rfl, by omega⟩, ?_⟩
  rw [if_neg hcountNe]
  apply bind_eq_error_iff.mpr
  refine Or.inr ⟨digits, cursor + 1 + 1 + digits.length, ((take_reads _ column).ok_iff (by omega) _ _).mpr
    ⟨_, ⟨rfl, hcount.symm⟩, hdigitsAt, rfl, by omega⟩, ?_⟩
  exact bind_eq_error_iff.mpr (Or.inl (lift_eq_error_iff.mpr ⟨he, rfl⟩))

theorem readNumericLegacy_invalid_iff {row : Bytes} {column cursor : Nat} :
    (∃ e c', IsInvalidDigit e ∧ readNumericLegacy row column cursor = .error (.err e) c') ↔
      ∃ exponent digits, digits.length ≤ 255 ∧ UInt8.ofNat digits.length :: exponent :: digits <+: row.drop cursor ∧
        ∃ d ∈ digits, 99 < d := by
  constructor
  · rintro ⟨e, c', hinvalid, he⟩
    obtain ⟨exponent, digits, hlength, hat, hcoefficient⟩ := token_of_invalid hinvalid he
    exact ⟨exponent, digits, hlength, hat, (legacyCoefficient_eq_error_iff column digits).mp ⟨e, hinvalid, hcoefficient⟩⟩
  · rintro ⟨exponent, digits, hlength, hat, hd⟩
    obtain ⟨e, hinvalid, hcoefficient⟩ := (legacyCoefficient_eq_error_iff column digits).mpr hd
    obtain ⟨d, hmem, -⟩ := hd
    obtain ⟨c', he⟩ := invalid_of_token hlength (List.ne_nil_of_mem hmem) hat hcoefficient
    exact ⟨e, c', hinvalid, he⟩

theorem readNumericLegacy_exact (row : Bytes) (column cursor : Nat) :
    (∀ (exponent : UInt8) (digits : Bytes), 1 ≤ digits.length → digits.length ≤ 255 → (∀ d ∈ digits, d ≤ 99) →
      UInt8.ofNat digits.length :: exponent :: digits <+: row.drop cursor →
      ∃ d, readNumericLegacy row column cursor = .ok d (cursor + (digits.length + 2)) ∧ d.negative = false ∧
        magnitude d = (∑ i : Fin digits.length, ((digits.get i).toNat : ℚ) * 100 ^ (digits.length - 1 - i)) *
          100 ^ ((exponent.toNat : ℤ) - 0xc0) ∧
        (d.scale : ℤ) = 2 * max 0 (0xc0 - exponent.toNat) ∧
        readDecimal (toPlainString d) = some (magnitude d)) ∧
    ((∃ e c', IsInvalidDigit e ∧ readNumericLegacy row column cursor = .error (.err e) c') ↔
      ∃ exponent digits, digits.length ≤ 255 ∧
        UInt8.ofNat digits.length :: exponent :: digits <+: row.drop cursor ∧ ∃ d ∈ digits, 99 < d) := by
  refine ⟨?_, readNumericLegacy_invalid_iff⟩
  intro exponent digits hpos hlength hdigits hat
  have hne : digits ≠ [] := List.length_pos_iff.mp hpos
  have hnegative : (legacyDecimal exponent digits).negative = false := by simp [legacyDecimal, hne]
  refine ⟨legacyDecimal exponent digits, readNumericLegacy_of_token column hlength hdigits hat, hnegative, ?_, ?_, ?_⟩
  · rw [magnitude_legacyDecimal hne, base100_eq_sum]
  · simp only [legacyDecimal, hne, ↓reduceIte]
    omega
  · rw [readDecimal_toPlainString (allDigits_legacyDecimal exponent digits), value_of_nonneg hnegative]

theorem readNumericLegacy_exact_fraction :
    (∃ d, readNumericLegacy [2, 0xbf, 1, 23] 0 0 = .ok d 4 ∧ readDecimal (toPlainString d) = some (magnitude d)) ∧
      ∃ e c', IsInvalidDigit e ∧ readNumericLegacy [1, 0xc0, 100] 0 0 = .error (.err e) c' := by
  constructor
  · obtain ⟨d, hd, -, -, -, hread⟩ := (readNumericLegacy_exact [2, 0xbf, 1, 23] 0 0).1 0xbf [1, 23]
      (by decide) (by decide) (by simp) (by decide)
    exact ⟨d, hd, hread⟩
  · exact (readNumericLegacy_exact [1, 0xc0, 100] 0 0).2.mpr
      ⟨0xc0, [100], by decide, by decide, by decide⟩

end OpenSqlAny.RowDecimals
