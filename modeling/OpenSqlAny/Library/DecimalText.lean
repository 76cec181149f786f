import Mathlib.Data.Rat.Cast.Order
import Mathlib.Tactic.Positivity
import OpenSqlAny.Library.DecimalDigits

namespace OpenSqlAny.Library.DecimalText

open DecimalDigits

def AllDigits (cs : List Char) : Prop := ∀ c ∈ cs, c.isDigit = true

/-- Digits that spell a number without redundant leading zeros. -/
structure Canonical (cs : List Char) : Prop where
  ne_nil : cs ≠ []
  digits : AllDigits cs
  leading : cs = ['0'] ∨ cs.head? ≠ some '0'

instance (cs : List Char) : Decidable (AllDigits cs) := List.decidableBAll _ cs

def trimmed (cs : List Char) : List Char :=
  if (cs.dropWhile (· == '0')).isEmpty then ['0'] else cs.dropWhile (· == '0')

def signed (negative : Bool) (body : List Char) : List Char := if negative then '-' :: body else body

def pointed (integer fraction : List Char) : List Char :=
  if fraction.isEmpty then integer else integer ++ '.' :: fraction

def splitSign : List Char → Bool × List Char
  | '-' :: body => (true, body)
  | body => (false, body)

def splitPoint (body : List Char) : List Char × List Char :=
  (body.takeWhile (· != '.'), (body.dropWhile (· != '.')).tail)

def decimalValue (negative : Bool) (digits : List Char) (scale : Nat) : ℚ :=
  (if negative then -1 else 1) * (Nat.ofDigitChars 10 digits 0 / 10 ^ scale)

/-- The number that a plain decimal text denotes, if it is one. -/
def readDecimal (text : List Char) : Option ℚ :=
  let (negative, body) := splitSign text
  let (integer, fraction) := splitPoint body
  if integer ≠ [] ∧ AllDigits (integer ++ fraction) ∧ body = pointed integer fraction then
    some (decimalValue negative (integer ++ fraction) fraction.length)
  else none

/-- The digits of a text, its sign and point removed and its leading zeros
trimmed, and how many of them stand after the point. -/
def readDigits (text : List Char) : List Char × Nat :=
  let body := (splitSign text).2
  (trimmed (body.filter (· != '.')), (splitPoint body).2.length)

section Texts

variable {integer fraction : List Char}

theorem AllDigits.append {cs ds : List Char} (hc : AllDigits cs) (hd : AllDigits ds) : AllDigits (cs ++ ds) := by
  intro c h
  obtain h | h := List.mem_append.mp h
  · exact hc c h
  · exact hd c h

theorem allDigits_replicate (n : Nat) : AllDigits (List.replicate n '0') := by
  intro c h
  rw [List.eq_of_mem_replicate h]
  rfl

theorem allDigits_toDigits (n : Nat) : AllDigits (Nat.toDigits 10 n) :=
  fun _ h => Nat.isDigit_of_mem_toDigits (by decide) (by decide) h

theorem ne_point_of_isDigit {c : Char} (h : c.isDigit = true) : (c != '.') = true := by
  rw [bne_iff_ne]
  rintro rfl
  exact absurd h (by decide)

theorem splitSign_signed (negative : Bool) {body : List Char} (h : body.head? ≠ some '-') :
    splitSign (signed negative body) = (negative, body) := by
  cases negative with
  | true => rfl
  | false =>
      rw [signed, if_neg (by decide), splitSign.eq_def]
      split
      · exact absurd rfl h
      · rfl

theorem splitPoint_pointed (h : AllDigits integer) :
    splitPoint (pointed integer fraction) = (integer, fraction) := by
  have hpoint : ∀ c ∈ integer, (c != '.') = true := fun c hc => ne_point_of_isDigit (h c hc)
  unfold splitPoint pointed
  split
  next hf =>
    have htake := @List.takeWhile_append_of_pos _ (· != '.') integer [] hpoint
    have hdrop := @List.dropWhile_append_of_pos _ (· != '.') integer [] hpoint
    rw [List.append_nil, List.takeWhile_nil, List.append_nil] at htake
    rw [List.append_nil, List.dropWhile_nil] at hdrop
    rw [List.isEmpty_iff.mp hf, htake, hdrop]
    rfl
  next =>
    rw [List.takeWhile_append_of_pos hpoint, List.dropWhile_append_of_pos hpoint]
    simp

theorem filter_pointed (h : AllDigits (integer ++ fraction)) :
    (pointed integer fraction).filter (· != '.') = integer ++ fraction := by
  have hpoint : ∀ c ∈ integer ++ fraction, (c != '.') = true := fun c hc => ne_point_of_isDigit (h c hc)
  unfold pointed
  split
  next hf =>
    rw [List.isEmpty_iff.mp hf, List.append_nil] at hpoint ⊢
    exact List.filter_eq_self.mpr hpoint
  next =>
    rw [List.filter_append, List.filter_cons_of_neg (by decide), ← List.filter_append]
    exact List.filter_eq_self.mpr hpoint

theorem head?_pointed (hne : integer ≠ []) : (pointed integer fraction).head? = integer.head? := by
  obtain ⟨c, cs, rfl⟩ := List.exists_cons_of_ne_nil hne
  unfold pointed
  split <;> rfl

theorem head?_pointed_ne_minus (hne : integer ≠ []) (h : AllDigits integer) :
    (pointed integer fraction).head? ≠ some '-' := by
  rw [head?_pointed hne]
  intro hminus
  exact absurd (h _ (List.mem_of_head? hminus)) (by decide)

theorem splitSign_pointed (negative : Bool) (hne : integer ≠ []) (h : AllDigits (integer ++ fraction)) :
    splitSign (signed negative (pointed integer fraction)) = (negative, pointed integer fraction) :=
  splitSign_signed negative (head?_pointed_ne_minus hne fun c hc => h c (List.mem_append_left _ hc))

theorem readDecimal_signed (negative : Bool) (hne : integer ≠ []) (h : AllDigits (integer ++ fraction)) :
    readDecimal (signed negative (pointed integer fraction)) =
      some (decimalValue negative (integer ++ fraction) fraction.length) := by
  have hsplit := @splitPoint_pointed integer fraction fun c hc => h c (List.mem_append_left _ hc)
  simp only [readDecimal, splitSign_pointed negative hne h, hsplit]
  exact if_pos ⟨hne, h, trivial⟩

theorem readDigits_signed (negative : Bool) (hne : integer ≠ []) (h : AllDigits (integer ++ fraction)) :
    readDigits (signed negative (pointed integer fraction)) =
      (trimmed (integer ++ fraction), fraction.length) := by
  have hsplit := @splitPoint_pointed integer fraction fun c hc => h c (List.mem_append_left _ hc)
  simp only [readDigits, splitSign_pointed negative hne h, hsplit, filter_pointed h]

end Texts

section Canonical

variable {cs : List Char}

theorem trimmed_replicate_append (n : Nat) (cs : List Char) :
    trimmed (List.replicate n '0' ++ cs) = trimmed cs := by
  have h : (List.replicate n '0' ++ cs).dropWhile (· == '0') = cs.dropWhile (· == '0') := by
    apply List.dropWhile_append_of_pos
    intro c hc
    rw [List.eq_of_mem_replicate hc]
    rfl
  rw [trimmed, trimmed, h]

theorem Canonical.trimmed_eq (h : Canonical cs) : trimmed cs = cs := by
  obtain ⟨c, cs, rfl⟩ := List.exists_cons_of_ne_nil h.ne_nil
  obtain hzero | hlead := h.leading
  · rw [hzero]
    rfl
  · have hc : ¬(c == '0') = true := by simpa using hlead
    rw [trimmed, List.dropWhile_cons, if_neg hc]
    rfl

theorem canonical_trimmed (h : AllDigits cs) : Canonical (trimmed cs) := by
  unfold trimmed
  split
  next => exact ⟨by decide, by decide, .inl rfl⟩
  next hne =>
    refine ⟨fun hnil => hne (List.isEmpty_iff.mpr hnil), fun c hc => h c (List.dropWhile_subset _ hc), .inr ?_⟩
    intro hzero
    have hhead := List.head?_dropWhile_not (· == '0') cs
    rw [hzero] at hhead
    simp at hhead

theorem dropWhile_toDigits (n : Nat) : (Nat.toDigits 10 n).dropWhile (· == '0') = significant n := by
  induction n using Nat.strongRecOn with
  | ind n ih =>
      obtain hlt | hle := Nat.lt_or_ge n 10
      · have h := @dropWhile_append_digit [] 0 n hlt rfl
        rwa [List.nil_append, Nat.mul_zero, Nat.zero_add, ← Nat.toDigits_of_lt_base hlt] at h
      · have h := dropWhile_append_digit (Nat.mod_lt n (by decide)) (ih (n / 10) (by omega))
        rw [Nat.div_add_mod, ← Nat.toDigits_of_lt_base (Nat.mod_lt n (by decide)),
          Nat.toDigits_append_toDigits (by decide) (by omega) (Nat.mod_lt n (by decide)),
          Nat.div_add_mod] at h
        exact h

theorem canonical_toDigits (n : Nat) : Canonical (Nat.toDigits 10 n) := by
  have h : trimmed (Nat.toDigits 10 n) = Nat.toDigits 10 n := by
    rw [trimmed, dropWhile_toDigits, significant_or_zero]
  rw [← h]
  exact canonical_trimmed (allDigits_toDigits n)

theorem Canonical.value_eq_zero_iff (h : Canonical cs) : Nat.ofDigitChars 10 cs 0 = 0 ↔ cs = ['0'] := by
  constructor
  · intro hzero
    obtain ⟨c, cs, rfl⟩ := List.exists_cons_of_ne_nil h.ne_nil
    have hdigit := h.digits c (by simp)
    have hc : c.toNat - '0'.toNat = 0 := by
      rw [Nat.ofDigitChars_cons, Nat.ofDigitChars_eq_ofDigitChars_zero] at hzero
      simpa using (Nat.add_eq_zero_iff.mp hzero).1
    have hc0 : c = '0' := by
      obtain ⟨hlo, -⟩ := Char.isDigit_iff_toNat.mp hdigit
      exact Char.toNat_inj.mp (le_antisymm (Nat.sub_eq_zero_iff_le.mp hc) hlo)
    obtain hzero | hlead := h.leading
    · exact hzero
    · exact absurd (congrArg some hc0) hlead
  · rintro rfl
    rfl

theorem Canonical.append_zeros_iff (h : Canonical cs) (n : Nat) :
    Canonical (cs ++ List.replicate n '0') ↔ n = 0 ∨ cs ≠ ['0'] := by
  cases n with
  | zero =>
      rw [List.replicate_zero, List.append_nil]
      exact iff_of_true h (.inl rfl)
  | succ n =>
      constructor
      · intro happend
        right
        rintro rfl
        obtain hzero | hlead := happend.leading
        · simp at hzero
        · exact hlead rfl
      · rintro (hzero | hne)
        · cases hzero
        · refine ⟨by simp, h.digits.append (allDigits_replicate _), .inr ?_⟩
          rw [List.head?_append_of_ne_nil _ h.ne_nil]
          exact h.leading.resolve_left hne

end Canonical

end OpenSqlAny.Library.DecimalText
