import Mathlib.Algebra.Order.Ring.Int
import Mathlib.Data.Int.ModEq
import Mathlib.Tactic.Positivity
import Mathlib.Tactic.Ring

namespace OpenSqlAny.Library.LittleEndian

abbrev Bytes := List UInt8

def fromLeBytes : Bytes → Nat
  | [] => 0
  | b :: bs => b.toNat + 256 * fromLeBytes bs

def wordAt (bytes : Bytes) (offset : Nat) : Nat := fromLeBytes ((bytes.drop offset).take 2)

def toLeBytes : Nat → Nat → Bytes
  | 0, _ => []
  | w + 1, n => UInt8.ofNat n :: toLeBytes w (n / 256)

/-- The two's complement reading of an unsigned number of `bits` bits. -/
def toSigned (bits n : Nat) : Int := if n < 2 ^ (bits - 1) then n else (n : Int) - 2 ^ bits

def toLeSigned (w : Nat) (x : Int) : Bytes := toLeBytes w (x % 2 ^ (8 * w)).toNat

@[simp] theorem length_toLeBytes (w n : Nat) : (toLeBytes w n).length = w := by
  induction w generalizing n with
  | zero => rfl
  | succ w ih => simp [toLeBytes, ih]

@[simp] theorem length_toLeSigned (w : Nat) (x : Int) : (toLeSigned w x).length = w :=
  length_toLeBytes _ _

theorem fromLeBytes_lt (bs : Bytes) : fromLeBytes bs < 2 ^ (8 * bs.length) := by
  induction bs with
  | nil => simp [fromLeBytes]
  | cons b bs ih =>
      have hb : b.toNat < 256 := b.toNat_lt
      rw [fromLeBytes, List.length_cons, Nat.mul_succ, Nat.pow_add]
      omega

theorem wordAt_lt (bytes : Bytes) (offset : Nat) : wordAt bytes offset < 2 ^ 16 := by
  have h := fromLeBytes_lt ((bytes.drop offset).take 2)
  have hlen : ((bytes.drop offset).take 2).length ≤ 2 := List.length_take_le ..
  exact lt_of_lt_of_le h (Nat.pow_le_pow_right (by decide) (Nat.mul_le_mul_left 8 hlen))

theorem wordAt_append {xs ys : Bytes} {offset : Nat} (h : offset + 2 ≤ xs.length) :
    wordAt (xs ++ ys) offset = wordAt xs offset := by
  have hroom : 2 ≤ (xs.drop offset).length := by
    rw [List.length_drop]
    omega
  rw [wordAt, wordAt, List.drop_append_of_le_length (by omega), List.take_append_of_le_length hroom]

theorem fromLeBytes_pair {bytes : Bytes} {offset : Nat} (h : offset + 1 < bytes.length) :
    fromLeBytes [bytes[offset], bytes[offset + 1]] = wordAt bytes offset := by
  rw [wordAt, List.drop_eq_getElem_cons (by omega), List.drop_eq_getElem_cons h]
  rfl

theorem toLeBytes_fromLeBytes (bs : Bytes) : toLeBytes bs.length (fromLeBytes bs) = bs := by
  induction bs with
  | nil => rfl
  | cons b bs ih =>
      have hb : b.toNat < 256 := b.toNat_lt
      have hhead : UInt8.ofNat (b.toNat + 256 * fromLeBytes bs) = b := by
        apply UInt8.toNat_inj.mp
        rw [UInt8.toNat_ofNat']
        omega
      have htail : (b.toNat + 256 * fromLeBytes bs) / 256 = fromLeBytes bs := by omega
      rw [List.length_cons, fromLeBytes, toLeBytes, hhead, htail, ih]

theorem fromLeBytes_toLeBytes {w n : Nat} (h : n < 2 ^ (8 * w)) : fromLeBytes (toLeBytes w n) = n := by
  induction w generalizing n with
  | zero =>
      have hn : n = 0 := by simpa using h
      rw [hn, toLeBytes, fromLeBytes]
  | succ w ih =>
      rw [Nat.mul_succ, Nat.pow_add] at h
      rw [toLeBytes, fromLeBytes, ih (by omega), UInt8.toNat_ofNat']
      omega

theorem fromLeBytes_eq_iff {bs : Bytes} {n : Nat} :
    fromLeBytes bs = n ↔ n < 2 ^ (8 * bs.length) ∧ bs = toLeBytes bs.length n := by
  constructor
  · rintro rfl
    exact ⟨fromLeBytes_lt bs, (toLeBytes_fromLeBytes bs).symm⟩
  · rintro ⟨hn, hbs⟩
    rw [hbs, fromLeBytes_toLeBytes hn]

theorem wordAt_after (xs ys : Bytes) (offset : Nat) : wordAt (xs ++ ys) (xs.length + offset) = wordAt ys offset := by
  rw [wordAt, wordAt, ← List.drop_drop, List.drop_left]

theorem wordAt_toLeBytes (xs ys : Bytes) {n : Nat} (h : n < 2 ^ 16) :
    wordAt (xs ++ toLeBytes 2 n ++ ys) xs.length = n := by
  rw [List.append_assoc, ← Nat.add_zero xs.length, wordAt_after, wordAt, List.drop_zero,
    List.take_left' (length_toLeBytes 2 n), fromLeBytes_toLeBytes h]

theorem toSigned_eq_iff {bits n : Nat} (hbits : 0 < bits) (hn : n < 2 ^ bits) {x : Int} :
    toSigned bits n = x ↔
      -2 ^ (bits - 1) ≤ x ∧ x < 2 ^ (bits - 1) ∧ n = (x % 2 ^ bits).toNat := by
  obtain ⟨k, rfl⟩ : ∃ k, bits = k + 1 := ⟨bits - 1, by omega⟩
  have hpow : (2 : Int) ^ (k + 1) = 2 * 2 ^ k := by ring
  have hpowN : 2 ^ (k + 1) = 2 * 2 ^ k := by ring
  have hcast : ((2 ^ k : Nat) : Int) = 2 ^ k := by push_cast; rfl
  have hpos : (0 : Int) < 2 ^ k := by positivity
  simp only [toSigned, Nat.add_sub_cancel, hpow]
  rw [hpowN] at hn
  constructor
  · rintro rfl
    split
    next h =>
      refine ⟨by omega, by omega, ?_⟩
      rw [Int.emod_eq_of_lt (by omega) (by omega)]
      rfl
    next h =>
      refine ⟨by omega, by omega, ?_⟩
      have : ((n : Int) - 2 * 2 ^ k) % (2 * 2 ^ k) = n := by
        rw [Int.sub_emod_right, Int.emod_eq_of_lt (by omega) (by omega)]
      rw [this]
      rfl
  · rintro ⟨hlo, hhi, rfl⟩
    by_cases hx : 0 ≤ x
    · rw [Int.emod_eq_of_lt hx (by omega)]
      rw [if_pos (by omega)]
      omega
    · have : x % (2 * 2 ^ k) = x + 2 * 2 ^ k := by
        rw [← Int.add_emod_right, Int.emod_eq_of_lt (by omega) (by omega)]
      rw [this, if_neg (by omega)]
      omega

theorem toSigned_fromLeBytes_eq_iff {bs : Bytes} {w : Nat} (hw : 0 < w) (hlen : bs.length = w)
    {x : Int} : toSigned (8 * w) (fromLeBytes bs) = x ↔
      -2 ^ (8 * w - 1) ≤ x ∧ x < 2 ^ (8 * w - 1) ∧ bs = toLeSigned w x := by
  subst hlen
  rw [toSigned_eq_iff (by omega) (fromLeBytes_lt bs), fromLeBytes_eq_iff]
  refine and_congr_right fun _ => and_congr_right fun _ => and_iff_right ?_
  have hpos : (0 : Int) < 2 ^ (8 * bs.length) := by positivity
  have := Int.emod_lt_of_pos x hpos
  have h0 := Int.emod_nonneg x hpos.ne'
  have hcast : ((2 ^ (8 * bs.length) : Nat) : Int) = 2 ^ (8 * bs.length) := by push_cast; rfl
  omega

end OpenSqlAny.Library.LittleEndian
