import Mathlib.Data.Nat.Bitwise
import Mathlib.Tactic.IntervalCases

namespace OpenSqlAny.Library.PackedBits

/-- Which end of a byte holds its first bit. -/
inductive BitOrder
  | msbFirst
  | lsbFirst
  deriving DecidableEq, Repr

open BitOrder

def position : BitOrder → Nat → Nat
  | msbFirst, k => 7 - k
  | lsbFirst, k => k

def bitOf (order : BitOrder) (byte : UInt8) (k : Nat) : Bool := byte.toNat.testBit (position order k)

/-- Bit `i` of a byte string, eight to a byte; bits past the end read as clear. -/
def bitAt (order : BitOrder) (bytes : List UInt8) (i : Nat) : Bool :=
  match bytes[i / 8]? with
  | some byte => bitOf order byte (i % 8)
  | none => false

def unpack (order : BitOrder) (bytes : List UInt8) : List Bool :=
  (List.range (8 * bytes.length)).map (bitAt order bytes)

def byteCount (bits : Nat) : Nat := (bits + 7) / 8

/-- The byte strings of the right length that hold exactly these bits; the
unused bits of the last byte are free. -/
def Packs (order : BitOrder) (bits : List Bool) (bytes : List UInt8) : Prop :=
  bytes.length = byteCount bits.length ∧ ∀ i (h : i < bits.length), bitAt order bytes i = bits[i]

def mask : BitOrder → Nat → UInt8
  | msbFirst, k => 0x80 >>> UInt8.ofNat k
  | lsbFirst, k => 1 <<< UInt8.ofNat k

theorem and_shifted_one_ne_zero (byte : UInt8) {m : UInt8} {k : Nat} (hm : m.toNat = 2 ^ k) :
    byte &&& m ≠ 0 ↔ byte.toNat.testBit k = true := by
  rw [Ne, ← UInt8.toNat_inj, UInt8.toNat_and, hm, Nat.and_two_pow]
  cases byte.toNat.testBit k <;> simp

theorem toNat_mask (order : BitOrder) {k : Nat} (hk : k < 8) :
    (mask order k).toNat = 2 ^ position order k := by
  cases order <;> interval_cases k <;> rfl

theorem and_mask_ne_zero (order : BitOrder) (byte : UInt8) {k : Nat} (hk : k < 8) :
    (byte &&& mask order k != 0) = bitOf order byte k := by
  rw [Bool.eq_iff_iff, bne_iff_ne, and_shifted_one_ne_zero byte (toNat_mask order hk)]
  rfl

theorem bitAt_of_getElem? {order : BitOrder} {bytes : List UInt8} {i : Nat} {byte : UInt8}
    (h : bytes[i / 8]? = some byte) : bitAt order bytes i = bitOf order byte (i % 8) := by
  simp [bitAt, h]

@[simp] theorem length_unpack (order : BitOrder) (bytes : List UInt8) :
    (unpack order bytes).length = 8 * bytes.length := by
  rw [unpack, List.length_map, List.length_range]

theorem getElem?_unpack {order : BitOrder} {bytes : List UInt8} {i : Nat} (h : i < 8 * bytes.length) :
    (unpack order bytes)[i]? = some (bitAt order bytes i) := by
  rw [unpack, List.getElem?_map, List.getElem?_range h, Option.map_some]

theorem unpack_append (order : BitOrder) (xs ys : List UInt8) :
    unpack order (xs ++ ys) = unpack order xs ++ unpack order ys := by
  rw [unpack, unpack, unpack, List.length_append, Nat.mul_add, List.range_add, List.map_append, List.map_map]
  congr 1
  · apply List.map_congr_left
    intro i hi
    have hlt : i / 8 < xs.length := by
      have := List.mem_range.mp hi
      omega
    rw [bitAt, bitAt, List.getElem?_append_left hlt]
  · apply List.map_congr_left
    intro i _
    rw [Function.comp_apply, bitAt, bitAt, List.getElem?_append_right (by omega),
      show (8 * xs.length + i) / 8 - xs.length = i / 8 by omega, show (8 * xs.length + i) % 8 = i % 8 by omega]

def packByte (order : BitOrder) (bits : Nat → Bool) : UInt8 :=
  UInt8.ofNat (Nat.ofBits fun p : Fin 8 => bits (position order p))

def pack (order : BitOrder) (bits : List Bool) : List UInt8 :=
  (List.range (byteCount bits.length)).map fun j => packByte order fun k => bits.getD (8 * j + k) false

theorem position_position (order : BitOrder) {k : Nat} (hk : k < 8) : position order (position order k) = k := by
  cases order with
  | msbFirst => exact Nat.sub_sub_self (Nat.le_of_lt_succ hk)
  | lsbFirst => rfl

theorem bitOf_packByte (order : BitOrder) (bits : Nat → Bool) {k : Nat} (hk : k < 8) :
    bitOf order (packByte order bits) k = bits k := by
  have hposition : position order k < 8 := by
    cases order with
    | msbFirst => exact Nat.lt_succ_of_le (Nat.sub_le 7 k)
    | lsbFirst => exact hk
  have hbyte : Nat.ofBits (fun p : Fin 8 => bits (position order p)) < 2 ^ 8 := Nat.ofBits_lt_two_pow _
  rw [bitOf, packByte, UInt8.toNat_ofNat', Nat.mod_eq_of_lt hbyte, Nat.testBit_ofBits_lt _ _ hposition,
    position_position order hk]

theorem length_pack (order : BitOrder) (bits : List Bool) : (pack order bits).length = byteCount bits.length := by
  rw [pack, List.length_map, List.length_range]

theorem lt_byteCount {i bits : Nat} (h : i < bits) : i / 8 < byteCount bits := by
  rw [byteCount]
  omega

theorem packs_pack (order : BitOrder) (bits : List Bool) : Packs order bits (pack order bits) := by
  refine ⟨length_pack order bits, fun i hi => ?_⟩
  have hbyte : (pack order bits)[i / 8]? = some (packByte order fun k => bits.getD (8 * (i / 8) + k) false) := by
    rw [pack, List.getElem?_map, List.getElem?_range (lt_byteCount hi), Option.map_some]
  rw [bitAt_of_getElem? hbyte, bitOf_packByte order _ (Nat.mod_lt i (by decide)), Nat.div_add_mod,
    List.getD_eq_getElem?_getD, List.getElem?_eq_getElem hi, Option.getD_some]

end OpenSqlAny.Library.PackedBits
