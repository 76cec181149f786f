import Mathlib.Data.Nat.Bitwise
import OpenSqlAny.Library.Faults
import OpenSqlAny.Library.LittleEndian
import OpenSqlAny.Library.StrideOrbits

namespace OpenSqlAny.PagePermutation

open Library.Faults Library.LittleEndian Library.StrideOrbits

def pagePermutationSectorLen : Nat := 512

inductive PagePermutationError
  | nonPowerOfTwoLength (len : Nat)
  | invalidSectorLength (len : Nat)
  | invalidActiveRange (len start tail : Nat)
  | noActiveCycle (len start tail : Nat)
  deriving DecidableEq, Repr

def usizeCount : Nat := 2 ^ 64

def checkedAdd (a b : Nat) : Option Nat := if a + b < usizeCount then some (a + b) else none

def wrappingAddSigned (a : Nat) (b : Int) : Nat := ((a + b) % usizeCount).toNat

def validateBounds (len start tail : Nat) : Outcome PagePermutationError Unit :=
  if len = 0 ∨ ¬ len.isPowerOfTwo then fail (.nonPowerOfTwoLength len)
  else
    match checkedAdd start tail with
    | none => fail (.invalidActiveRange len start tail)
    | some activeStartPlusTail =>
        if start ≥ len ∨ tail ≥ len ∨ activeStartPlusTail ≥ len then
          fail (.invalidActiveRange len start tail)
        else .ok ()

def unsignedAbs (signedKey : Int32) : UInt32 := UInt32.ofNat signedKey.toInt.natAbs

def low8 (signedKey : Int32) : UInt8 := (unsignedAbs signedKey).toUInt8

def increment (signedKey : Int32) : UInt8 := (unsignedAbs signedKey >>> 8).toUInt8 ||| 1

def rawStride (signedKey : Int32) : UInt16 :=
  ((unsignedAbs signedKey >>> 16).toUInt16 + (low8 signedKey).toUInt16) ||| 1

def strideOf (signedKey : Int32) : Int16 :=
  if signedKey < 0 then -(rawStride signedKey).toInt16 else (rawStride signedKey).toInt16

def negativeSeed (len start tail : Nat) (increment low8 : UInt8) : UInt8 :=
  let boundary := start + tail
  let factor :=
    if len < 256 then
      let base : UInt8 := if boundary = 0 then 0 else UInt8.ofNat boundary
      base + 1 + UInt8.ofNat len
    else UInt8.ofNat (boundary + 1)
  increment * factor - low8

def firstSeed (len start tail : Nat) (signedKey : Int32) : UInt8 :=
  if signedKey < 0 then negativeSeed len start tail (increment signedKey) (low8 signedKey)
  else low8 signedKey

def nextCandidate (stride : Int16) (len candidate : Nat) : Nat :=
  wrappingAddSigned candidate stride.toInt &&& (len - 1)

def inRange (start endIndex candidate : Nat) : Bool := start ≤ candidate && candidate ≤ endIndex

def nextInActiveRange (current : Nat) (stride : Int16) (len start endIndex : Nat) :
    Outcome PagePermutationError Nat :=
  match seek (nextCandidate stride len) (inRange start endIndex) len (nextCandidate stride len current) with
  | some candidate => .ok candidate
  | none => fail (.noActiveCycle len start (len - 1 - endIndex))

/-- The unbounded loop, on fuel: none says that the fuel ran out. The buffer is given back on a
fault too, since the caller keeps what was written to it. -/
def permuteLoop (stride : Int16) (increment : UInt8) (len start endIndex : Nat) (first : UInt8) :
    Nat → Bytes → Nat → UInt8 → Option (Outcome PagePermutationError Unit × Bytes)
  | 0, _, _, _ => none
  | fuel + 1, bytes, current, seed =>
      match nextInActiveRange current stride len start endIndex with
      | .error fault => some (.error fault, bytes)
      | .ok next =>
          if next = start then
            match assign bytes current (first + seed) with
            | .error fault => some (.error fault, bytes)
            | .ok bytes => some (.ok (), bytes)
          else
            match index bytes next >>= fun byte => assign bytes current (byte + seed) with
            | .error fault => some (.error fault, bytes)
            | .ok bytes =>
                permuteLoop stride increment len start endIndex first fuel bytes next (seed + increment)

def permutePowerOfTwoInPlace (fuel : Nat) (bytes : Bytes) (start tail : Nat) (signedKey : Int32) :
    Option (Outcome PagePermutationError Unit × Bytes) :=
  let len := bytes.length
  match validateBounds len start tail with
  | .error fault => some (.error fault, bytes)
  | .ok () =>
      if signedKey = 0 then some (.ok (), bytes)
      else
        match index bytes start with
        | .error fault => some (.error fault, bytes)
        | .ok first =>
            permuteLoop (strideOf signedKey) (increment signedKey) len start (len - 1 - tail) first fuel
              bytes start (firstSeed len start tail signedKey)

def permuteSectorInPlace (fuel : Nat) (sector : Bytes) (start tail : Nat) (signedKey : Int32) :
    Option (Outcome PagePermutationError Unit × Bytes) :=
  if sector.length ≠ pagePermutationSectorLen then
    some (fail (.invalidSectorLength sector.length), sector)
  else permutePowerOfTwoInPlace fuel sector start tail signedKey

theorem validateBounds_eq_ok_iff {len start tail : Nat} :
    validateBounds len start tail = .ok () ↔
      len.isPowerOfTwo ∧ start + tail < usizeCount ∧ start + tail < len := by
  simp only [validateBounds, checkedAdd, fail]
  by_cases hpow : len = 0 ∨ ¬ len.isPowerOfTwo
  · rw [if_pos hpow]
    have hnot : ¬ len.isPowerOfTwo := by
      rcases hpow with rfl | h
      · exact Nat.not_isPowerOfTwo_zero
      · exact h
    simp [hnot]
  · rw [if_neg hpow]
    simp only [not_or, not_not] at hpow
    by_cases hfits : start + tail < usizeCount
    · rw [if_pos hfits]
      by_cases hrange : start ≥ len ∨ tail ≥ len ∨ start + tail ≥ len
      · simp only [if_pos hrange]
        simp; omega
      · simp only [if_neg hrange]
        simp [hpow.2, hfits]; omega
    · simp [hfits]

theorem permuteSectorInPlace_eq {sector : Bytes} (hlen : sector.length = pagePermutationSectorLen)
    (fuel start tail : Nat) (signedKey : Int32) :
    permuteSectorInPlace fuel sector start tail signedKey =
      permutePowerOfTwoInPlace fuel sector start tail signedKey := by
  rw [permuteSectorInPlace, if_neg (by simpa using hlen)]

end OpenSqlAny.PagePermutation
