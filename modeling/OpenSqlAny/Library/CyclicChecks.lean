import Mathlib.Data.List.GetD
import Mathlib.Logic.Function.Iterate
import OpenSqlAny.Library.LittleEndian
import OpenSqlAny.Library.PackedBits

namespace OpenSqlAny.Library.CyclicChecks

open LittleEndian PackedBits

variable {w : Nat}

/-- One clock of the register of a reflected cyclic redundancy check, without input. -/
def clock (poly s : BitVec w) : BitVec w := if s.getLsbD 0 then (s >>> 1) ^^^ poly else s >>> 1

/-- The register that holds the given bits, the first one lowest. -/
def word (w : Nat) : List Bool → BitVec w
  | [] => 0
  | b :: bs => (word w bs <<< 1) ^^^ (BitVec.ofBool b).setWidth w

def absorb (poly s : BitVec w) (bit : Bool) : BitVec w := clock poly (s ^^^ (BitVec.ofBool bit).setWidth w)

def absorbAll (poly s : BitVec w) (bits : List Bool) : BitVec w := bits.foldl (absorb poly) s

def absorbByte (poly s : BitVec w) (byte : UInt8) : BitVec w := (clock poly)^[8] (s ^^^ byte.toBitVec.setWidth w)

def checksum (poly : BitVec w) (bytes : Bytes) : BitVec w :=
  ~~~bytes.foldl (absorbByte poly) (BitVec.allOnes w)

def remainder (poly : BitVec w) (bytes : Bytes) : BitVec w :=
  absorbAll poly (BitVec.allOnes w) (unpack .lsbFirst bytes)

variable {poly : BitVec w}

theorem getLsbD_word {i : Nat} (bits : List Bool) (hi : i < w) :
    (word w bits).getLsbD i = bits.getD i false := by
  induction bits generalizing i with
  | nil => simp [word]
  | cons b bs ih =>
      rw [word, BitVec.getLsbD_xor, BitVec.getLsbD_shiftLeft, BitVec.getLsbD_setWidth]
      cases i with
      | zero => cases b <;> simp [hi]
      | succ i =>
          rw [Nat.add_sub_cancel, ih (by omega)]
          cases b <;> simp [hi]

theorem word_inj {us vs : List Bool} (hlen : us.length = vs.length) (hw : us.length ≤ w) :
    word w us = word w vs ↔ us = vs := by
  constructor
  · intro h
    apply List.ext_getElem hlen
    intro i hu hv
    have hbit : (word w us).getLsbD i = (word w vs).getLsbD i := by rw [h]
    rw [getLsbD_word _ (Nat.lt_of_lt_of_le hu hw), getLsbD_word _ (Nat.lt_of_lt_of_le hu hw)] at hbit
    rwa [List.getD_eq_getElem _ _ hu, List.getD_eq_getElem _ _ hv] at hbit
  · rintro rfl
    rfl

theorem clock_xor (s t : BitVec w) : clock poly (s ^^^ t) = clock poly s ^^^ clock poly t := by
  rw [clock, clock, clock, BitVec.getLsbD_xor, BitVec.ushiftRight_xor_distrib]
  cases s.getLsbD 0 <;> cases t.getLsbD 0
  · rfl
  · simp [BitVec.xor_assoc]
  · simp only [Bool.xor_false, Bool.false_eq_true, ↓reduceIte]
    ac_rfl
  · ext i
    simp
    grind

theorem clock_shiftLeft {s : BitVec w} (h : s.getLsbD (w - 1) = false) : clock poly (s <<< 1) = s := by
  have hlow : (s <<< 1).getLsbD 0 = false := by simp
  rw [clock, if_neg (by simp [hlow])]
  ext i hi
  rw [BitVec.getElem_ushiftRight, BitVec.getLsbD_shiftLeft]
  by_cases hlast : 1 + i < w
  · simp [hlast]
    grind
  · have hi' : i = w - 1 := by omega
    subst hi'
    rw [← BitVec.getLsbD_eq_getElem, h]
    simp [hlast]

theorem clock_eq_zero_iff (hpoly : poly.getLsbD (w - 1) = true) {s : BitVec w} : clock poly s = 0#w ↔ s = 0#w := by
  constructor
  · intro h
    have hlow : s.getLsbD 0 = false := by
      by_contra hset
      have htop := congrArg (fun t => t.getLsbD (w - 1)) h
      rw [clock, if_pos (by simpa using hset)] at htop
      have hw : 0 < w := by
        rcases Nat.eq_zero_or_pos w with rfl | hw
        · simp at hset
        · exact hw
      simp [hpoly, show w ≤ 1 + (w - 1) by omega] at htop
    rw [clock, if_neg (by simp [hlow])] at h
    apply BitVec.eq_of_getLsbD_eq
    intro i hi
    cases i with
    | zero => rw [hlow]; simp
    | succ i =>
        have hbit := congrArg (fun t => t.getLsbD i) h
        simpa [Nat.add_comm] using hbit
  · rintro rfl
    simp [clock]

theorem clock_inj (hpoly : poly.getLsbD (w - 1) = true) {s t : BitVec w} :
    clock poly s = clock poly t ↔ s = t := by
  rw [← BitVec.xor_eq_zero_iff, ← clock_xor, clock_eq_zero_iff hpoly, BitVec.xor_eq_zero_iff]

theorem absorb_inj (hpoly : poly.getLsbD (w - 1) = true) {s t : BitVec w} {bit : Bool} :
    absorb poly s bit = absorb poly t bit ↔ s = t := by
  rw [absorb, absorb, clock_inj hpoly, BitVec.xor_left_inj]

theorem absorbAll_append (s : BitVec w) (us vs : List Bool) :
    absorbAll poly s (us ++ vs) = absorbAll poly (absorbAll poly s us) vs := List.foldl_append

theorem absorbAll_inj (hpoly : poly.getLsbD (w - 1) = true) {s t : BitVec w} (bits : List Bool) :
    absorbAll poly s bits = absorbAll poly t bits ↔ s = t := by
  induction bits generalizing s t with
  | nil => rfl
  | cons b bs ih =>
      change absorbAll poly (absorb poly s b) bs = absorbAll poly (absorb poly t b) bs ↔ s = t
      rw [ih, absorb_inj hpoly]

/-- As many bits as the register is wide may as well be put in at once, before it is clocked. -/
theorem absorbAll_eq_iterate (s : BitVec w) (bits : List Bool) (hw : bits.length ≤ w) :
    absorbAll poly s bits = (clock poly)^[bits.length] (s ^^^ word w bits) := by
  induction bits generalizing s with
  | nil => simp [absorbAll, word]
  | cons b bs ih =>
      rw [List.length_cons] at hw
      have hfree : (word w bs).getLsbD (w - 1) = false := by
        rw [getLsbD_word bs (by omega), List.getD_eq_getElem?_getD, List.getElem?_eq_none (by omega)]
        rfl
      have hword : s ^^^ word w (b :: bs) = (s ^^^ (BitVec.ofBool b).setWidth w) ^^^ word w bs <<< 1 := by
        rw [word]
        ac_rfl
      change absorbAll poly (absorb poly s b) bs = _
      rw [ih _ (by omega), List.length_cons, Function.iterate_succ_apply, hword, clock_xor,
        clock_shiftLeft hfree, absorb]

theorem iterate_clock_inj (hpoly : poly.getLsbD (w - 1) = true) {s t : BitVec w} (n : Nat) :
    (clock poly)^[n] s = (clock poly)^[n] t ↔ s = t := by
  have hinj : Function.Injective (clock poly) := fun s t => (clock_inj hpoly).mp
  exact (hinj.iterate n).eq_iff

/-- Two inputs that differ, but only within as many consecutive bits as the register is wide, leave
different registers. -/
theorem absorbAll_burst (hpoly : poly.getLsbD (w - 1) = true) (s : BitVec w) (before after : List Bool)
    {us vs : List Bool} (hlen : us.length = vs.length) (hw : us.length ≤ w) :
    absorbAll poly s (before ++ us ++ after) = absorbAll poly s (before ++ vs ++ after) ↔ us = vs := by
  have hw' : vs.length ≤ w := by rwa [← hlen]
  rw [absorbAll_append, absorbAll_append, absorbAll_append, absorbAll_append, absorbAll_inj hpoly,
    absorbAll_eq_iterate _ us hw, absorbAll_eq_iterate _ vs hw', ← hlen,
    iterate_clock_inj hpoly, BitVec.xor_right_inj, word_inj hlen hw]

theorem absorbAll_window (hpoly : poly.getLsbD (w - 1) = true) (s : BitVec w) {us vs : List Bool} {k : Nat}
    (hlen : us.length = vs.length) (houtside : ∀ i, i < k ∨ k + w ≤ i → us[i]? = vs[i]?) :
    absorbAll poly s us = absorbAll poly s vs ↔ us = vs := by
  have hbefore : us.take k = vs.take k := by
    apply List.ext_getElem?
    intro i
    by_cases hi : i < k
    · rw [List.getElem?_take_of_lt hi, List.getElem?_take_of_lt hi, houtside i (Or.inl hi)]
    · rw [List.getElem?_take_eq_none (by omega), List.getElem?_take_eq_none (by omega)]
  have hafter : us.drop (k + w) = vs.drop (k + w) := by
    apply List.ext_getElem?
    intro i
    rw [List.getElem?_drop, List.getElem?_drop, houtside _ (Or.inr (Nat.le_add_right _ _))]
  have hwindow : ((us.drop k).take w).length = ((vs.drop k).take w).length := by
    rw [List.length_take, List.length_take, List.length_drop, List.length_drop, hlen]
  have hfits : ((us.drop k).take w).length ≤ w := List.length_take_le ..
  have hsplit : ∀ bits : List Bool,
      bits = bits.take k ++ (bits.drop k).take w ++ bits.drop (k + w) := by
    intro bits
    rw [← List.drop_drop, List.append_assoc, List.take_append_drop, List.take_append_drop]
  have hus := hsplit us
  rw [hbefore, hafter] at hus
  generalize (us.drop k).take w = xs at hus hwindow hfits
  have hvs := hsplit vs
  generalize (vs.drop k).take w = ys at hvs hwindow
  generalize vs.take k = before at hus hvs
  generalize vs.drop (k + w) = after at hus hvs
  rw [hus, hvs, absorbAll_burst hpoly s before after hwindow hfits, List.append_left_inj, List.append_right_inj]

theorem testBit_fromLeBytes (bytes : Bytes) (i : Nat) :
    (fromLeBytes bytes).testBit i = bitAt .lsbFirst bytes i := by
  induction bytes generalizing i with
  | nil => simp [fromLeBytes, bitAt]
  | cons b bs ih =>
      rw [fromLeBytes, Nat.add_comm, show 256 = 2 ^ 8 by rfl, Nat.testBit_two_pow_mul_add _ b.toNat_lt]
      by_cases hi : i < 8
      · rw [if_pos hi, bitAt_of_getElem? (show (b :: bs)[i / 8]? = some b by rw [Nat.div_eq_of_lt hi]; rfl), Nat.mod_eq_of_lt hi]
        rfl
      · rw [if_neg hi, ih, bitAt, bitAt, show i / 8 = (i - 8) / 8 + 1 by omega,
          show i % 8 = (i - 8) % 8 by omega, List.getElem?_cons_succ]

theorem word_unpack (w : Nat) (bytes : Bytes) :
    word w (unpack .lsbFirst bytes) = BitVec.ofNat w (fromLeBytes bytes) := by
  apply BitVec.eq_of_getLsbD_eq
  intro i hi
  rw [getLsbD_word _ hi, BitVec.getLsbD_ofNat, testBit_fromLeBytes, decide_eq_true hi, Bool.true_and,
    List.getD_eq_getElem?_getD]
  by_cases hlt : i < 8 * bytes.length
  · rw [getElem?_unpack hlt, Option.getD_some]
  · rw [List.getElem?_eq_none (by rw [length_unpack]; omega), bitAt, List.getElem?_eq_none (by omega)]
    rfl

theorem unpack_inj {us vs : Bytes} (hlen : us.length = vs.length) :
    unpack .lsbFirst us = unpack .lsbFirst vs ↔ us = vs := by
  constructor
  · intro h
    have hnat : fromLeBytes us = fromLeBytes vs := by
      apply Nat.eq_of_testBit_eq
      intro i
      rw [testBit_fromLeBytes, testBit_fromLeBytes]
      by_cases hi : i < 8 * us.length
      · have hbit : (unpack .lsbFirst us)[i]? = (unpack .lsbFirst vs)[i]? := by rw [h]
        rw [getElem?_unpack hi, getElem?_unpack (hlen ▸ hi)] at hbit
        exact Option.some.inj hbit
      · rw [bitAt, bitAt, List.getElem?_eq_none (by omega), List.getElem?_eq_none (by omega)]
    rw [← toLeBytes_fromLeBytes us, ← toLeBytes_fromLeBytes vs, hnat, hlen]
  · rintro rfl
    rfl

theorem foldl_absorbByte (hw : 8 ≤ w) (s : BitVec w) (bytes : Bytes) :
    bytes.foldl (absorbByte poly) s = absorbAll poly s (unpack .lsbFirst bytes) := by
  induction bytes generalizing s with
  | nil => rfl
  | cons b bs ih =>
      have hbyte : absorbByte poly s b = absorbAll poly s (unpack .lsbFirst [b]) := by
        have hone : (unpack .lsbFirst [b]).length = 8 := length_unpack .lsbFirst [b]
        rw [absorbAll_eq_iterate _ _ (hone ▸ hw), hone, word_unpack, absorbByte]
        congr 2
        apply BitVec.eq_of_toNat_eq
        simp [fromLeBytes]
      rw [List.foldl_cons, ih, ← List.singleton_append, unpack_append, absorbAll_append, hbyte]

/-- A message is followed by its checksum exactly when the register ends where it always then ends. -/
theorem fromLeBytes_eq_checksum_iff (hpoly : poly.getLsbD (w - 1) = true) (hw : 8 ≤ w) {message footer : Bytes}
    (hfooter : 8 * footer.length = w) :
    fromLeBytes footer = (checksum poly message).toNat ↔
      remainder poly (message ++ footer) = (clock poly)^[w] (BitVec.allOnes w) := by
  have hlen : (unpack .lsbFirst footer).length = w := by rw [length_unpack, hfooter]
  have hsmall : fromLeBytes footer < 2 ^ w := by
    rw [← hfooter]
    exact fromLeBytes_lt footer
  rw [checksum, foldl_absorbByte hw, remainder, unpack_append, absorbAll_append,
    absorbAll_eq_iterate _ (unpack .lsbFirst footer) hlen.le, hlen, iterate_clock_inj hpoly, word_unpack]
  generalize absorbAll poly (BitVec.allOnes w) (unpack .lsbFirst message) = s
  have hnat : BitVec.ofNat w (fromLeBytes footer) = ~~~s ↔ fromLeBytes footer = (~~~s).toNat := by
    rw [← BitVec.toNat_inj, BitVec.toNat_ofNat, Nat.mod_eq_of_lt hsmall]
  have hcomplement : s ^^^ ~~~s = BitVec.allOnes w := by
    ext i
    simp
  rw [← hnat, ← hcomplement, BitVec.xor_right_inj]

/-- A message changed within `w` consecutive bits, its checksum's included, ends elsewhere. -/
theorem remainder_window (hpoly : poly.getLsbD (w - 1) = true) {us vs : Bytes} {k : Nat}
    (hlen : us.length = vs.length)
    (houtside : ∀ i, i < k ∨ k + w ≤ i → bitAt .lsbFirst us i = bitAt .lsbFirst vs i) :
    remainder poly us = remainder poly vs ↔ us = vs := by
  have hbits : (unpack .lsbFirst us).length = (unpack .lsbFirst vs).length := by
    rw [length_unpack, length_unpack, hlen]
  have hsame : ∀ i, i < k ∨ k + w ≤ i → (unpack .lsbFirst us)[i]? = (unpack .lsbFirst vs)[i]? := by
    intro i hi
    by_cases hlt : i < 8 * us.length
    · rw [getElem?_unpack hlt, getElem?_unpack (hlen ▸ hlt), houtside i hi]
    · rw [List.getElem?_eq_none (by rw [length_unpack]; omega),
        List.getElem?_eq_none (by rw [length_unpack]; omega)]
  rw [remainder, remainder, absorbAll_window hpoly _ hbits hsame, unpack_inj hlen]

end OpenSqlAny.Library.CyclicChecks
