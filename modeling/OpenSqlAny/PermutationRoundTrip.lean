import Mathlib.Data.UInt
import Mathlib.RingTheory.Int.Basic
import OpenSqlAny.PermutationWalk

namespace OpenSqlAny.PermutationRoundTrip

open Library.Faults Library.LittleEndian Library.StrideOrbits PagePermutation PermutationWalk
open scoped UInt8.CommRing

section Keys

variable {signedKey : Int32}

theorem toInt_neg_key (hmin : signedKey ≠ Int32.minValue) : (-signedKey).toInt = -signedKey.toInt := by
  have hlow := signedKey.le_toInt
  have hhigh := signedKey.toInt_lt
  have hne : signedKey.toInt ≠ -2 ^ 31 := by
    intro h
    exact hmin (Int32.toInt_inj.mp h)
  rw [Int32.toInt_neg]
  exact Int.bmod_eq_of_le (by omega) (by omega)

theorem neg_lt_zero_iff (hzero : signedKey ≠ 0) (hmin : signedKey ≠ Int32.minValue) :
    -signedKey < 0 ↔ ¬ signedKey < 0 := by
  have hne : signedKey.toInt ≠ 0 := by
    intro h
    exact hzero (Int32.toInt_inj.mp h)
  rw [Int32.lt_iff_toInt_lt, Int32.lt_iff_toInt_lt, toInt_neg_key hmin, Int32.toInt_zero]
  omega

theorem unsignedAbs_neg (hmin : signedKey ≠ Int32.minValue) :
    unsignedAbs (-signedKey) = unsignedAbs signedKey := by
  rw [unsignedAbs, toInt_neg_key hmin, Int.natAbs_neg, unsignedAbs]

theorem rawStride_odd : (rawStride signedKey).toNat % 2 = 1 := by
  rw [rawStride, UInt16.toNat_or, Nat.mod_two_eq_one_iff_testBit_zero, Nat.testBit_or]
  simp

theorem toInt_rawStride :
    (rawStride signedKey).toInt16.toInt = ((rawStride signedKey).toNat : Int).bmod (2 ^ 16) :=
  BitVec.toInt_eq_toNat_bmod _

theorem strideOf_odd : (strideOf signedKey).toInt % 2 = 1 := by
  have hodd := @rawStride_odd signedKey
  have hraw := @toInt_rawStride signedKey
  have hlt := (rawStride signedKey).toNat_lt
  rw [strideOf]
  split
  · rw [Int16.toInt_neg, hraw]
    simp only [Int.bmod_def]
    omega
  · rw [hraw]
    simp only [Int.bmod_def]
    omega

theorem strideOf_coprime (e : Nat) : IsCoprime ((2 ^ e : Nat) : Int) (strideOf signedKey).toInt := by
  have hodd : Odd (strideOf signedKey).toInt := Int.odd_iff.mpr strideOf_odd
  rw [Nat.cast_pow]
  exact (Int.isCoprime_two_left.mpr hodd).pow_left

theorem strideOf_neg (hzero : signedKey ≠ 0) (hmin : signedKey ≠ Int32.minValue) :
    (strideOf (-signedKey)).toInt = -(strideOf signedKey).toInt := by
  have hraw : rawStride (-signedKey) = rawStride signedKey := by
    rw [rawStride, low8, unsignedAbs_neg hmin, rawStride, low8]
  have hodd := @rawStride_odd signedKey
  have hlt := (rawStride signedKey).toNat_lt
  have hsigns := neg_lt_zero_iff hzero hmin
  rw [strideOf, hraw, strideOf]
  by_cases hneg : signedKey < 0
  · have hpos : ¬ -signedKey < 0 := by simpa [hsigns] using hneg
    rw [if_neg hpos, if_pos hneg, Int16.toInt_neg, toInt_rawStride]
    simp only [Int.bmod_def]
    omega
  · rw [if_pos (hsigns.mpr hneg), if_neg hneg, Int16.toInt_neg, toInt_rawStride]
    simp only [Int.bmod_def]
    omega

end Keys

/-- Each byte raised by a seed that grows by a step. -/
def ramp (step : UInt8) : UInt8 → List UInt8 → List UInt8
  | _, [] => []
  | seed, b :: bs => (b + seed) :: ramp step (seed + step) bs

section Ramps

variable {step : UInt8}

@[simp]
theorem length_ramp (seed : UInt8) (bs : List UInt8) : (ramp step seed bs).length = bs.length := by
  induction bs generalizing seed with
  | nil => rfl
  | cons b bs ih => rw [ramp, List.length_cons, ih, List.length_cons]

theorem ramp_append_singleton (seed b : UInt8) (bs : List UInt8) :
    ramp step seed (bs ++ [b]) =
      ramp step seed bs ++ [b + (seed + UInt8.ofNat bs.length * step)] := by
  induction bs generalizing seed with
  | nil =>
      have hzero : UInt8.ofNat 0 * step = 0 := UInt8.zero_mul
      rw [List.nil_append, ramp, ramp, ramp, List.length_nil, hzero, add_zero, List.nil_append]
  | cons x bs ih =>
      have hnext : seed + UInt8.ofNat (bs.length + 1) * step =
          seed + step + UInt8.ofNat bs.length * step := by
        rw [UInt8.ofNat_add, UInt8.ofNat_one]
        ring
      rw [List.cons_append, ramp, ih, ramp, List.length_cons, hnext, List.cons_append]

theorem ramp_reverse_ramp (seed seed' : UInt8) (bs : List UInt8) :
    ramp step seed' (ramp step seed bs).reverse =
      bs.reverse.map (· + (seed + seed' + UInt8.ofNat bs.length * step - step)) := by
  induction bs generalizing seed with
  | nil => rfl
  | cons b bs ih =>
      have hconst : seed + step + seed' + UInt8.ofNat bs.length * step - step =
          seed + seed' + UInt8.ofNat (b :: bs).length * step - step := by
        rw [List.length_cons, UInt8.ofNat_add, UInt8.ofNat_one]
        ring
      have hlast : b + seed + (seed' + UInt8.ofNat bs.length * step) =
          b + (seed + seed' + UInt8.ofNat (b :: bs).length * step - step) := by
        rw [← hconst]
        ring
      rw [ramp, List.reverse_cons, ramp_append_singleton, ih, List.length_reverse, length_ramp,
        hlast, hconst, List.reverse_cons, List.map_append, List.map_singleton]

end Ramps

def byteAt (bytes : Bytes) (i : Nat) : UInt8 := bytes.getD i 0

/-- Only the path is written, and it then holds the values in its order. -/
structure Rewritten (bytes out : Bytes) (path : List Nat) (values : List UInt8) : Prop where
  length_eq : out.length = bytes.length
  path_values : path.map (byteAt out) = values
  frame : ∀ x, x ∉ path → byteAt out x = byteAt bytes x

section Loops

variable {stride : Int16} {step first : UInt8} {len start endIndex : Nat}

theorem byteAt_set_self {bytes : Bytes} {i : Nat} {b : UInt8} (h : i < bytes.length) :
    byteAt (bytes.set i b) i = b := by
  simp [byteAt, List.getD, h]

theorem byteAt_set_of_ne {bytes : Bytes} {i x : Nat} {b : UInt8} (h : x ≠ i) :
    byteAt (bytes.set i b) x = byteAt bytes x := by
  simp [byteAt, List.getD, List.getElem?_set_ne h.symm]

theorem index_byteAt {bytes : Bytes} {i : Nat} (h : i < bytes.length) :
    index (ε := PagePermutationError) bytes i = .ok (byteAt bytes i) := by
  rw [index_of_lt h, byteAt, List.getD_eq_getElem _ _ h]

theorem rewritten_set {bytes : Bytes} {current : Nat} (hcurrent : current < bytes.length) (b : UInt8) :
    Rewritten bytes (bytes.set current b) [current] [b] := by
  refine ⟨List.length_set, ?_, ?_⟩
  · rw [List.map_singleton, byteAt_set_self hcurrent]
  · intro x hx
    exact byteAt_set_of_ne (by simpa using hx)

theorem Rewritten.cons {bytes out : Bytes} {current : Nat} {b : UInt8} {path : List Nat} {values : List UInt8}
    (h : Rewritten (bytes.set current b) out path values) (hcurrent : current < bytes.length)
    (hfresh : current ∉ path) : Rewritten bytes out (current :: path) (b :: values) := by
  refine ⟨?_, ?_, ?_⟩
  · rw [h.length_eq, List.length_set]
  · rw [List.map_cons, h.path_values, h.frame current hfresh, byteAt_set_self hcurrent]
  · intro x hx
    rw [List.mem_cons, not_or] at hx
    rw [h.frame x hx.2, byteAt_set_of_ne hx.1]

theorem permuteLoop_rewrites {current : Nat} {rest : List Nat} {fuel : Nat} {bytes : Bytes} {seed : UInt8}
    (hchain : (current :: rest ++ [start]).IsChain
      (fun x y => nextInActiveRange x stride len start endIndex = .ok y))
    (hnodup : (current :: rest).Nodup) (hstart : start ∉ rest)
    (hbound : ∀ x ∈ current :: rest, x < bytes.length) (hfuel : rest.length < fuel) :
    ∃ out, permuteLoop stride step len start endIndex first fuel bytes current seed = some (.ok (), out) ∧
      Rewritten bytes out (current :: rest)
        (ramp step seed (rest.map (byteAt bytes) ++ [first])) := by
  induction rest generalizing current bytes seed fuel with
  | nil =>
      obtain ⟨fuel, rfl⟩ : ∃ n, fuel = n + 1 := ⟨fuel - 1, by omega⟩
      rw [List.cons_append, List.nil_append, List.isChain_cons_cons] at hchain
      have hcurrent := hbound current List.mem_cons_self
      refine ⟨bytes.set current (first + seed), ?_, rewritten_set hcurrent _⟩
      rw [permuteLoop, hchain.1]
      simp only [if_pos, assign_of_lt hcurrent]
  | cons next rest ih =>
      obtain ⟨fuel, rfl⟩ : ∃ n, fuel = n + 1 := ⟨fuel - 1, by simp at hfuel; omega⟩
      rw [List.cons_append, List.cons_append, List.isChain_cons_cons] at hchain
      obtain ⟨hfresh, hnodup⟩ := List.nodup_cons.mp hnodup
      obtain ⟨hcurrent, hbound⟩ := List.forall_mem_cons.mp hbound
      have hnext := hbound next List.mem_cons_self
      have hne : next ≠ start := by
        rintro rfl
        exact hstart List.mem_cons_self
      obtain ⟨out, hrun, hout⟩ := @ih next fuel (bytes.set current (byteAt bytes next + seed)) (seed + step)
        hchain.2 hnodup (fun h => hstart (List.mem_cons_of_mem _ h))
        (by simpa using hbound) (by simpa using hfuel)
      have hkept : rest.map (byteAt (bytes.set current (byteAt bytes next + seed))) =
          rest.map (byteAt bytes) := by
        apply List.map_congr_left
        intro x hx
        apply byteAt_set_of_ne
        rintro rfl
        exact hfresh (List.mem_cons_of_mem _ hx)
      have hwrite : (index bytes next >>= fun byte => assign bytes current (byte + seed)) =
          (.ok (bytes.set current (byteAt bytes next + seed)) : Outcome PagePermutationError Bytes) := by
        rw [index_byteAt hnext]
        exact assign_of_lt hcurrent _
      rw [hkept] at hout
      refine ⟨out, ?_, hout.cons hcurrent hfresh⟩
      rw [permuteLoop, hchain.1]
      simp only [if_neg hne, hwrite]
      exact hrun

end Loops

structure IsCycle (len start endIndex : Nat) (stride : Int16) (later : List Nat) : Prop where
  path_eq : activePath len start endIndex stride.toInt = start :: later
  nodup : (start :: later).Nodup
  mem_iff : ∀ x, x ∈ start :: later ↔ start ≤ x ∧ x ≤ endIndex
  length_eq : (start :: later).length = endIndex + 1 - start
  chain : (start :: later ++ [start]).IsChain
    (fun x y => nextInActiveRange x stride len start endIndex = .ok y)

theorem laterPath_isCycle {len start endIndex : Nat} (hpow : len.isPowerOfTwo) (hsize : len < usizeCount)
    (hstart : start ≤ endIndex) (hend : endIndex < len) (signedKey : Int32) :
    IsCycle len start endIndex (strideOf signedKey)
      (laterPath len start endIndex (strideOf signedKey).toInt) := by
  obtain ⟨e, rfl⟩ := hpow
  have he64 : e ≤ 64 := ((Nat.pow_lt_pow_iff_right (by omega)).mp hsize).le
  have hcons := @activePath_eq_cons _ _ _ (strideOf signedKey).toInt hstart hend
  have hcoprime := @strideOf_coprime signedKey e
  have hnodup := @activePath_nodup _ start endIndex _ hcoprime
  have hmem := @mem_activePath_iff (2 ^ e) start endIndex _ hend hcoprime
  have hlength := @activePath_length _ start _ _ hend hcoprime
  have hchain := activePath_isChain he64 (strideOf signedKey) hstart hend
  rw [hcons] at hnodup hlength hchain
  simp only [hcons] at hmem
  exact ⟨hcons, hnodup, fun x => hmem, hlength, hchain⟩

theorem permute_eq_loop {start tail : Nat} {bytes : Bytes} {signedKey : Int32} (hpow : bytes.length.isPowerOfTwo)
    (hsize : bytes.length < usizeCount) (hrange : start + tail < bytes.length) (hzero : signedKey ≠ 0) (fuel : Nat) :
    permutePowerOfTwoInPlace fuel bytes start tail signedKey =
      permuteLoop (strideOf signedKey) (increment signedKey) bytes.length start (bytes.length - 1 - tail)
        (byteAt bytes start) fuel bytes start (firstSeed bytes.length start tail signedKey) := by
  have hvalid : validateBounds bytes.length start tail = .ok () :=
    validateBounds_eq_ok_iff.mpr ⟨hpow, by omega, hrange⟩
  have hstart : start < bytes.length := by omega
  simp only [permutePowerOfTwoInPlace, hvalid, if_neg hzero, index_byteAt hstart]

theorem permute_rewrites {e start tail fuel : Nat} {bytes : Bytes} {signedKey : Int32}
    (he : bytes.length = 2 ^ e) (hsize : bytes.length < usizeCount) (hrange : start + tail < bytes.length)
    (hzero : signedKey ≠ 0) (hfuel : bytes.length - (start + tail) ≤ fuel) :
    ∃ out, permutePowerOfTwoInPlace fuel bytes start tail signedKey = some (.ok (), out) ∧
      Rewritten bytes out
        (activePath bytes.length start (bytes.length - 1 - tail) (strideOf signedKey).toInt)
        (ramp (increment signedKey) (firstSeed bytes.length start tail signedKey)
          ((laterPath bytes.length start (bytes.length - 1 - tail) (strideOf signedKey).toInt).map
            (byteAt bytes) ++ [byteAt bytes start])) := by
  have hstart : start ≤ bytes.length - 1 - tail := by omega
  have hend : bytes.length - 1 - tail < bytes.length := by omega
  have hcycle := laterPath_isCycle ⟨e, he⟩ hsize hstart hend signedKey
  have hlength := hcycle.length_eq
  rw [List.length_cons] at hlength
  obtain ⟨out, hrun, hout⟩ := @permuteLoop_rewrites _ (increment signedKey) (byteAt bytes start) _ _ _ _ _
    fuel bytes (firstSeed bytes.length start tail signedKey) hcycle.chain hcycle.nodup
    (List.nodup_cons.mp hcycle.nodup).1 (fun x hx => by have := (hcycle.mem_iff x).mp hx; omega) (by omega)
  rw [hcycle.path_eq]
  refine ⟨out, ?_, hout⟩
  rw [permute_eq_loop ⟨e, he⟩ hsize hrange hzero]
  exact hrun

/-- The constant that a key and its negative together add to each active byte. -/
def roundTripShift (len : Nat) (signedKey : Int32) : UInt8 :=
  if len < 256 then UInt8.ofNat (2 * len) * increment signedKey else 0

def raiseActive (start tail : Nat) (shift : UInt8) (bytes : Bytes) : Bytes :=
  bytes.mapIdx (fun i b => if start ≤ i ∧ i ≤ bytes.length - 1 - tail then b + shift else b)

theorem increment_neg {signedKey : Int32} (hmin : signedKey ≠ Int32.minValue) :
    increment (-signedKey) = increment signedKey := by
  rw [increment, unsignedAbs_neg hmin, increment]

theorem negativeSeed_eq (len start tail : Nat) (increment low8 : UInt8) :
    negativeSeed len start tail increment low8 =
      increment * UInt8.ofNat (start + tail + 1 + if len < 256 then len else 0) - low8 := by
  have hbase : (if start + tail = 0 then 0 else UInt8.ofNat (start + tail)) = UInt8.ofNat (start + tail) := by
    split
    · rename_i h
      rw [h]
      rfl
    · rfl
  by_cases hlen : len < 256
  · simp only [negativeSeed, if_pos hlen, hbase]
    rw [UInt8.ofNat_add (start + tail + 1), UInt8.ofNat_add (start + tail), UInt8.ofNat_one]
  · simp only [negativeSeed, if_neg hlen, Nat.add_zero]

theorem firstSeed_add {signedKey : Int32} (hzero : signedKey ≠ 0) (hmin : signedKey ≠ Int32.minValue)
    (len start tail : Nat) :
    firstSeed len start tail signedKey + firstSeed len start tail (-signedKey) =
      increment signedKey * UInt8.ofNat (start + tail + 1 + if len < 256 then len else 0) := by
  have hlow : low8 (-signedKey) = low8 signedKey := by rw [low8, unsignedAbs_neg hmin, low8]
  have hsigns := neg_lt_zero_iff hzero hmin
  rw [firstSeed, firstSeed, increment_neg hmin, hlow, negativeSeed_eq]
  by_cases hneg : signedKey < 0
  · have hpos : ¬ -signedKey < 0 := by simpa [hsigns] using hneg
    rw [if_pos hneg, if_neg hpos]
    ring
  · rw [if_neg hneg, if_pos (hsigns.mpr hneg)]
    ring

/-- The two seeds and one climb over the active bytes add up to the shift. -/
theorem seeds_shift {len start tail e : Nat} {signedKey : Int32} (he : len = 2 ^ e)
    (hrange : start + tail < len) :
    increment signedKey * UInt8.ofNat (start + tail + 1 + if len < 256 then len else 0) +
      UInt8.ofNat (len - (start + tail)) * increment signedKey - increment signedKey =
      roundTripShift len signedKey := by
  have hsum : UInt8.ofNat (start + tail + 1 + if len < 256 then len else 0) +
      UInt8.ofNat (len - (start + tail)) = UInt8.ofNat (len + if len < 256 then len else 0) + 1 := by
    rw [← UInt8.ofNat_add, ← UInt8.ofNat_one, ← UInt8.ofNat_add]
    congr 1
    omega
  have hcollect : increment signedKey * UInt8.ofNat (start + tail + 1 + if len < 256 then len else 0) +
      UInt8.ofNat (len - (start + tail)) * increment signedKey - increment signedKey =
      UInt8.ofNat (len + if len < 256 then len else 0) * increment signedKey := by
    rw [mul_comm, ← add_mul, hsum]
    ring
  rw [hcollect, roundTripShift]
  by_cases hlen : len < 256
  · rw [if_pos hlen, if_pos hlen, Nat.two_mul]
  · rw [if_neg hlen, if_neg hlen, Nat.add_zero]
    have hdvd : 256 ∣ len := by
      rw [he, show 256 = 2 ^ 8 by rfl]
      apply pow_dvd_pow
      by_contra hsmall
      have hlt : 2 ^ e < 2 ^ 8 := Nat.pow_lt_pow_right (by omega) (by omega)
      omega
    have hwraps : UInt8.ofNat len = 0 := by
      apply UInt8.toNat_inj.mp
      rw [UInt8.toNat_ofNat']
      exact Nat.mod_eq_zero_of_dvd hdvd
    rw [hwraps, zero_mul]

theorem rewrites_compose {bytes middle out : Bytes} {start : Nat} {later : List Nat}
    {step seed seed' : UInt8}
    (hfirst : Rewritten bytes middle (start :: later)
      (ramp step seed (later.map (byteAt bytes) ++ [byteAt bytes start])))
    (hsecond : Rewritten middle out (start :: later.reverse)
      (ramp step seed' (later.reverse.map (byteAt middle) ++ [byteAt middle start]))) :
    ∀ x ∈ start :: later, byteAt out x =
      byteAt bytes x + (seed + seed' + UInt8.ofNat (later.length + 1) * step - step) := by
  have hturn : later.reverse.map (byteAt middle) ++ [byteAt middle start] =
      ((start :: later).map (byteAt middle)).reverse := by
    rw [List.map_cons, List.reverse_cons, List.map_reverse]
  have hvalues := hsecond.path_values
  rw [hturn, hfirst.path_values, ramp_reverse_ramp, List.reverse_append, List.length_append,
    List.length_map, List.length_singleton] at hvalues
  have hpath : (start :: later.reverse).map (byteAt out) = (start :: later.reverse).map
      (fun x => byteAt bytes x + (seed + seed' + UInt8.ofNat (later.length + 1) * step - step)) := by
    rw [hvalues]
    simp [List.map_reverse]
  intro x hx
  apply List.map_inj_left.mp hpath
  simpa using hx

theorem neg_ne_minValue {signedKey : Int32} (hmin : signedKey ≠ Int32.minValue) :
    -signedKey ≠ Int32.minValue := by
  intro h
  have hvalue := congrArg Int32.toInt h
  rw [toInt_neg_key hmin, Int32.toInt_minValue] at hvalue
  have := signedKey.toInt_lt
  omega

theorem eq_raiseActive {bytes out : Bytes} {start tail : Nat} {shift : UInt8}
    (hlength : out.length = bytes.length)
    (hactive : ∀ x, start ≤ x → x ≤ bytes.length - 1 - tail → byteAt out x = byteAt bytes x + shift)
    (hframe : ∀ x, ¬ (start ≤ x ∧ x ≤ bytes.length - 1 - tail) → byteAt out x = byteAt bytes x) :
    out = raiseActive start tail shift bytes := by
  apply List.ext_getElem
  · rw [hlength, raiseActive, List.length_mapIdx]
  · intro x hx hx'
    have hin : x < bytes.length := by omega
    have hout : byteAt out x = out[x] := List.getD_eq_getElem _ _ hx
    have hbytes : byteAt bytes x = bytes[x] := List.getD_eq_getElem _ _ hin
    simp only [raiseActive, List.getElem_mapIdx]
    by_cases hactive' : start ≤ x ∧ x ≤ bytes.length - 1 - tail
    · rw [if_pos hactive', ← hout, ← hbytes, hactive x hactive'.1 hactive'.2]
    · rw [if_neg hactive', ← hout, ← hbytes, hframe x hactive']

theorem permute_then_negated {start tail fuel : Nat} {bytes : Bytes} {signedKey : Int32}
    (hpow : bytes.length.isPowerOfTwo) (hsize : bytes.length < usizeCount)
    (hrange : start + tail < bytes.length) (hzero : signedKey ≠ 0) (hmin : signedKey ≠ Int32.minValue)
    (hfuel : bytes.length ≤ fuel) :
    ∃ middle, permutePowerOfTwoInPlace fuel bytes start tail signedKey = some (.ok (), middle) ∧
      middle.length = bytes.length ∧
      permutePowerOfTwoInPlace fuel middle start tail (-signedKey) =
        some (.ok (), raiseActive start tail (roundTripShift bytes.length signedKey) bytes) := by
  obtain ⟨e, he⟩ := hpow
  obtain ⟨middle, hrun, hfirst⟩ := permute_rewrites he hsize hrange hzero ((Nat.sub_le _ _).trans hfuel)
  have hlen := hfirst.length_eq
  obtain ⟨out, hback, hsecond⟩ := permute_rewrites (hlen.trans he) (hlen ▸ hsize) (hlen ▸ hrange)
    (Int32.neg_ne_zero.mpr hzero) ((Nat.sub_le _ _).trans (hlen ▸ hfuel))
  have hstart : start ≤ bytes.length - 1 - tail := by omega
  have hend : bytes.length - 1 - tail < bytes.length := by omega
  have hcoprime : IsCoprime (bytes.length : Int) (strideOf signedKey).toInt := by
    rw [he]
    exact strideOf_coprime e
  have hmem := @mem_activePath_iff bytes.length start (bytes.length - 1 - tail) _ hend hcoprime
  have hcount := @activePath_length _ start _ _ hend hcoprime
  rw [hlen, strideOf_neg hzero hmin, increment_neg hmin, activePath_eq_cons hstart hend,
    laterPath_neg (by omega)] at hsecond
  rw [activePath_eq_cons hstart hend] at hfirst hmem hcount
  have hshift := rewrites_compose hfirst hsecond
  rw [List.length_cons] at hcount
  rw [hcount, firstSeed_add hzero hmin,
    show bytes.length - 1 - tail + 1 - start = bytes.length - (start + tail) by omega,
    seeds_shift he hrange] at hshift
  refine ⟨middle, hrun, hlen, ?_⟩
  rw [hback, eq_raiseActive (hsecond.length_eq.trans hlen)]
  · intro x hlow hhigh
    exact hshift x (hmem.mpr ⟨hlow, hhigh⟩)
  · intro x hx
    have hout : x ∉ start :: laterPath bytes.length start (bytes.length - 1 - tail)
        (strideOf signedKey).toInt := by rwa [hmem]
    rw [hsecond.frame x (by simpa using hout), hfirst.frame x hout]

theorem negated_then_permute {start tail fuel : Nat} {bytes : Bytes} {signedKey : Int32}
    (hpow : bytes.length.isPowerOfTwo) (hsize : bytes.length < usizeCount)
    (hrange : start + tail < bytes.length) (hzero : signedKey ≠ 0) (hmin : signedKey ≠ Int32.minValue)
    (hfuel : bytes.length ≤ fuel) :
    ∃ middle, permutePowerOfTwoInPlace fuel bytes start tail (-signedKey) = some (.ok (), middle) ∧
      middle.length = bytes.length ∧
      permutePowerOfTwoInPlace fuel middle start tail signedKey =
        some (.ok (), raiseActive start tail (roundTripShift bytes.length signedKey) bytes) := by
  have h := permute_then_negated hpow hsize hrange (Int32.neg_ne_zero.mpr hzero) (neg_ne_minValue hmin) hfuel
  rwa [Int32.neg_neg, roundTripShift, increment_neg hmin] at h

theorem raiseActive_zero (start tail : Nat) (bytes : Bytes) : raiseActive start tail 0 bytes = bytes := by
  simp only [raiseActive, add_zero, ite_self]
  exact List.mapIdx_eq_iff.mpr (by simp)

theorem roundTripShift_eq_zero {len : Nat} (hpow : len.isPowerOfTwo) (hlen : 128 ≤ len)
    (signedKey : Int32) : roundTripShift len signedKey = 0 := by
  rw [roundTripShift]
  by_cases hsmall : len < 256
  · obtain ⟨e, he⟩ := hpow
    have hlow : 7 ≤ e := (Nat.pow_le_pow_iff_right (by omega)).mp (he ▸ hlen : 2 ^ 7 ≤ 2 ^ e)
    have hhigh : e < 8 := (Nat.pow_lt_pow_iff_right (by omega)).mp (he ▸ hsmall : 2 ^ e < 2 ^ 8)
    have hseven : e = 7 := by omega
    rw [if_pos hsmall, he, hseven]
    exact UInt8.zero_mul
  · rw [if_neg hsmall]

theorem permuteSector_round_trip {sector : Bytes} (hlen : sector.length = pagePermutationSectorLen)
    (start tail : Nat) {signedKey : Int32} (hmin : signedKey ≠ Int32.minValue) {fuel : Nat}
    (hfuel : pagePermutationSectorLen ≤ fuel) :
    ∃ result middle result',
      permuteSectorInPlace fuel sector start tail signedKey = some (result, middle) ∧
      permuteSectorInPlace fuel middle start tail (-signedKey) = some (result', sector) ∧
      (start + tail < pagePermutationSectorLen → result = .ok () ∧ result' = .ok ()) := by
  have hpow : sector.length.isPowerOfTwo := ⟨9, hlen⟩
  by_cases hrange : start + tail < sector.length
  · have hsize : sector.length < usizeCount := by rw [hlen]; decide
    by_cases hzero : signedKey = 0
    · have hvalid : validateBounds sector.length start tail = .ok () :=
        validateBounds_eq_ok_iff.mpr ⟨hpow, by omega, hrange⟩
      have hsame : permutePowerOfTwoInPlace fuel sector start tail 0 = some (.ok (), sector) := by
        simp only [permutePowerOfTwoInPlace, hvalid, if_pos]
      refine ⟨.ok (), sector, .ok (), ?_, ?_, fun _ => ⟨rfl, rfl⟩⟩
      · rw [permuteSectorInPlace_eq hlen, hzero, hsame]
      · rw [permuteSectorInPlace_eq hlen, hzero, Int32.neg_zero, hsame]
    · obtain ⟨middle, hrun, hmiddle, hback⟩ :=
        permute_then_negated hpow hsize hrange hzero hmin (hlen ▸ hfuel)
      rw [roundTripShift_eq_zero hpow (by rw [hlen]; decide), raiseActive_zero] at hback
      refine ⟨.ok (), middle, .ok (), ?_, ?_, fun _ => ⟨rfl, rfl⟩⟩
      · rw [permuteSectorInPlace_eq hlen, hrun]
      · rw [permuteSectorInPlace_eq (hmiddle.trans hlen), hback]
  · have hrefused : ∃ fault, validateBounds sector.length start tail = .error fault := by
      cases h : validateBounds sector.length start tail with
      | error fault => exact ⟨fault, rfl⟩
      | ok => exact absurd (validateBounds_eq_ok_iff.mp h).2.2 hrange
    obtain ⟨fault, hfault⟩ := hrefused
    have hsame : ∀ key, permuteSectorInPlace fuel sector start tail key = some (.error fault, sector) := by
      intro key
      rw [permuteSectorInPlace_eq hlen]
      simp only [permutePowerOfTwoInPlace, hfault]
    refine ⟨.error fault, sector, .error fault, hsame _, hsame _, ?_⟩
    intro hin
    rw [hlen] at hrange
    exact absurd hin hrange

/-- The primitive and its negative key compose, in both orders, to a constant on the active
bytes, and the constant vanishes from 128 bytes on. -/
theorem permute_negated_key_law {start tail fuel : Nat} {bytes : Bytes} {signedKey : Int32}
    (hpow : bytes.length.isPowerOfTwo) (hsize : bytes.length < usizeCount)
    (hrange : start + tail < bytes.length) (hzero : signedKey ≠ 0) (hmin : signedKey ≠ Int32.minValue)
    (hfuel : bytes.length ≤ fuel) :
    (∃ middle, permutePowerOfTwoInPlace fuel bytes start tail signedKey = some (.ok (), middle) ∧
      middle.length = bytes.length ∧
      permutePowerOfTwoInPlace fuel middle start tail (-signedKey) =
        some (.ok (), raiseActive start tail (roundTripShift bytes.length signedKey) bytes)) ∧
    (∃ middle, permutePowerOfTwoInPlace fuel bytes start tail (-signedKey) = some (.ok (), middle) ∧
      middle.length = bytes.length ∧
      permutePowerOfTwoInPlace fuel middle start tail signedKey =
        some (.ok (), raiseActive start tail (roundTripShift bytes.length signedKey) bytes)) ∧
    (128 ≤ bytes.length →
      raiseActive start tail (roundTripShift bytes.length signedKey) bytes = bytes) ∧
    ∀ (sector : Bytes) (sectorStart sectorTail : Nat) (sectorKey : Int32),
      sector.length = pagePermutationSectorLen → sectorKey ≠ Int32.minValue →
      pagePermutationSectorLen ≤ fuel →
      ∃ result middle result',
        permuteSectorInPlace fuel sector sectorStart sectorTail sectorKey = some (result, middle) ∧
        permuteSectorInPlace fuel middle sectorStart sectorTail (-sectorKey) = some (result', sector) ∧
        (sectorStart + sectorTail < pagePermutationSectorLen → result = .ok () ∧ result' = .ok ()) := by
  refine ⟨permute_then_negated hpow hsize hrange hzero hmin hfuel,
    negated_then_permute hpow hsize hrange hzero hmin hfuel, ?_, ?_⟩
  · intro hlen
    rw [roundTripShift_eq_zero hpow hlen, raiseActive_zero]
  · intro sector sectorStart sectorTail sectorKey hlen hkey hsector
    exact permuteSector_round_trip hlen sectorStart sectorTail hkey hsector

theorem permute_negated_key_law_eight :
    ∃ middle, permutePowerOfTwoInPlace 8 [0, 1, 2, 3, 4, 5, 6, 7] 2 3 0x00010203 = some (.ok (), middle) ∧
      middle.length = 8 ∧ permutePowerOfTwoInPlace 8 middle 2 3 (-0x00010203) =
        some (.ok (), [0, 1, 50, 51, 52, 5, 6, 7]) :=
  (@permute_negated_key_law 2 3 8 [0, 1, 2, 3, 4, 5, 6, 7] 0x00010203 ⟨3, rfl⟩ (by decide) (by decide) (by decide) (by decide) (by decide)).1

end OpenSqlAny.PermutationRoundTrip
