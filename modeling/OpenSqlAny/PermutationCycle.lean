import OpenSqlAny.Library.Rounds
import OpenSqlAny.PermutationRoundTrip

namespace OpenSqlAny.PermutationCycle

open Library.Faults Library.LittleEndian Library.Rounds Library.StrideOrbits
open PagePermutation PermutationWalk PermutationRoundTrip
open scoped UInt8.CommRing

structure LoopState where
  bytes : Bytes
  current : Nat
  seed : UInt8

def permuteRound (stride : Int16) (increment : UInt8) (len start endIndex : Nat) (first : UInt8) (s : LoopState) :
    Round LoopState (Outcome PagePermutationError Unit × Bytes) :=
  match nextInActiveRange s.current stride len start endIndex with
  | .error fault => .returns (.error fault, s.bytes)
  | .ok next =>
      if next = start then
        match assign s.bytes s.current (first + s.seed) with
        | .error fault => .returns (.error fault, s.bytes)
        | .ok bytes => .returns (.ok (), bytes)
      else
        match index s.bytes next >>= fun byte => assign s.bytes s.current (byte + s.seed) with
        | .error fault => .returns (.error fault, s.bytes)
        | .ok bytes => .goesOn ⟨bytes, next, s.seed + increment⟩

section Loops

variable {stride : Int16} {step first : UInt8} {len start endIndex : Nat}

theorem permuteLoop_eq (fuel : Nat) (bytes : Bytes) (current : Nat) (seed : UInt8) :
    permuteLoop stride step len start endIndex first fuel bytes current seed =
      match runFor (permuteRound stride step len start endIndex first) fuel ⟨bytes, current, seed⟩ with
      | .returns result => some result
      | .goesOn _ => none := by
  induction fuel generalizing bytes current seed with
  | zero => rfl
  | succ fuel ih =>
      rw [permuteLoop, runFor, permuteRound]
      cases nextInActiveRange current stride len start endIndex with
      | error fault => rfl
      | ok next =>
          by_cases hnext : next = start
          · simp only [hnext, ↓reduceIte]
            cases assign (ε := PagePermutationError) bytes current (first + seed) <;> rfl
          · simp only [hnext, ↓reduceIte]
            cases index (ε := PagePermutationError) bytes next >>= fun byte => assign bytes current (byte + seed) with
            | error fault => rfl
            | ok bytes => exact ih bytes next (seed + step)

theorem permuteRound_path {current : Nat} {rest : List Nat} {bytes : Bytes} {seed : UInt8}
    (hchain : (current :: rest ++ [start]).IsChain
      (fun x y => nextInActiveRange x stride len start endIndex = .ok y))
    (hstart : start ∉ rest) (hbound : ∀ x ∈ current :: rest, x < bytes.length) (k : Nat)
    (hk : k < (current :: rest).length) :
    ∃ s, Reaches (permuteRound stride step len start endIndex first) ⟨bytes, current, seed⟩ k s ∧
      s.current = (current :: rest)[k] := by
  induction rest generalizing current bytes seed k with
  | nil =>
      obtain rfl : k = 0 := by simpa using hk
      exact ⟨_, .start, rfl⟩
  | cons next rest ih =>
      cases k with
      | zero => exact ⟨_, .start, rfl⟩
      | succ k =>
          rw [List.cons_append, List.cons_append, List.isChain_cons_cons] at hchain
          obtain ⟨hcurrent, hbound⟩ := List.forall_mem_cons.mp hbound
          have hne : next ≠ start := by
            rintro rfl
            exact hstart List.mem_cons_self
          have hwrite : (index bytes next >>= fun byte => assign bytes current (byte + seed)) =
              (.ok (bytes.set current (byteAt bytes next + seed)) : Outcome PagePermutationError Bytes) := by
            rw [index_byteAt (hbound next List.mem_cons_self)]
            exact assign_of_lt hcurrent _
          have hround : permuteRound stride step len start endIndex first ⟨bytes, current, seed⟩ =
              .goesOn ⟨bytes.set current (byteAt bytes next + seed), next, seed + step⟩ := by
            simp only [permuteRound, hchain.1, if_neg hne, hwrite]
          obtain ⟨s, hreached, hs⟩ := @ih next (bytes.set current (byteAt bytes next + seed)) (seed + step) hchain.2
            (fun h => hstart (List.mem_cons_of_mem _ h)) (by simpa using hbound) k (Nat.lt_of_succ_lt_succ hk)
          exact ⟨s, hreached.of_goesOn hround, hs⟩

end Loops

theorem ramp_getElem? (step seed : UInt8) (bs : List UInt8) (k : Nat) :
    (ramp step seed bs)[k]? = bs[k]?.map (· + (seed + UInt8.ofNat k * step)) := by
  induction bs generalizing seed k with
  | nil => rfl
  | cons b bs ih =>
      cases k with
      | zero =>
          simp [ramp]
      | succ k =>
          have hseed : seed + step + UInt8.ofNat k * step = seed + UInt8.ofNat (k + 1) * step := by
            rw [UInt8.ofNat_add, UInt8.ofNat_one]
            ring
          rw [ramp, List.getElem?_cons_succ, List.getElem?_cons_succ, ih, hseed]

section Calls

variable {bytes : Bytes} {start tail : Nat} {signedKey : Int32}

/-- The loop of a call stands at a state after so many iterations. -/
def Stands (bytes : Bytes) (start tail : Nat) (signedKey : Int32) (k : Nat) (s : LoopState) : Prop :=
  Reaches (permuteRound (strideOf signedKey) (increment signedKey) bytes.length start (bytes.length - 1 - tail)
    (byteAt bytes start)) ⟨bytes, start, firstSeed bytes.length start tail signedKey⟩ k s

def seedAt (len start tail : Nat) (signedKey : Int32) (k : Nat) : UInt8 :=
  firstSeed len start tail signedKey + UInt8.ofNat k * increment signedKey

/-- The active bytes, in the order in which the iterations stand at them. -/
def cyclePath (bytes : Bytes) (start tail : Nat) (signedKey : Int32) : List Nat :=
  activePath bytes.length start (bytes.length - 1 - tail) (strideOf signedKey).toInt

theorem cyclePath_isCycle (hpow : bytes.length.isPowerOfTwo) (hsize : bytes.length < usizeCount)
    (hrange : start + tail < bytes.length) (signedKey : Int32) :
    ∃ later, cyclePath bytes start tail signedKey = start :: later ∧
      IsCycle bytes.length start (bytes.length - 1 - tail) (strideOf signedKey) later := by
  have hcycle := @laterPath_isCycle bytes.length start (bytes.length - 1 - tail) hpow hsize (by omega) (by omega)
    signedKey
  exact ⟨_, hcycle.path_eq, hcycle⟩

theorem stands_cyclePath (hpow : bytes.length.isPowerOfTwo) (hsize : bytes.length < usizeCount)
    (hrange : start + tail < bytes.length) {k : Nat} (hk : k < (cyclePath bytes start tail signedKey).length) :
    ∃ s, Stands bytes start tail signedKey k s ∧ s.current = (cyclePath bytes start tail signedKey)[k] := by
  obtain ⟨later, hpath, hcycle⟩ := cyclePath_isCycle hpow hsize hrange signedKey
  simp only [hpath] at hk ⊢
  apply permuteRound_path hcycle.chain (List.nodup_cons.mp hcycle.nodup).1
  intro x hx
  have hactive := (hcycle.mem_iff x).mp hx
  omega

theorem length_cyclePath (hpow : bytes.length.isPowerOfTwo) (hsize : bytes.length < usizeCount)
    (hrange : start + tail < bytes.length) (signedKey : Int32) :
    (cyclePath bytes start tail signedKey).length = bytes.length - start - tail := by
  obtain ⟨later, hpath, hcycle⟩ := cyclePath_isCycle hpow hsize hrange signedKey
  rw [hpath, hcycle.length_eq]
  omega

theorem returns_last (hpow : bytes.length.isPowerOfTwo) (hsize : bytes.length < usizeCount)
    (hrange : start + tail < bytes.length) (hzero : signedKey ≠ 0) {out : Bytes}
    (h : permutePowerOfTwoInPlace (bytes.length - (start + tail)) bytes start tail signedKey = some (.ok (), out)) :
    ReturnsAfter (permuteRound (strideOf signedKey) (increment signedKey) bytes.length start
      (bytes.length - 1 - tail) (byteAt bytes start)) ⟨bytes, start, firstSeed bytes.length start tail signedKey⟩
      (bytes.length - (start + tail) - 1) (.ok (), out) := by
  rw [permute_eq_loop hpow hsize hrange hzero, permuteLoop_eq] at h
  split at h
  next result hrun =>
    obtain rfl := Option.some.inj h
    obtain ⟨k, hk, hreturns⟩ := ReturnsAfter.of_runFor hrun
    have hlength := @length_cyclePath bytes start tail hpow hsize hrange signedKey
    obtain ⟨s, hs, -⟩ := @stands_cyclePath bytes start tail signedKey hpow hsize hrange
      (bytes.length - (start + tail) - 1) (by omega)
    have hle := hs.le_of_returnsAfter hreturns
    obtain rfl : k = bytes.length - (start + tail) - 1 := by omega
    exact hreturns
  next => cases h

theorem stands_iff (hpow : bytes.length.isPowerOfTwo) (hsize : bytes.length < usizeCount)
    (hrange : start + tail < bytes.length) (hzero : signedKey ≠ 0) (k x : Nat) :
    (∃ s, Stands bytes start tail signedKey k s ∧ s.current = x) ↔
      (cyclePath bytes start tail signedKey)[k]? = some x := by
  have hlength := @length_cyclePath bytes start tail hpow hsize hrange signedKey
  constructor
  · rintro ⟨s, hs, rfl⟩
    obtain ⟨e, he⟩ := hpow
    obtain ⟨out, hrun, -⟩ := @permute_rewrites e start tail _ bytes signedKey he hsize hrange hzero le_rfl
    have hle := hs.le_of_returnsAfter (returns_last ⟨e, he⟩ hsize hrange hzero hrun)
    have hk : k < (cyclePath bytes start tail signedKey).length := by omega
    obtain ⟨t, ht, hcurrent⟩ := stands_cyclePath ⟨e, he⟩ hsize hrange hk
    have hsame := ht.runFor_eq
    rw [hs.runFor_eq] at hsame
    rw [List.getElem?_eq_getElem hk, ← hcurrent, Round.goesOn.inj hsame]
  · intro h
    obtain ⟨hk, rfl⟩ := List.getElem?_eq_some_iff.mp h
    exact stands_cyclePath hpow hsize hrange hk

theorem permute_fuel (hpow : bytes.length.isPowerOfTwo) (hsize : bytes.length < usizeCount)
    (hrange : start + tail < bytes.length) (hzero : signedKey ≠ 0) {out : Bytes}
    (h : permutePowerOfTwoInPlace (bytes.length - (start + tail)) bytes start tail signedKey = some (.ok (), out))
    (fuel : Nat) :
    permutePowerOfTwoInPlace fuel bytes start tail signedKey =
      if bytes.length - start - tail ≤ fuel then some (.ok (), out) else none := by
  rw [permute_eq_loop hpow hsize hrange hzero, permuteLoop_eq]
  have hreturns := returns_last hpow hsize hrange hzero h
  by_cases hfuel : bytes.length - start - tail ≤ fuel
  · rw [if_pos hfuel, hreturns.runFor_eq (by omega)]
  · have hlength := @length_cyclePath bytes start tail hpow hsize hrange signedKey
    obtain ⟨s, hs, -⟩ := @stands_cyclePath bytes start tail signedKey hpow hsize hrange fuel (by omega)
    rw [if_neg hfuel, hs.runFor_eq]

/-- Each active byte becomes the next one of the path, raised by the seed of its iteration. -/
theorem permute_values {out : Bytes} {later : List Nat} {len : Nat}
    (hout : Rewritten bytes out (start :: later)
      (ramp (increment signedKey) (firstSeed len start tail signedKey)
        (later.map (byteAt bytes) ++ [byteAt bytes start]))) {k x y : Nat}
    (hx : (start :: later)[k]? = some x) (hy : (start :: later)[(k + 1) % (start :: later).length]? = some y) :
    byteAt out x = byteAt bytes y + seedAt len start tail signedKey k := by
  obtain ⟨hk, -⟩ := List.getElem?_eq_some_iff.mp hx
  have hnext : (later.map (byteAt bytes) ++ [byteAt bytes start])[k]? = some (byteAt bytes y) := by
    rw [List.length_cons] at hk hy
    by_cases hlast : k < later.length
    · rw [Nat.mod_eq_of_lt (by omega), List.getElem?_cons_succ] at hy
      rw [List.getElem?_append_left (by simpa using hlast), List.getElem?_map, hy]
      rfl
    · obtain rfl : k = later.length := by omega
      rw [Nat.mod_self, List.getElem?_cons_zero] at hy
      rw [List.getElem?_append_right (by simp), List.length_map, Nat.sub_self, ← Option.some.inj hy]
      rfl
  have hvalue := congrArg (·[k]?) hout.path_values
  simp only [List.getElem?_map, hx, ramp_getElem?, hnext, Option.map_some, Option.some.injEq] at hvalue
  exact hvalue

end Calls

def IsRefusal : Fault PagePermutationError → Prop
  | .err (.nonPowerOfTwoLength _) | .err (.invalidSectorLength _) | .err (.invalidActiveRange _ _ _) => True
  | _ => False

theorem validateBounds_refusal {len start tail : Nat} {fault : Fault PagePermutationError}
    (h : validateBounds len start tail = .error fault) : IsRefusal fault := by
  unfold validateBounds at h
  split at h
  · cases h
    trivial
  · split at h
    · cases h
      trivial
    · split at h
      · cases h
        trivial
      · cases h

theorem permute_refused {bytes out : Bytes} (hsize : bytes.length < usizeCount) {start tail fuel : Nat}
    {signedKey : Int32} {fault : Fault PagePermutationError}
    (h : permutePowerOfTwoInPlace fuel bytes start tail signedKey = some (.error fault, out)) :
    out = bytes ∧ IsRefusal fault := by
  cases hbounds : validateBounds bytes.length start tail with
  | error fault' =>
      simp only [permutePowerOfTwoInPlace, hbounds, Option.some.injEq, Prod.mk.injEq, Except.error.injEq] at h
      obtain ⟨rfl, rfl⟩ := h
      exact ⟨rfl, validateBounds_refusal hbounds⟩
  | ok =>
      obtain ⟨⟨e, he⟩, -, hrange⟩ := validateBounds_eq_ok_iff.mp hbounds
      by_cases hzero : signedKey = 0
      · simp only [permutePowerOfTwoInPlace, hbounds, if_pos hzero, Option.some.injEq, Prod.mk.injEq,
          reduceCtorEq, false_and] at h
      · obtain ⟨out', hrun, -⟩ := @permute_rewrites e start tail _ bytes signedKey he hsize hrange hzero le_rfl
        rw [permute_fuel ⟨e, he⟩ hsize hrange hzero hrun] at h
        split at h
        · cases h
        · cases h

theorem permuteSector_refused {sector out : Bytes} (hsize : sector.length < usizeCount) {start tail fuel : Nat}
    {signedKey : Int32} {fault : Fault PagePermutationError}
    (h : permuteSectorInPlace fuel sector start tail signedKey = some (.error fault, out)) :
    out = sector ∧ IsRefusal fault := by
  unfold permuteSectorInPlace at h
  split at h
  · cases h
    exact ⟨rfl, trivial⟩
  · exact permute_refused hsize h

/-- A call on a valid range is one cycle through its active bytes; a refused call writes nothing. -/
theorem permute_one_cycle (bytes : Bytes) (start tail : Nat) (signedKey : Int32)
    (hsize : bytes.length < usizeCount) :
    (bytes.length.isPowerOfTwo → start + tail < bytes.length → signedKey ≠ 0 → ∃ (out : Bytes) (path : List Nat),
      (∀ fuel, permutePowerOfTwoInPlace fuel bytes start tail signedKey =
        if bytes.length - start - tail ≤ fuel then some (.ok (), out) else none) ∧
      path.length = bytes.length - start - tail ∧ path.Nodup ∧
      (∀ x, x ∈ path ↔ start ≤ x ∧ x ≤ bytes.length - 1 - tail) ∧
      (∀ k x, (∃ s, Stands bytes start tail signedKey k s ∧ s.current = x) ↔ path[k]? = some x) ∧
      (∀ k x y, path[k]? = some x → path[(k + 1) % path.length]? = some y →
        byteAt out x = byteAt bytes y + seedAt bytes.length start tail signedKey k) ∧
      out.length = bytes.length ∧ ∀ x, x ∉ path → byteAt out x = byteAt bytes x) ∧
    (∀ fuel fault out, permutePowerOfTwoInPlace fuel bytes start tail signedKey = some (.error fault, out) →
      out = bytes ∧ IsRefusal fault) ∧
    ∀ fuel fault out, permuteSectorInPlace fuel bytes start tail signedKey = some (.error fault, out) →
      out = bytes ∧ IsRefusal fault := by
  refine ⟨?_, fun fuel fault out => permute_refused hsize, fun fuel fault out => permuteSector_refused hsize⟩
  intro hpow hrange hzero
  have hcycle := @laterPath_isCycle bytes.length start (bytes.length - 1 - tail) hpow hsize (by omega) (by omega)
    signedKey
  have hlength := @length_cyclePath bytes start tail hpow hsize hrange signedKey
  have hstands := @stands_iff bytes start tail signedKey hpow hsize hrange hzero
  obtain ⟨e, he⟩ := hpow
  obtain ⟨out, hrun, hout⟩ := @permute_rewrites e start tail _ bytes signedKey he hsize hrange hzero le_rfl
  have hpath : cyclePath bytes start tail signedKey = _ := hcycle.path_eq
  rw [hcycle.path_eq] at hout
  rw [hpath] at hlength hstands
  exact ⟨out, _, permute_fuel ⟨e, he⟩ hsize hrange hzero hrun, hlength, hcycle.nodup, hcycle.mem_iff, hstands,
    fun k x y hx hy => permute_values hout hx hy, hout.length_eq, hout.frame⟩

theorem permute_one_cycle_eight :
    (∃ (out : Bytes) (path : List Nat),
      (∀ fuel, permutePowerOfTwoInPlace fuel [0, 1, 2, 3, 4, 5, 6, 7] 2 3 Int32.minValue =
        if 3 ≤ fuel then some (.ok (), out) else none) ∧ path.length = 3 ∧ path.Nodup) ∧
      [0, 1, 2] = ([0, 1, 2] : Bytes) ∧ IsRefusal (.err (.nonPowerOfTwoLength 3)) := by
  constructor
  · obtain ⟨out, path, hfuel, hlength, hnodup, -⟩ :=
      (permute_one_cycle [0, 1, 2, 3, 4, 5, 6, 7] 2 3 Int32.minValue (by decide)).1 ⟨3, rfl⟩ (by decide) (by decide)
    exact ⟨out, path, hfuel, hlength, hnodup⟩
  · exact (permute_one_cycle [0, 1, 2] 0 0 1 (by decide)).2.1 0 (.err (.nonPowerOfTwoLength 3)) [0, 1, 2] (by decide)

end OpenSqlAny.PermutationCycle
