import Mathlib.Algebra.Order.Field.Basic
import Mathlib.Algebra.Order.Ring.Rat
import OpenSqlAny.ApSectors

namespace OpenSqlAny.ApVotes

open Library.LittleEndian Library.Histograms Library.HashEntries ApFill ApSectors
open scoped UInt8.CommRing

/-- The fill itself: what a sector of zeros is stored as. -/
def progression (base step : UInt8) (n : Nat) : Bytes :=
  (List.range n).map (fun i => base + strideAt i step)

section Progressions

variable {base step : UInt8} {n : Nat} {sec : Bytes}

@[simp]
theorem length_progression : (progression base step n).length = n := by simp [progression]

theorem getElem_progression {i : Nat} (h : i < (progression base step n).length) :
    (progression base step n)[i] = base + strideAt i step := by
  simp [progression]

theorem tally_replicate {b c : UInt8} (hc : c ≠ b) (hn : 0 < n) :
    tally (List.replicate n b) c < tally (List.replicate n b) b := by
  rw [tally_apply, tally_apply, List.count_replicate_self, List.count_replicate]
  simp [Ne.symm hc, hn]

theorem dominantStep_progression : dominantStep (progression base step (n + 2)) = step := by
  have hdiffs : ((progression base step (n + 2)).zip (progression base step (n + 2)).tail).map
      (fun w => w.2 - w.1) = List.replicate (n + 1) step := by
    apply List.ext_getElem
    · simp
    · intro i hi hi'
      rw [List.getElem_map, List.getElem_zip, List.getElem_tail, getElem_progression, getElem_progression,
        List.getElem_replicate, strideAt_succ]
      ring
  rw [dominantStep, hdiffs]
  apply lastPeak_of_unique
  intro c hc
  exact tally_replicate hc (by omega)

theorem recoverBase_progression : recoverBase (progression base step (n + 1)) step = base := by
  have hbases : (progression base step (n + 1)).mapIdx (fun i b => b - strideAt i step) =
      List.replicate (n + 1) base := by
    apply List.ext_getElem
    · simp
    · intro i hi hi'
      rw [List.getElem_mapIdx, getElem_progression, List.getElem_replicate]
      ring
  rw [recoverBase, hbases]
  apply lastPeak_of_unique
  intro c hc
  exact tally_replicate hc (by omega)

theorem sectorPurity_lt_iff (hpos : 0 < sec.length) :
    sectorPurity sec base step < learnPurity ↔ sec ≠ progression base step sec.length := by
  have hhits := List.count_le_length (a := true)
    (l := sec.mapIdx (fun i b => decide (b = base + strideAt i step)))
  have hall : (sec.mapIdx (fun i b => decide (b = base + strideAt i step))).count true = sec.length ↔
      sec = progression base step sec.length := by
    rw [← List.length_mapIdx (l := sec) (f := fun i b => decide (b = base + strideAt i step)),
      List.count_eq_length, List.length_mapIdx]
    constructor
    · intro h
      apply List.ext_getElem
      · rw [length_progression]
      · intro i hi hi'
        have hmem := h _ (List.getElem_mem (l := sec.mapIdx _) (by rwa [List.length_mapIdx]))
        rw [List.getElem_mapIdx] at hmem
        rw [getElem_progression]
        simpa using hmem
    · intro h x hx
      obtain ⟨i, hi, rfl⟩ := List.mem_mapIdx.mp hx
      have hbyte : sec[i] = base + strideAt i step := by
        rw [← getElem_progression (n := sec.length) (by simpa using hi)]
        congr 1
      simp [hbyte]
  rw [List.length_mapIdx] at hhits
  rw [sectorPurity, learnPurity, div_lt_one (by exact_mod_cast hpos), Nat.cast_lt, Ne, ← hall]
  omega

/-- Exactly the exact progressions vote, and for the bv that their first byte gives. -/
theorem sectorVote_eq_some_iff {bytes : Bytes} {pn si : Nat} {bv : UInt8}
    (hlen : 2 ≤ (sectorOf bytes si).length) :
    sectorVote bytes pn si = some bv ↔
      ∃ base step, sectorOf bytes si = progression base step (sectorOf bytes si).length ∧
        bv = base - UInt8.ofNat pn - UInt8.ofNat si + bias pn := by
  rw [sectorVote]
  by_cases hpure : sectorPurity (sectorOf bytes si) (recoverBase (sectorOf bytes si)
      (dominantStep (sectorOf bytes si))) (dominantStep (sectorOf bytes si)) < learnPurity
  · rw [if_pos hpure]
    rw [sectorPurity_lt_iff (by omega)] at hpure
    constructor
    · intro h
      cases h
    · rintro ⟨base, step, hsec, -⟩
      obtain ⟨n, hn⟩ : ∃ n, (sectorOf bytes si).length = n + 2 := ⟨_, (Nat.sub_add_cancel hlen).symm⟩
      rw [hn] at hsec hpure
      rw [hsec, dominantStep_progression, recoverBase_progression] at hpure
      exact absurd rfl hpure
  · rw [if_neg hpure]
    rw [sectorPurity_lt_iff (by omega), not_not] at hpure
    constructor
    · intro h
      exact ⟨_, _, hpure, (Option.some.inj h).symm⟩
    · rintro ⟨base, step, hsec, rfl⟩
      obtain ⟨n, hn⟩ : ∃ n, (sectorOf bytes si).length = n + 2 := ⟨_, (Nat.sub_add_cancel hlen).symm⟩
      rw [hn] at hsec
      rw [hsec, dominantStep_progression, recoverBase_progression]

end Progressions

section EncodedSectors

variable {plain : Bytes} {base step b s : UInt8} {m : Nat}

theorem encodeSector_zeros (n : Nat) : encodeSector base step (List.replicate n 0) = progression base step n := by
  apply List.ext_getElem
  · simp
  · intro i hi hi'
    rw [getElem_progression]
    simp [encodeSector]

/-- A sparse sector that is an exact progression is the progression of its own fill. -/
theorem progression_of_encodeSector (hlen : plain.length = 2 * m) (hsparse : Sparse plain)
    (h : encodeSector base step plain = progression b s plain.length) : b = base := by
  have hflat : (encodeSector base step plain).mapIdx (fun i x => x - b - strideAt i s) =
      List.replicate plain.length 0 := by
    rw [h]
    apply List.ext_getElem
    · simp
    · intro i hi hi'
      rw [List.getElem_mapIdx, getElem_progression, List.getElem_replicate]
      ring
  have hcount := tally_encodeSector base step b s 0 plain
  rw [hflat, tally_apply, List.count_replicate_self] at hcount
  have hle := List.count_le_length (a := (0 : UInt8)) (l := plain)
  by_contra hb
  have hv : 0 - base + b ≠ 0 := by
    intro hzero
    apply hb
    have hsum : b = (0 - base + b) + base := by ring
    rw [hsum, hzero, zero_add]
  have hlt := shiftedCount_lt (d := step - s) hlen hsparse (.inr hv)
  omega

theorem apBase_back (pn si : Nat) (bv : UInt8) :
    apBase pn si bv - UInt8.ofNat pn - UInt8.ofNat si + bias pn = bv := by
  rw [apBase]
  ring

variable {bytes : Bytes} {pn si : Nat} {bv : UInt8}

theorem sectorVote_encodeSector (hsec : sectorOf bytes si = encodeSector (apBase pn si bv) step plain)
    (hlen : plain.length = 2 * m) (hpos : 0 < m) (hsparse : Sparse plain) {v : UInt8}
    (hvote : sectorVote bytes pn si = some v) : v = bv := by
  have hlength : (sectorOf bytes si).length = plain.length := by rw [hsec, length_encodeSector]
  obtain ⟨b, s, hprog, rfl⟩ := (sectorVote_eq_some_iff (by omega)).mp hvote
  rw [hlength, hsec] at hprog
  rw [progression_of_encodeSector hlen hsparse hprog, apBase_back]

theorem sectorVote_zeros (hsec : sectorOf bytes si = encodeSector (apBase pn si bv) step plain)
    (hlen : 2 ≤ plain.length) (hzero : plain = List.replicate plain.length 0) :
    sectorVote bytes pn si = some bv := by
  have hlength : (sectorOf bytes si).length = plain.length := by rw [hsec, length_encodeSector]
  apply (sectorVote_eq_some_iff (by omega)).mpr
  refine ⟨apBase pn si bv, step, ?_, (apBase_back pn si bv).symm⟩
  rw [hlength, hsec, ← encodeSector_zeros, ← hzero]

end EncodedSectors

end OpenSqlAny.ApVotes
