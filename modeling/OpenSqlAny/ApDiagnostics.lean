import OpenSqlAny.ApSteps

namespace OpenSqlAny.ApDiagnostics

open Library.LittleEndian Library.Histograms PageStores ApFill ApSectors ApPages ApSteps
open scoped UInt8.CommRing

section Shifts

variable {raw sec : Bytes} {pn si : Nat}

theorem apBase_shift (pn si : Nat) (b₁ b₂ : UInt8) : apBase pn si b₂ = apBase pn si b₁ + (b₂ - b₁) := by
  rw [apBase, apBase]
  ring

theorem searchStep_add (sec : Bytes) (base v : UInt8) : searchStep sec (base + v) = searchStep sec base := by
  have hpeaks : (fun s => peakOf (tally (plainUnder sec (base + v) s))) =
      fun s => peakOf (tally (plainUnder sec base s)) := by
    funext s
    exact peak_plainUnder_add sec base s v
  rw [searchStep_eq, searchStep_eq, hpeaks]

/-- All that a sector reports except for its zeros. -/
structure SameEvidence (e₁ e₂ : ApSectorRecoveryConfidence) : Prop where
  sectorIndex : e₁.sectorIndex = e₂.sectorIndex
  chosenStep : e₁.chosenStep = e₂.chosenStep
  bestPeak : e₁.bestPeak = e₂.bestPeak
  runnerUpPeak : e₁.runnerUpPeak = e₂.runnerUpPeak
  bestPeakTied : e₁.bestPeakTied = e₂.bestPeakTied
  plaintextPeakFraction : e₁.plaintextPeakFraction = e₂.plaintextPeakFraction
  sectorByteCount : e₁.sectorByteCount = e₂.sectorByteCount

-- both searches are variables, so that the kernel does not run them
theorem sameEvidence_of_search {base₁ base₂ : UInt8} {search₁ search₂ : StepSearch}
    (h₁ : search₁ = searchStep sec base₁) (h₂ : search₂ = searchStep sec base₂) (heq : search₁ = search₂) :
    SameEvidence (recoverStepConfidence sec base₁ si) (recoverStepConfidence sec base₂ si) := by
  subst heq
  rw [recoverStepConfidence, recoverStepConfidence, ← h₁, ← h₂]
  exact ⟨rfl, rfl, rfl, rfl, rfl, rfl, rfl⟩

theorem sameEvidence_bases (raw : Bytes) (pn si : Nat) (b₁ b₂ : UInt8) :
    SameEvidence (recoverStepConfidence (sectorOf raw si) (apBase pn si b₁) si)
      (recoverStepConfidence (sectorOf raw si) (apBase pn si b₂) si) := by
  refine sameEvidence_of_search rfl rfl ?_
  rw [apBase_shift pn si b₁ b₂, searchStep_add]

theorem plainSector_shift (raw : Bytes) (pn si : Nat) (b₁ b₂ : UInt8) :
    plainSector raw pn b₁ si = (plainSector raw pn b₂ si).map (· + (b₂ - b₁)) := by
  have hneg : (fun b : UInt8 => b + (b₂ - b₁)) = fun b => b - (b₁ - b₂) := by
    funext b
    ring
  rw [plainSector, plainSector, (sameEvidence_bases raw pn si b₁ b₂).chosenStep, apBase_shift pn si b₂ b₁,
    plainUnder_add, hneg]

theorem body_shift (raw : Bytes) (pn : Nat) (b₁ b₂ : UInt8) :
    (List.range sectorsPerPage).flatMap (plainSector raw pn b₁) =
      ((List.range sectorsPerPage).flatMap (plainSector raw pn b₂)).map (· + (b₂ - b₁)) := by
  rw [List.map_flatMap]
  apply List.flatMap_congr
  intro si _
  exact plainSector_shift raw pn si b₁ b₂

theorem length_body (hraw : pageSize ≤ raw.length) (bv : UInt8) :
    ((List.range sectorsPerPage).flatMap (plainSector raw pn bv)).length = trailerStart := by
  rw [length_blocks (plainSector_lengths hraw) (Nat.le_refl _), boundary_last]

theorem length_trailer (hraw : pageSize ≤ raw.length) :
    ((raw.take pageSize).drop trailerStart).length = pageSize - trailerStart := by
  rw [List.length_drop, List.length_take, Nat.min_eq_left hraw]

theorem length_output (hraw : pageSize ≤ raw.length) (bv : UInt8) :
    ((List.range sectorsPerPage).flatMap (plainSector raw pn bv) ++
      (raw.take pageSize).drop trailerStart).length = pageSize := by
  rw [List.length_append, length_body hraw, length_trailer hraw]
  rfl

theorem sameEvidence_sectors (raw : Bytes) (pn : Nat) (b₁ b₂ : UInt8) (sis : List Nat) :
    List.Forall₂ SameEvidence
      (sis.map fun si => recoverStepConfidence (sectorOf raw si) (apBase pn si b₁) si)
      (sis.map fun si => recoverStepConfidence (sectorOf raw si) (apBase pn si b₂) si) := by
  induction sis with
  | nil => exact List.Forall₂.nil
  | cons si sis ih => exact List.Forall₂.cons (sameEvidence_bases raw pn si b₁ b₂) ih

theorem tied_eq_of_sameEvidence {es₁ es₂ : List ApSectorRecoveryConfidence}
    (h : List.Forall₂ SameEvidence es₁ es₂) :
    (es₁.filter (·.bestPeakTied)).length = (es₂.filter (·.bestPeakTied)).length := by
  induction h with
  | nil => rfl
  | @cons e₁ e₂ es₁ es₂ he _ ih =>
      rw [List.filter_cons, List.filter_cons, he.bestPeakTied]
      cases e₂.bestPeakTied with
      | false => exact ih
      | true => exact congrArg (· + 1) ih

/-- Another calibration byte moves every body byte by the same amount and changes no choice of a step. -/
theorem deobfuscateWithBvAndConfidence_shift (pn : Nat) (b₁ b₂ : UInt8) (hraw : pageSize ≤ raw.length) :
    ∃ out₁ confidence₁ out₂ confidence₂,
      deobfuscateWithBvAndConfidence raw pn b₁ = some (out₁, confidence₁) ∧
      deobfuscateWithBvAndConfidence raw pn b₂ = some (out₂, confidence₂) ∧
      List.Forall₂ SameEvidence confidence₁.sectors confidence₂.sectors ∧
      confidence₁.tiedSectorCount = confidence₂.tiedSectorCount ∧
      out₁.length = pageSize ∧ out₂.length = pageSize ∧
      (∀ i < trailerStart, out₁[i]? = out₂[i]?.map (· + (b₂ - b₁))) ∧
      out₁.drop trailerStart = out₂.drop trailerStart := by
  have hsectors := sameEvidence_sectors raw pn b₁ b₂ (List.range sectorsPerPage)
  have hbody₁ := @length_body raw pn hraw b₁
  have hbody₂ := @length_body raw pn hraw b₂
  rw [deobfuscateWithBvAndConfidence_eq hraw, deobfuscateWithBvAndConfidence_eq hraw]
  refine ⟨_, _, _, _, rfl, rfl, hsectors, ?_, length_output hraw b₁, length_output hraw b₂, ?_, ?_⟩
  · simp only [tied_eq_of_sameEvidence hsectors]
  · intro i hi
    rw [List.getElem?_append_left (hbody₁.symm ▸ hi), List.getElem?_append_left (hbody₂.symm ▸ hi),
      body_shift raw pn b₁ b₂, List.getElem?_map]
  · rw [List.drop_left' hbody₁, List.drop_left' hbody₂]

theorem deobfuscateWithBvAndConfidence_shift_zeros :
    ∃ out₁ confidence₁ out₂ confidence₂,
      deobfuscateWithBvAndConfidence (List.replicate pageSize 0) 3 77 = some (out₁, confidence₁) ∧
      deobfuscateWithBvAndConfidence (List.replicate pageSize 0) 3 80 = some (out₂, confidence₂) ∧
      List.Forall₂ SameEvidence confidence₁.sectors confidence₂.sectors ∧
      confidence₁.tiedSectorCount = confidence₂.tiedSectorCount ∧
      out₁.length = pageSize ∧ out₂.length = pageSize ∧
      (∀ i < trailerStart, out₁[i]? = out₂[i]?.map (· + (80 - 77))) ∧
      out₁.drop trailerStart = out₂.drop trailerStart :=
  deobfuscateWithBvAndConfidence_shift 3 77 80 List.length_replicate.ge

end Shifts

def reobfuscateSectors (pn : Nat) (bv : UInt8) : List ApSectorRecoveryConfidence → Bytes → Bytes
  | [], trailer => trailer
  | evidence :: sectors, bytes =>
      encodeSector (apBase pn evidence.sectorIndex bv) evidence.chosenStep (bytes.take evidence.sectorByteCount) ++
        reobfuscateSectors pn bv sectors (bytes.drop evidence.sectorByteCount)

def reobfuscate (confidence : ApPageRecoveryConfidence) (out : Bytes) : Bytes :=
  reobfuscateSectors confidence.pageNumber confidence.bv confidence.sectors out

section Restoring

variable {raw : Bytes} {pn : Nat} {bv : UInt8}

theorem encodeSector_plainUnder (base step : UInt8) (sec : Bytes) :
    encodeSector base step (plainUnder sec base step) = sec := by
  rw [plainUnder, encodeSector, List.mapIdx_mapIdx]
  apply List.mapIdx_eq_iff.mpr
  intro i
  cases h : sec[i]? with
  | none => rfl
  | some b =>
      have hback : base + strideAt i step + (b - base - strideAt i step) = b := by ring
      rw [Option.map_some, Function.comp_apply, hback]

theorem reobfuscateSectors_plain (raw : Bytes) (pn : Nat) (bv : UInt8) (sis : List Nat) (trailer : Bytes) :
    reobfuscateSectors pn bv (sis.map fun si => recoverStepConfidence (sectorOf raw si) (apBase pn si bv) si)
      (sis.flatMap (plainSector raw pn bv) ++ trailer) = sis.flatMap (sectorOf raw) ++ trailer := by
  induction sis with
  | nil => rfl
  | cons si sis ih =>
      have hcount : (plainSector raw pn bv si).length =
          (recoverStepConfidence (sectorOf raw si) (apBase pn si bv) si).sectorByteCount := by
        rw [plainSector, length_plainUnder, recoverStepConfidence]
      have hindex : (recoverStepConfidence (sectorOf raw si) (apBase pn si bv) si).sectorIndex = si := by
        rw [recoverStepConfidence]
      rw [List.map_cons, List.flatMap_cons, List.flatMap_cons, List.append_assoc, List.append_assoc,
        reobfuscateSectors, ← hcount, List.take_left, List.drop_left, ih, hindex, plainSector,
        encodeSector_plainUnder]

theorem reobfuscate_output (hraw : pageSize ≤ raw.length) {out : Bytes} {confidence : ApPageRecoveryConfidence}
    (h : deobfuscateWithBvAndConfidence raw pn bv = some (out, confidence)) :
    reobfuscate confidence out = raw.take pageSize := by
  have hstart : (raw.take pageSize).take trailerStart = raw.take trailerStart := by
    rw [List.take_take]
    rfl
  rw [deobfuscateWithBvAndConfidence_eq hraw, Option.some.injEq, Prod.mk.injEq] at h
  obtain ⟨rfl, rfl⟩ := h
  rw [reobfuscate, reobfuscateSectors_plain, flatMap_sectorOf raw (Nat.le_refl _), boundary_last, ← hstart,
    List.take_append_drop]

theorem sectorIndices (raw : Bytes) (pn : Nat) (bv : UInt8) (sis : List Nat) :
    (sis.map fun si => recoverStepConfidence (sectorOf raw si) (apBase pn si bv) si).map
      ApSectorRecoveryConfidence.sectorIndex = sis := by
  rw [List.map_map]
  apply List.map_id''
  intro si
  rw [Function.comp_apply, recoverStepConfidence]

theorem sectorByteCounts (hraw : pageSize ≤ raw.length) (pn : Nat) (bv : UInt8) :
    ((List.range sectorsPerPage).map fun si =>
      recoverStepConfidence (sectorOf raw si) (apBase pn si bv) si).map
      ApSectorRecoveryConfidence.sectorByteCount =
      (List.range sectorsPerPage).map fun si => boundary (si + 1) - boundary si := by
  rw [List.map_map]
  apply List.map_congr_left
  intro si hsi
  rw [Function.comp_apply, recoverStepConfidence,
    length_sectorOf (List.mem_range.mp hsi) (Nat.le_trans (by decide) hraw)]

/-- Whatever the buffer holds and whichever steps were chosen, the plaintext page and its diagnostic
give the stored page back. -/
theorem deobfuscateWithBvAndConfidence_restores (pn : Nat) (bv : UInt8) (hraw : pageSize ≤ raw.length) :
    ∃ out confidence, deobfuscateWithBvAndConfidence raw pn bv = some (out, confidence) ∧
      out.length = pageSize ∧
      confidence.pageNumber = pn ∧ confidence.bv = bv ∧
      confidence.sectors.map (·.sectorIndex) = [0, 1, 2, 3, 4, 5, 6, 7] ∧
      confidence.sectors.map (·.sectorByteCount) = [512, 512, 512, 512, 512, 512, 512, 496] ∧
      (confidence.sectors.map (·.sectorByteCount)).sum = 0xFF0 ∧
      out.drop 0xFF0 = (raw.take pageSize).drop 0xFF0 ∧
      reobfuscate confidence out = raw.take pageSize := by
  have hrestored := @reobfuscate_output raw pn bv hraw
  have hcounts := sectorByteCounts hraw pn bv
  have hlayout : (List.range sectorsPerPage).map (fun si => boundary (si + 1) - boundary si) =
      [512, 512, 512, 512, 512, 512, 512, 496] := by decide
  rw [hlayout] at hcounts
  have hdecoded := @deobfuscateWithBvAndConfidence_eq raw pn bv hraw
  refine ⟨_, _, hdecoded, length_output hraw bv, rfl, rfl, sectorIndices raw pn bv _, hcounts, ?_,
    List.drop_left' (length_body hraw bv), hrestored hdecoded⟩
  rw [hcounts]
  rfl

theorem deobfuscateWithBvAndConfidence_restores_zeros :
    ∃ out confidence, deobfuscateWithBvAndConfidence (List.replicate 5000 0) 3 77 = some (out, confidence) ∧
      out.length = pageSize ∧
      confidence.pageNumber = 3 ∧ confidence.bv = 77 ∧
      confidence.sectors.map (·.sectorIndex) = [0, 1, 2, 3, 4, 5, 6, 7] ∧
      confidence.sectors.map (·.sectorByteCount) = [512, 512, 512, 512, 512, 512, 512, 496] ∧
      (confidence.sectors.map (·.sectorByteCount)).sum = 0xFF0 ∧
      out.drop 0xFF0 = ((List.replicate 5000 0).take pageSize).drop 0xFF0 ∧
      reobfuscate confidence out = (List.replicate 5000 0).take pageSize :=
  deobfuscateWithBvAndConfidence_restores 3 77 (by rw [List.length_replicate]; decide)

end Restoring

end OpenSqlAny.ApDiagnostics
