import OpenSqlAny.ApDiagnostics
import OpenSqlAny.ApPeaks

namespace OpenSqlAny.ApRekeying

open Library.LittleEndian Library.Histograms PageStores ApFill ApSectors ApPages ApSteps ApDiagnostics ApPeaks
open scoped UInt8.CommRing

section Moved

variable {peak : UInt8 → Nat} {d step step' : UInt8} {high high' second second' : Nat} {shared shared' : Bool}

theorem shared_iff (h : Ranked peak step high second shared) :
    shared = true ↔ ∃ s t, s ≠ t ∧ peak s = high ∧ peak t = high := by
  rw [h.tied_iff_other]
  constructor
  · rintro ⟨s, hs, hpeak⟩
    exact ⟨s, step, hs, hpeak, h.best.symm⟩
  · rintro ⟨s, t, hne, hs, ht⟩
    by_cases hstep : s = step
    · exact ⟨t, fun h => hne (hstep.trans h.symm), ht⟩
    · exact ⟨s, hstep, hs⟩

theorem high_moved (h : Ranked peak step high second shared)
    (h' : Ranked (fun s => peak (s - d)) step' high' second' shared') : high' = high := by
  rw [h.best, h'.best]
  apply Nat.le_antisymm
  · exact h.chosen.1 (step' - d)
  · have hle := h'.chosen.1 (step + d)
    simp only [add_sub_cancel_right] at hle
    exact hle

theorem shared_moved (h : Ranked peak step high second shared)
    (h' : Ranked (fun s => peak (s - d)) step' high' second' shared') : shared' = shared := by
  rw [Bool.eq_iff_iff, shared_iff h, shared_iff h', high_moved h h']
  constructor
  · rintro ⟨s, t, hne, hs, ht⟩
    exact ⟨s - d, t - d, fun heq => hne (sub_left_inj.mp heq), hs, ht⟩
  · rintro ⟨s, t, hne, hs, ht⟩
    refine ⟨s + d, t + d, fun heq => hne (add_right_cancel heq), ?_, ?_⟩
    · rwa [add_sub_cancel_right]
    · rwa [add_sub_cancel_right]

theorem step_moved (h : Ranked peak step high second false)
    (h' : Ranked (fun s => peak (s - d)) step' high' second' shared') : step' = step + d := by
  by_contra hne
  have hother : ∃ s, s ≠ step ∧ peak s = high := by
    refine ⟨step' - d, ?_, ?_⟩
    · rintro rfl
      exact hne (sub_add_cancel step' d).symm
    · rw [← high_moved h h', h'.best]
  exact Bool.false_ne_true (h.tied_iff_other.mpr hother)

theorem second_moved (h : Ranked peak step high second shared)
    (h' : Ranked (fun s => peak (s - d)) step' high' second' shared') : second' = second := by
  have hshared := shared_moved h h'
  have hhigh := high_moved h h'
  cases shared with
  | true => rw [h.tied_iff_runnerUp.mp rfl, h'.tied_iff_runnerUp.mp hshared, hhigh]
  | false =>
      have hgreatest := h'.runnerUp
      rw [step_moved h h'] at hgreatest
      refine hgreatest.unique ?_
      have hsame : {n | ∃ s, s ≠ step + d ∧ peak (s - d) = n} = {n | ∃ s, s ≠ step ∧ peak s = n} := by
        ext n
        constructor
        · rintro ⟨s, hs, hn⟩
          exact ⟨s - d, fun heq => hs (sub_eq_iff_eq_add.mp heq), hn⟩
        · rintro ⟨s, hs, hn⟩
          refine ⟨s + d, fun heq => hs (add_right_cancel heq), ?_⟩
          rwa [add_sub_cancel_right]
      rw [hsame]
      exact h.runnerUp

end Moved

section Sectors

variable {sec : Bytes} {base d e : UInt8}

-- the search is a variable, so that the kernel does not run it
theorem ranked_of_search {search : StepSearch} (hsearch : search = searchStep sec base) (si : Nat)
    (h : Ranked (stepPeak sec base) search.bestStep search.bestCount search.runnerUpCount search.bestPeakTied) :
    Ranked (stepPeak sec base) (recoverStepConfidence sec base si).chosenStep
      (recoverStepConfidence sec base si).bestPeak (recoverStepConfidence sec base si).runnerUpPeak
      (recoverStepConfidence sec base si).bestPeakTied := by
  rw [recoverStepConfidence, ← hsearch]
  exact h

theorem ranked_evidence (hne : sec ≠ []) (base : UInt8) (si : Nat) :
    Ranked (stepPeak sec base) (recoverStepConfidence sec base si).chosenStep
      (recoverStepConfidence sec base si).bestPeak (recoverStepConfidence sec base si).runnerUpPeak
      (recoverStepConfidence sec base si).bestPeakTied := by
  obtain ⟨before, after, hsplit, h⟩ := considerAll_topTwo (List.ne_nil_of_mem (mem_allBytes 0))
    fun s _ => stepPeak_pos hne base s
  generalize hsearch : considerAll (stepPeak sec base) ⟨0, 0, 0, false⟩ allBytes = search at hsplit h
  exact ranked_of_search (hsearch.symm.trans (searchStep_eq sec base).symm) si (h.ranked hsplit)

theorem plainUnder_rekeyed (sec : Bytes) (base e d s : UInt8) :
    plainUnder (encodeSector e d sec) (base + e) s = plainUnder sec base (s - d) := by
  rw [plainUnder, plainUnder, encodeSector, List.mapIdx_mapIdx]
  apply List.ext_getElem?
  intro i
  rw [List.getElem?_mapIdx, List.getElem?_mapIdx]
  congr 1
  funext b
  rw [Function.comp_apply, strideAt, strideAt, strideAt]
  ring

theorem stepPeak_rekeyed (sec : Bytes) (base e d s : UInt8) :
    stepPeak (encodeSector e d sec) (base + e) s = stepPeak sec base (s - d) := by
  rw [stepPeak, stepPeak, plainUnder_rekeyed]

theorem evidence_of_search {search : StepSearch} (hsearch : search = searchStep sec base) (si : Nat) :
    recoverStepConfidence sec base si =
      { sectorIndex := si
        chosenStep := search.bestStep
        bestPeak := search.bestCount
        runnerUpPeak := search.runnerUpCount
        bestPeakTied := search.bestPeakTied
        zeroPlaintextCount := (plainUnder sec base search.bestStep).count 0
        zeroPlaintextFraction := ((plainUnder sec base search.bestStep).count 0 : Rat) / (sec.length : Rat)
        plaintextPeakFraction := (search.bestCount : Rat) / (sec.length : Rat)
        sectorByteCount := sec.length } := by
  rw [recoverStepConfidence, ← hsearch]

theorem evidence_fields (sec : Bytes) (base : UInt8) (si : Nat) :
    ∃ step high second shared, recoverStepConfidence sec base si =
      { sectorIndex := si
        chosenStep := step
        bestPeak := high
        runnerUpPeak := second
        bestPeakTied := shared
        zeroPlaintextCount := (plainUnder sec base step).count 0
        zeroPlaintextFraction := ((plainUnder sec base step).count 0 : Rat) / (sec.length : Rat)
        plaintextPeakFraction := (high : Rat) / (sec.length : Rat)
        sectorByteCount := sec.length } := by
  obtain ⟨search, hsearch⟩ : ∃ search, search = searchStep sec base := ⟨_, rfl⟩
  exact ⟨_, _, _, _, evidence_of_search hsearch si⟩

/-- What a sector reports when the fill under it has been raised by a progression of step d. -/
structure SameFinding (d : UInt8) (found found' : ApSectorRecoveryConfidence) : Prop where
  sectorIndex : found'.sectorIndex = found.sectorIndex
  sectorByteCount : found'.sectorByteCount = found.sectorByteCount
  bestPeak : found'.bestPeak = found.bestPeak
  runnerUpPeak : found'.runnerUpPeak = found.runnerUpPeak
  bestPeakTied : found'.bestPeakTied = found.bestPeakTied
  plaintextPeakFraction : found'.plaintextPeakFraction = found.plaintextPeakFraction
  chosenStep : found.bestPeakTied = false → found'.chosenStep = found.chosenStep + d
  zeroPlaintextCount : found.bestPeakTied = false → found'.zeroPlaintextCount = found.zeroPlaintextCount
  zeroPlaintextFraction : found.bestPeakTied = false → found'.zeroPlaintextFraction = found.zeroPlaintextFraction

theorem ranked_rekeyed (hne : sec ≠ []) (base e d : UInt8) (si : Nat) :
    Ranked (fun s => stepPeak sec base (s - d)) (recoverStepConfidence (encodeSector e d sec) (base + e) si).chosenStep
      (recoverStepConfidence (encodeSector e d sec) (base + e) si).bestPeak
      (recoverStepConfidence (encodeSector e d sec) (base + e) si).runnerUpPeak
      (recoverStepConfidence (encodeSector e d sec) (base + e) si).bestPeakTied := by
  have hne' : encodeSector e d sec ≠ [] := by
    rw [← List.length_pos_iff_ne_nil, length_encodeSector]
    exact List.length_pos_of_ne_nil hne
  have h := ranked_evidence hne' (base + e) si
  have hpeaks : stepPeak (encodeSector e d sec) (base + e) = fun s => stepPeak sec base (s - d) :=
    funext fun s => stepPeak_rekeyed sec base e d s
  rwa [hpeaks] at h

theorem chosenStep_rekeyed (hne : sec ≠ []) (base e d : UInt8) (si : Nat)
    (huntied : (recoverStepConfidence sec base si).bestPeakTied = false) :
    (recoverStepConfidence (encodeSector e d sec) (base + e) si).chosenStep =
      (recoverStepConfidence sec base si).chosenStep + d := by
  have h := ranked_evidence hne base si
  rw [huntied] at h
  exact step_moved h (ranked_rekeyed hne base e d si)

theorem sameFinding_rekeyed (hne : sec ≠ []) (base e d : UInt8) (si : Nat) :
    SameFinding d (recoverStepConfidence sec base si) (recoverStepConfidence (encodeSector e d sec) (base + e) si) := by
  have h := ranked_evidence hne base si
  have h' := ranked_rekeyed hne base e d si
  have hstep := chosenStep_rekeyed hne base e d si
  obtain ⟨step, high, second, shared, hfound⟩ := evidence_fields sec base si
  obtain ⟨step', high', second', shared', hfound'⟩ := evidence_fields (encodeSector e d sec) (base + e) si
  rw [hfound] at h hstep
  rw [hfound'] at h' hstep
  rw [hfound, hfound']
  have hstep : shared = false → step' = step + d := hstep
  have hhigh : high' = high := high_moved h h'
  have hplain (huntied : shared = false) :
      plainUnder (encodeSector e d sec) (base + e) step' = plainUnder sec base step := by
    rw [plainUnder_rekeyed, hstep huntied, add_sub_cancel_right]
  refine ⟨rfl, length_encodeSector e d sec, hhigh, second_moved h h', shared_moved h h', ?_, hstep, ?_, ?_⟩
  · simp only
    rw [hhigh, length_encodeSector]
  · intro huntied
    simp only
    rw [hplain huntied]
  · intro huntied
    simp only
    rw [hplain huntied, length_encodeSector]

end Sectors

/-- A stored page whose fill has been raised in each sector by a progression of its own. -/
def rekey (raw : Bytes) (e : UInt8) (steps : Nat → UInt8) : Bytes :=
  (List.range sectorsPerPage).flatMap (fun si => encodeSector e (steps si) (sectorOf raw si)) ++ raw.drop trailerStart

section Pages

variable {raw : Bytes} {e : UInt8} {steps : Nat → UInt8} {si : Nat}

theorem sectorOf_ne_nil (hsi : si < sectorsPerPage) (hraw : trailerStart ≤ raw.length) : sectorOf raw si ≠ [] := by
  obtain ⟨m, hpos, hm⟩ := sector_even hsi
  rw [← List.length_pos_iff_ne_nil, length_sectorOf hsi hraw]
  omega

theorem trailerStart_le (hraw : pageSize ≤ raw.length) : trailerStart ≤ raw.length := Nat.le_trans (by decide) hraw

theorem rekeyed_lengths (hraw : pageSize ≤ raw.length) :
    ∀ si < sectorsPerPage, (encodeSector e (steps si) (sectorOf raw si)).length = boundary (si + 1) - boundary si := by
  intro si hsi
  rw [length_encodeSector, length_sectorOf hsi (trailerStart_le hraw)]

theorem length_rekeyed_body (hraw : pageSize ≤ raw.length) :
    ((List.range sectorsPerPage).flatMap fun si => encodeSector e (steps si) (sectorOf raw si)).length = trailerStart := by
  rw [length_blocks (rekeyed_lengths hraw) (Nat.le_refl _), boundary_last]

theorem sectorOf_rekey (hraw : pageSize ≤ raw.length) (hsi : si < sectorsPerPage) :
    sectorOf (rekey raw e steps) si = encodeSector e (steps si) (sectorOf raw si) :=
  sectorOf_blocks (rekeyed_lengths hraw) _ hsi

theorem length_rekey (hraw : pageSize ≤ raw.length) : pageSize ≤ (rekey raw e steps).length := by
  rw [rekey, List.length_append, length_rekeyed_body hraw, List.length_drop]
  have := trailerStart_le hraw
  omega

theorem trailer_rekey (hraw : pageSize ≤ raw.length) :
    ((rekey raw e steps).take pageSize).drop trailerStart = (raw.take pageSize).drop trailerStart := by
  rw [List.drop_take, List.drop_take, rekey, List.drop_left' (length_rekeyed_body hraw)]

theorem apBase_add (pn si : Nat) (bv e : UInt8) : apBase pn si (bv + e) = apBase pn si bv + e := by
  rw [apBase, apBase]
  ring

theorem plainSector_rekey (hraw : pageSize ≤ raw.length) (hsi : si < sectorsPerPage) (pn : Nat) (bv : UInt8)
    (huntied : (recoverStepConfidence (sectorOf raw si) (apBase pn si bv) si).bestPeakTied = false) :
    plainSector (rekey raw e steps) pn (bv + e) si = plainSector raw pn bv si := by
  rw [plainSector, plainSector, sectorOf_rekey hraw hsi, apBase_add, plainUnder_rekeyed,
    chosenStep_rekeyed (sectorOf_ne_nil hsi (trailerStart_le hraw)) _ _ _ _ huntied, add_sub_cancel_right]

theorem sameFinding_rekey (hraw : pageSize ≤ raw.length) (hsi : si < sectorsPerPage) (pn : Nat) (bv : UInt8) :
    SameFinding (steps si) (recoverStepConfidence (sectorOf raw si) (apBase pn si bv) si)
      (recoverStepConfidence (sectorOf (rekey raw e steps) si) (apBase pn si (bv + e)) si) := by
  rw [sectorOf_rekey hraw hsi, apBase_add]
  exact sameFinding_rekeyed (sectorOf_ne_nil hsi (trailerStart_le hraw)) _ _ _ _

theorem length_filter_map {α : Type} {f g : α → ApSectorRecoveryConfidence} {xs : List α}
    (h : ∀ x ∈ xs, (g x).bestPeakTied = (f x).bestPeakTied) :
    ((xs.map g).filter (·.bestPeakTied)).length = ((xs.map f).filter (·.bestPeakTied)).length := by
  rw [← List.countP_eq_length_filter, ← List.countP_eq_length_filter, List.countP_map, List.countP_map]
  apply List.countP_congr
  intro x hx
  rw [Function.comp_apply, Function.comp_apply, h x hx]

theorem untied_of_none {α : Type} {f : α → ApSectorRecoveryConfidence} {xs : List α}
    (h : ((xs.map f).filter (·.bestPeakTied)).length = 0) : ∀ x ∈ xs, (f x).bestPeakTied = false := by
  rw [List.length_eq_zero_iff, List.filter_eq_nil_iff, List.forall_mem_map] at h
  intro x hx
  exact Bool.eq_false_of_not_eq_true (h x hx)

end Pages

/-- Raising the fill of a page by any progression of its own in each sector, and the calibration
byte with it, moves the steps that are found and nothing else; what is not tied decodes alike. -/
theorem deobfuscateWithBvAndConfidence_rekey (raw : Bytes) (hraw : pageSize ≤ raw.length) (pn : Nat) (bv e : UInt8)
    (steps : Nat → UInt8) :
    ∃ out confidence out' confidence', deobfuscateWithBvAndConfidence raw pn bv = some (out, confidence) ∧
      deobfuscateWithBvAndConfidence (rekey raw e steps) pn (bv + e) = some (out', confidence') ∧
      (∀ si < sectorsPerPage, ∃ found found', confidence.sectors[si]? = some found ∧
        confidence'.sectors[si]? = some found' ∧ SameFinding (steps si) found found' ∧
        (found.bestPeakTied = false → sectorOf out' si = sectorOf out si)) ∧
      confidence'.tiedSectorCount = confidence.tiedSectorCount ∧
      out'.drop trailerStart = out.drop trailerStart ∧
      (confidence.tiedSectorCount = 0 → out' = out) := by
  have hraw' := @length_rekey raw e steps hraw
  rw [deobfuscateWithBvAndConfidence_eq hraw, deobfuscateWithBvAndConfidence_eq hraw', trailer_rekey hraw]
  refine ⟨_, _, _, _, rfl, rfl, ?_, ?_, ?_, ?_⟩
  · intro si hsi
    refine ⟨_, _, ?_, ?_, @sameFinding_rekey raw e steps si hraw hsi pn bv, ?_⟩
    · rw [List.getElem?_map, List.getElem?_range hsi]
      rfl
    · rw [List.getElem?_map, List.getElem?_range hsi]
      rfl
    · intro huntied
      rw [sectorOf_blocks (plainSector_lengths hraw') _ hsi, sectorOf_blocks (plainSector_lengths hraw) _ hsi,
        plainSector_rekey hraw hsi pn bv huntied]
  · simp only
    apply length_filter_map
    intro si hsi
    exact (sameFinding_rekey hraw (List.mem_range.mp hsi) pn bv).bestPeakTied
  · rw [List.drop_left' (length_body hraw' _), List.drop_left' (length_body hraw _)]
  · intro hnone
    simp only at hnone
    have huntied := untied_of_none hnone
    have hsectors : (List.range sectorsPerPage).flatMap (plainSector (rekey raw e steps) pn (bv + e)) =
        (List.range sectorsPerPage).flatMap (plainSector raw pn bv) := by
      apply List.flatMap_congr
      intro si hsi
      exact plainSector_rekey hraw (List.mem_range.mp hsi) pn bv (huntied si hsi)
    rw [hsectors]

theorem deobfuscateWithBvAndConfidence_rekey_zeros :
    ∃ out confidence out' confidence',
      deobfuscateWithBvAndConfidence (List.replicate pageSize 0) 5 9 = some (out, confidence) ∧
      deobfuscateWithBvAndConfidence (rekey (List.replicate pageSize 0) 3 (fun si => UInt8.ofNat si)) 5 (9 + 3) =
        some (out', confidence') ∧ confidence'.tiedSectorCount = confidence.tiedSectorCount := by
  obtain ⟨out, confidence, out', confidence', h, h', -, htied, -⟩ :=
    deobfuscateWithBvAndConfidence_rekey (List.replicate pageSize 0) List.length_replicate.ge 5 9 3
      (fun si => UInt8.ofNat si)
  exact ⟨out, confidence, out', confidence', h, h', htied⟩

section RoundTrips

variable {plain trailer : Bytes} {pn si : Nat} {bv : UInt8} {steps : Nat → UInt8}

theorem plainUnder_eq_self_iff {sec : Bytes} (hlong : 2 ≤ sec.length) (s : UInt8) : plainUnder sec 0 s = sec ↔ s = 0 := by
  constructor
  · intro h
    have hsecond := congrArg (·[1]?) h
    simp only [plainUnder, List.getElem?_mapIdx, List.getElem?_eq_getElem (show 1 < sec.length by omega),
      Option.map_some, Option.some.injEq, strideAt] at hsecond
    calc s = sec[1] - (sec[1] - 0 - UInt8.ofNat 1 * s) := by simp
      _ = 0 := by rw [hsecond, sub_self]
  · rintro rfl
    rw [plainUnder]
    apply List.ext_getElem?
    intro i
    rw [List.getElem?_mapIdx]
    cases sec[i]? with
    | none => rfl
    | some b => simp [strideAt]

theorem two_le_length_sectorOf (hplain : plain.length = trailerStart) (hsi : si < sectorsPerPage) :
    2 ≤ (sectorOf plain si).length := by
  obtain ⟨m, hpos, hm⟩ := sector_even hsi
  rw [length_sectorOf hsi hplain.ge]
  omega

def plainPeak (plain : Bytes) (si : Nat) : UInt8 → Nat := stepPeak (sectorOf plain si) 0

/-- The step that is found in an encoded sector is the least of those under which the
plaintext peaks highest, each counted from the step of the sector. -/
theorem chosen_encodePage (hplain : plain.length = trailerStart) (hsi : si < sectorsPerPage) :
    IsLeast {s | ∀ t, plainPeak plain si (t - steps si) ≤ plainPeak plain si (s - steps si)}
      (recoverStepConfidence (sectorOf (encodePage pn bv steps plain trailer) si) (apBase pn si bv) si).chosenStep := by
  have h := ranked_rekeyed (sectorOf_ne_nil hsi hplain.ge) 0 (apBase pn si bv) (steps si) si
  rw [zero_add] at h
  rw [sectorOf_encodePage hplain hsi]
  exact h.chosen

theorem plainSector_encodePage (hplain : plain.length = trailerStart) (hsi : si < sectorsPerPage) :
    plainSector (encodePage pn bv steps plain trailer) pn bv si = sectorOf plain si ↔
      IsLeast {s | ∀ t, plainPeak plain si (t - steps si) ≤ plainPeak plain si (s - steps si)} (steps si) := by
  have hchosen := @chosen_encodePage plain trailer pn si bv steps hplain hsi
  have hunder (s : UInt8) : plainUnder (sectorOf (encodePage pn bv steps plain trailer) si) (apBase pn si bv) s =
      plainUnder (sectorOf plain si) 0 (s - steps si) := by
    rw [sectorOf_encodePage hplain hsi]
    have h := plainUnder_rekeyed (sectorOf plain si) 0 (apBase pn si bv) (steps si) s
    rwa [zero_add] at h
  rw [plainSector, hunder, plainUnder_eq_self_iff (two_le_length_sectorOf hplain hsi), sub_eq_zero]
  constructor
  · intro h
    rwa [h] at hchosen
  · intro h
    exact UInt8.le_antisymm (hchosen.2 h.1) (h.2 hchosen.1)

theorem sectors_eq_iff {out : Bytes} (hout : out.length = trailerStart) (hplain : plain.length = trailerStart) :
    out = plain ↔ ∀ si < sectorsPerPage, sectorOf out si = sectorOf plain si := by
  constructor
  · rintro rfl _ _
    rfl
  · intro h
    rw [← flatMap_all_sectors hout, ← flatMap_all_sectors hplain]
    apply List.flatMap_congr
    intro si hsi
    exact h si (List.mem_range.mp hsi)

theorem deobfuscateWithBv_encodePage_eq_iff (hplain : plain.length = trailerStart)
    (htrailer : trailer.length = pageSize - trailerStart) :
    deobfuscateWithBv (encodePage pn bv steps plain trailer) pn bv = some (plain ++ trailer) ↔
      ∀ si < sectorsPerPage,
        IsLeast {s | ∀ t, plainPeak plain si (t - steps si) ≤ plainPeak plain si (s - steps si)} (steps si) := by
  have hraw := (@encodePage_size pn bv steps _ _ hplain htrailer).ge
  have hlength := @length_body _ pn hraw bv
  have hkept : ((encodePage pn bv steps plain trailer).take pageSize).drop trailerStart = trailer := by
    rw [← @encodePage_size pn bv steps _ _ hplain htrailer, List.take_length, drop_encodePage hplain]
  rw [deobfuscateWithBv_eq hraw, hkept, Option.some.injEq, List.append_left_inj, sectors_eq_iff hlength hplain]
  refine forall₂_congr fun si hsi => ?_
  rw [← plainSector_encodePage hplain hsi]
  have hsector : sectorOf ((List.range sectorsPerPage).flatMap
      (plainSector (encodePage pn bv steps plain trailer) pn bv)) si =
        plainSector (encodePage pn bv steps plain trailer) pn bv si := by
    have h := sectorOf_blocks (@plainSector_lengths _ pn bv hraw) [] hsi
    rwa [List.append_nil] at h
  rw [hsector]

/-- The pages that come back under every key are those of which each sector repeats a byte
more often as it stands than under any other step. -/
theorem restores_every_key_iff (hplain : plain.length = trailerStart)
    (htrailer : trailer.length = pageSize - trailerStart) :
    (∀ pn bv steps, deobfuscateWithBv (encodePage pn bv steps plain trailer) pn bv = some (plain ++ trailer)) ↔
      ∀ si < sectorsPerPage, ∀ s, s ≠ 0 → plainPeak plain si s < plainPeak plain si 0 := by
  simp only [deobfuscateWithBv_encodePage_eq_iff hplain htrailer]
  constructor
  · intro h si hsi s hs
    by_contra hle
    rw [Nat.not_lt] at hle
    -- Under the key -s the step 0 takes off s, which serves as well and comes first.
    obtain ⟨hhighest, hleast⟩ := h 0 0 (fun _ => -s) si hsi
    have hzero : (0 : UInt8) ∈ {s' | ∀ t, plainPeak plain si (t - -s) ≤ plainPeak plain si (s' - -s)} := by
      intro t
      calc plainPeak plain si (t - -s) ≤ plainPeak plain si (-s - -s) := hhighest t
        _ = plainPeak plain si 0 := by rw [sub_self]
        _ ≤ plainPeak plain si s := hle
        _ = plainPeak plain si (0 - -s) := by rw [zero_sub, neg_neg]
    have hneg : -s = 0 := UInt8.le_antisymm (hleast hzero) (UInt8.zero_le)
    exact hs (neg_eq_zero.mp hneg)
  · intro h pn bv steps si hsi
    have hbelow (s : UInt8) : plainPeak plain si s ≤ plainPeak plain si 0 := by
      by_cases hs : s = 0
      · rw [hs]
      · exact (h si hsi s hs).le
    constructor
    · intro t
      rw [sub_self]
      exact hbelow _
    · intro s hs
      have hs := hs (steps si)
      rw [sub_self] at hs
      have hzero : s - steps si = 0 := by
        by_contra hne
        exact Nat.not_lt.mpr hs (h si hsi _ hne)
      rw [sub_eq_zero.mp hzero]
      exact UInt8.le_refl _

/-- Which pages deobfuscation under the right calibration byte gives back, under one key and under all. -/
theorem encodePage_restored_iff (plain trailer : Bytes) (hplain : plain.length = trailerStart)
    (htrailer : trailer.length = pageSize - trailerStart) :
    (∀ pn bv steps, deobfuscateWithBv (encodePage pn bv steps plain trailer) pn bv = some (plain ++ trailer) ↔
      ∀ si < sectorsPerPage,
        IsLeast {s | ∀ t, plainPeak plain si (t - steps si) ≤ plainPeak plain si (s - steps si)} (steps si)) ∧
    ((∀ pn bv steps, deobfuscateWithBv (encodePage pn bv steps plain trailer) pn bv = some (plain ++ trailer)) ↔
      ∀ si < sectorsPerPage, ∀ s, s ≠ 0 → plainPeak plain si s < plainPeak plain si 0) :=
  ⟨fun _ _ _ => deobfuscateWithBv_encodePage_eq_iff hplain htrailer, restores_every_key_iff hplain htrailer⟩

theorem encodePage_restored_iff_zeros :
    (∀ pn bv steps, deobfuscateWithBv (encodePage pn bv steps zeroBody pureTrailer) pn bv =
        some (zeroBody ++ pureTrailer)) ↔
      ∀ si < sectorsPerPage, ∀ s, s ≠ 0 → plainPeak zeroBody si s < plainPeak zeroBody si 0 :=
  (encodePage_restored_iff zeroBody pureTrailer List.length_replicate rfl).2

end RoundTrips

end OpenSqlAny.ApRekeying
