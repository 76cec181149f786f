import Mathlib.Data.List.Nodup
import OpenSqlAny.ApPages

namespace OpenSqlAny.ApSteps

open Library.LittleEndian Library.Histograms PageStores ApFill ApSectors ApPages
open scoped UInt8.CommRing

section Bases

variable {sec plain : Bytes} {base step v : UInt8}

theorem peakOf_rotate (hist : UInt8 → Nat) (v : UInt8) : peakOf (fun b => hist (b + v)) = peakOf hist := by
  apply Nat.le_antisymm
  · exact peakOf_le fun b => le_peakOf hist (b + v)
  · apply peakOf_le
    intro b
    have h := le_peakOf (fun b => hist (b + v)) (b - v)
    rw [sub_add_cancel] at h
    exact h

theorem tally_map_sub (bytes : Bytes) (v : UInt8) :
    tally (bytes.map (· - v)) = fun b => tally bytes (b + v) := by
  funext b
  rw [tally_apply, tally_apply, List.count_eq_countP, List.countP_map, List.count_eq_countP]
  apply List.countP_congr
  intro p _
  rw [Function.comp_apply, beq_iff_eq, beq_iff_eq, sub_eq_iff_eq_add]

theorem plainUnder_add (sec : Bytes) (base step v : UInt8) :
    plainUnder sec (base + v) step = (plainUnder sec base step).map (· - v) := by
  rw [plainUnder, plainUnder]
  apply List.ext_getElem?
  intro i
  rw [List.getElem?_map, List.getElem?_mapIdx, List.getElem?_mapIdx, Option.map_map]
  congr 1
  funext b
  rw [Function.comp_apply]
  ring

/-- A step leaves the same peak under every base. -/
theorem peak_plainUnder_add (sec : Bytes) (base step v : UInt8) :
    peakOf (tally (plainUnder sec (base + v) step)) = peakOf (tally (plainUnder sec base step)) := by
  rw [plainUnder_add, tally_map_sub, peakOf_rotate]

theorem encodeSector_sub (base step v : UInt8) (plain : Bytes) :
    encodeSector (base + v) step (plain.map (· - v)) = encodeSector base step plain := by
  rw [encodeSector, encodeSector]
  apply List.ext_getElem?
  intro i
  rw [List.getElem?_mapIdx, List.getElem?_mapIdx, List.getElem?_map, Option.map_map]
  congr 1
  funext p
  rw [Function.comp_apply]
  ring

/-- More than three quarters of the bytes are this one. -/
def Dominated (v : UInt8) (plain : Bytes) : Prop := 3 * plain.length < 4 * plain.count v

theorem Dominated.sparse (h : Dominated v plain) : Sparse (plain.map (· - v)) := by
  have hcount := congrFun (tally_map_sub plain v) 0
  rw [tally_apply, tally_apply, zero_add] at hcount
  rw [Sparse, List.length_map, hcount]
  exact h

theorem Dominated.peak_lt {m : Nat} (h : Dominated v plain) (hlen : plain.length = 2 * m) {s : UInt8}
    (hs : s ≠ step) :
    peakOf (tally (plainUnder (encodeSector base step plain) base s)) <
      peakOf (tally (plainUnder (encodeSector base step plain) base step)) := by
  have hlength : (plain.map (· - v)).length = 2 * m := by rw [List.length_map, hlen]
  rw [← peak_plainUnder_add _ base s v, ← peak_plainUnder_add _ base step v, ← encodeSector_sub base step v]
  exact lt_of_lt_of_le (peak_encodeSector_other hlength h.sparse hs) peak_encodeSector_self

end Bases

section Searches

variable {peak : UInt8 → Nat} {best : UInt8} {n : Nat} {steps : List UInt8} {search : StepSearch}

def considerAll (peak : UInt8 → Nat) (search : StepSearch) (steps : List UInt8) : StepSearch :=
  steps.foldl (fun search s => search.consider s (peak s)) search

theorem considerAll_below (hbelow : ∀ s ∈ steps, peak s < n) (h : search.bestCount < n) :
    (considerAll peak search steps).bestCount < n := by
  induction steps generalizing search with
  | nil => exact h
  | cons s steps ih =>
      obtain ⟨hs, hsteps⟩ := List.forall_mem_cons.mp hbelow
      apply ih hsteps
      change (search.consider s (peak s)).bestCount < n
      by_cases hpeak : peak s > search.bestCount
      · rw [StepSearch.consider, if_pos hpeak]
        exact hs
      · rw [StepSearch.consider, if_neg hpeak]
        exact h

/-- One step leads the search alone, with this peak. -/
structure LeadsAlone (best : UInt8) (n : Nat) (search : StepSearch) : Prop where
  best : search.bestStep = best
  count : search.bestCount = n
  runnerUp : search.runnerUpCount < n
  alone : search.bestPeakTied = false

theorem leadsAlone_consider (h : search.bestCount < peak best) :
    LeadsAlone best (peak best) (search.consider best (peak best)) := by
  rw [StepSearch.consider, if_pos h]
  exact ⟨rfl, rfl, h, rfl⟩

theorem LeadsAlone.considerAll (h : LeadsAlone best n search) (hbelow : ∀ s ∈ steps, peak s < n) :
    LeadsAlone best n (considerAll peak search steps) := by
  induction steps generalizing search with
  | nil => exact h
  | cons s steps ih =>
      obtain ⟨hs, hsteps⟩ := List.forall_mem_cons.mp hbelow
      refine ih ?_ hsteps
      have hcount := h.count
      have hpeak : ¬peak s > search.bestCount := by omega
      change LeadsAlone best n (search.consider s (peak s))
      rw [StepSearch.consider, if_neg hpeak]
      refine ⟨h.best, h.count, Nat.max_lt.mpr ⟨h.runnerUp, hs⟩, ?_⟩
      simp only [h.alone, Bool.false_or, decide_eq_false_iff_not]
      omega

variable (peak) in
theorem leadsAlone_of_unique (hnodup : steps.Nodup) (hmem : best ∈ steps) (hpos : 0 < peak best)
    (hunique : ∀ s, s ≠ best → peak s < peak best) :
    LeadsAlone best (peak best) (considerAll peak ⟨0, 0, 0, false⟩ steps) := by
  obtain ⟨before, after, rfl⟩ := List.append_of_mem hmem
  have hmiddle := List.nodup_middle.mp hnodup
  have hfresh := (List.nodup_cons.mp hmiddle).1
  rw [List.mem_append, not_or] at hfresh
  have hbefore : ∀ s ∈ before, peak s < peak best := by
    intro s hs
    exact hunique s fun heq => hfresh.1 (heq ▸ hs)
  have hafter : ∀ s ∈ after, peak s < peak best := by
    intro s hs
    exact hunique s fun heq => hfresh.2 (heq ▸ hs)
  rw [considerAll, List.foldl_append, List.foldl_cons]
  exact (leadsAlone_consider (considerAll_below hbefore hpos)).considerAll hafter

theorem nodup_allBytes : allBytes.Nodup := by
  rw [allBytes]
  refine List.Nodup.map_on ?_ List.nodup_range
  intro i hi j hj heq
  rw [List.mem_range] at hi hj
  have h := congrArg UInt8.toNat heq
  rw [UInt8.toNat_ofNat', UInt8.toNat_ofNat', Nat.mod_eq_of_lt hi, Nat.mod_eq_of_lt hj] at h
  exact h

variable {sec : Bytes} {base : UInt8}

theorem searchStep_eq (sec : Bytes) (base : UInt8) : searchStep sec base =
    considerAll (fun s => peakOf (tally (plainUnder sec base s))) ⟨0, 0, 0, false⟩ allBytes := by
  rw [searchStep, considerAll]

theorem searchStep_leadsAlone (hpos : 0 < peakOf (tally (plainUnder sec base best)))
    (hunique : ∀ s, s ≠ best →
      peakOf (tally (plainUnder sec base s)) < peakOf (tally (plainUnder sec base best))) :
    LeadsAlone best (peakOf (tally (plainUnder sec base best))) (searchStep sec base) := by
  rw [searchStep_eq]
  exact leadsAlone_of_unique (fun s => peakOf (tally (plainUnder sec base s))) nodup_allBytes
    (mem_allBytes best) hpos hunique

/-- The evidence of a sector names its step, and no other step comes near it. -/
structure Unambiguous (si : Nat) (step : UInt8) (evidence : ApSectorRecoveryConfidence) : Prop where
  sectorIndex : evidence.sectorIndex = si
  chosenStep : evidence.chosenStep = step
  bestPeakTied : evidence.bestPeakTied = false
  runnerUpPeak : evidence.runnerUpPeak < evidence.bestPeak

-- the search is a variable here too, so that the kernel does not run it
theorem unambiguous_of_leadsAlone (si : Nat) {step : UInt8} (hsearch : search = searchStep sec base)
    (h : LeadsAlone step n search) : Unambiguous si step (recoverStepConfidence sec base si) := by
  rw [recoverStepConfidence, ← hsearch]
  exact ⟨rfl, h.best, h.alone, lt_of_lt_of_eq h.runnerUp h.count.symm⟩

theorem Dominated.unambiguous {plain : Bytes} {step v : UInt8} {m : Nat} (h : Dominated v plain)
    (hlen : plain.length = 2 * m) (si : Nat) :
    Unambiguous si step (recoverStepConfidence (encodeSector base step plain) base si) := by
  have hpeaks (s : UInt8) (hs : s ≠ step) :
      peakOf (tally (plainUnder (encodeSector base step plain) base s)) <
        peakOf (tally (plainUnder (encodeSector base step plain) base step)) := h.peak_lt hlen hs
  have hpos : 0 < peakOf (tally (plainUnder (encodeSector base step plain) base step)) := by
    have hother : step + 1 ≠ step := by simp
    exact lt_of_le_of_lt (Nat.zero_le _) (hpeaks (step + 1) hother)
  exact unambiguous_of_leadsAlone si rfl (searchStep_leadsAlone hpos hpeaks)

end Searches

section Pages

variable {pn : Nat} {bv : UInt8} {steps : Nat → UInt8} {plain trailer : Bytes}

def DominatedPage (plain : Bytes) : Prop := ∀ si < sectorsPerPage, ∃ v, Dominated v (sectorOf plain si)

theorem DominatedPage.unambiguous (h : DominatedPage plain) (hplain : plain.length = trailerStart) {si : Nat}
    (hsi : si < sectorsPerPage) : Unambiguous si (steps si)
      (recoverStepConfidence (encodeSector (apBase pn si bv) (steps si) (sectorOf plain si)) (apBase pn si bv) si) := by
  obtain ⟨v, hdominated⟩ := h si hsi
  obtain ⟨m, heven⟩ := sectorOf_even hplain hsi
  exact hdominated.unambiguous heven si

/-- Under the right bv a dominated page comes back whole, and every sector's step beats all others. -/
theorem deobfuscateWithBvAndConfidence_encodePage (pn : Nat) (bv : UInt8) (steps : Nat → UInt8)
    (hplain : plain.length = trailerStart) (htrailer : trailer.length = pageSize - trailerStart)
    (hdominated : DominatedPage plain) :
    ∃ confidence, deobfuscateWithBvAndConfidence (encodePage pn bv steps plain trailer) pn bv =
        some (plain ++ trailer, confidence) ∧
      confidence.sectors.length = sectorsPerPage ∧
      (∀ si evidence, confidence.sectors[si]? = some evidence → Unambiguous si (steps si) evidence) ∧
      confidence.tiedSectorCount = 0 := by
  have hsteps (si : Nat) (hsi : si < sectorsPerPage) : Unambiguous si (steps si) (recoverStepConfidence
      (encodeSector (apBase pn si bv) (steps si) (sectorOf plain si)) (apBase pn si bv) si) :=
    hdominated.unambiguous hplain hsi
  have hevidence (si : Nat) (hsi : si < sectorsPerPage) : Unambiguous si (steps si) (recoverStepConfidence
      (sectorOf (encodePage pn bv steps plain trailer) si) (apBase pn si bv) si) := by
    rw [sectorOf_encodePage hplain hsi]
    exact hsteps si hsi
  rw [deobfuscateWithBvAndConfidence_eq (encodePage_size hplain htrailer).ge,
    plainSectors_encodePage hplain htrailer fun si hsi => (hsteps si hsi).chosenStep]
  refine ⟨_, rfl, ?_, ?_, ?_⟩
  · rw [List.length_map, List.length_range]
  · intro si evidence hsi
    rw [List.getElem?_map, Option.map_eq_some_iff] at hsi
    obtain ⟨sector, hsector, rfl⟩ := hsi
    obtain ⟨hlt, rfl⟩ := List.getElem?_eq_some_iff.mp hsector
    rw [List.getElem_range]
    rw [List.length_range] at hlt
    exact hevidence si hlt
  · rw [List.length_eq_zero_iff, List.filter_eq_nil_iff]
    intro evidence hmem
    obtain ⟨si, hsi, rfl⟩ := List.mem_map.mp hmem
    rw [(hevidence si (List.mem_range.mp hsi)).bestPeakTied]
    exact Bool.false_ne_true

theorem dominatedPage_replicate (v : UInt8) : DominatedPage (List.replicate trailerStart v) := by
  intro si hsi
  have hle : boundary (si + 1) ≤ trailerStart := Nat.min_le_right _ _
  obtain ⟨m, hpos, hm⟩ := sector_even hsi
  refine ⟨v, ?_⟩
  rw [sectorOf_eq hsi, List.take_replicate, List.drop_replicate, Nat.min_eq_left hle, Dominated,
    List.length_replicate, List.count_replicate_self]
  omega

theorem deobfuscateWithBvAndConfidence_encodePage_sevens :
    ∃ confidence, deobfuscateWithBvAndConfidence
        (encodePage 5 3 UInt8.ofNat (List.replicate trailerStart 7) pureTrailer) 5 3 =
        some (List.replicate trailerStart 7 ++ pureTrailer, confidence) ∧
      confidence.sectors.length = sectorsPerPage ∧
      (∀ si evidence, confidence.sectors[si]? = some evidence → Unambiguous si (UInt8.ofNat si) evidence) ∧
      confidence.tiedSectorCount = 0 :=
  deobfuscateWithBvAndConfidence_encodePage 5 3 UInt8.ofNat List.length_replicate rfl (dominatedPage_replicate 7)

end Pages

end OpenSqlAny.ApSteps
