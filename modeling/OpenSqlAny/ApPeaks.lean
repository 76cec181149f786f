import OpenSqlAny.ApSteps

namespace OpenSqlAny.ApPeaks

open Library.LittleEndian Library.Histograms ApFill ApSectors ApSteps

section TopTwo

variable {peak : UInt8 → Nat} {before after steps : List UInt8} {search : StepSearch} {s : UInt8}

/-- What the search knows of the steps before and after the one that it prefers. -/
structure TopTwo (peak : UInt8 → Nat) (before after : List UInt8) (search : StepSearch) : Prop where
  best : peak search.bestStep = search.bestCount
  earlier : ∀ s ∈ before, peak s < search.bestCount
  highest : ∀ s ∈ before ++ after, peak s ≤ search.bestCount
  runnerUp : search.runnerUpCount = ((before ++ after).map peak).foldl max 0
  tied : search.bestPeakTied = true ↔ ∃ s ∈ before ++ after, peak s = search.bestCount

theorem topTwo_first (h : 0 < peak s) : TopTwo peak [] [] (StepSearch.consider ⟨0, 0, 0, false⟩ s (peak s)) := by
  rw [StepSearch.consider, if_pos h]
  exact ⟨rfl, by simp, by simp, rfl, by simp⟩

theorem TopTwo.consider_higher (h : TopTwo peak before after search) (hpeak : peak s > search.bestCount) :
    TopTwo peak (before ++ search.bestStep :: after) [] (search.consider s (peak s)) := by
  have hseen : ∀ t ∈ before ++ search.bestStep :: after, peak t ≤ search.bestCount := by
    intro t ht
    rcases List.mem_cons.mp (List.perm_middle.mem_iff.mp ht) with rfl | ht
    · exact h.best.le
    · exact h.highest t ht
  have hbelow : ∀ t ∈ before ++ search.bestStep :: after, peak t < peak s :=
    fun t ht => lt_of_le_of_lt (hseen t ht) hpeak
  have hmem : peak search.bestStep ∈ (before ++ search.bestStep :: after).map peak :=
    List.mem_map_of_mem (List.mem_append_right _ List.mem_cons_self)
  rw [StepSearch.consider, if_pos hpeak]
  constructor
  · rfl
  · exact hbelow
  · rw [List.append_nil]
    exact fun t ht => (hbelow t ht).le
  · rw [List.append_nil]
    apply Nat.le_antisymm
    · rw [← h.best]
      exact le_foldl_max hmem
    · apply foldl_max_le_iff.mpr
      exact ⟨Nat.zero_le _, List.forall_mem_map.mpr hseen⟩
  · rw [List.append_nil]
    refine iff_of_false Bool.false_ne_true ?_
    intro htie
    obtain ⟨t, ht, heq⟩ := htie
    exact (hbelow t ht).ne heq

theorem TopTwo.consider_later (h : TopTwo peak before after search) (hpeak : ¬peak s > search.bestCount) :
    TopTwo peak before (after ++ [s]) (search.consider s (peak s)) := by
  rw [StepSearch.consider, if_neg hpeak]
  constructor
  · exact h.best
  · exact h.earlier
  · rw [← List.append_assoc, List.forall_mem_append, List.forall_mem_singleton]
    exact ⟨h.highest, Nat.not_lt.mp hpeak⟩
  · rw [← List.append_assoc, List.map_append, List.foldl_append, ← h.runnerUp]
    rfl
  · rw [← List.append_assoc, Bool.or_eq_true, h.tied, decide_eq_true_eq]
    simp only [List.mem_append, List.mem_singleton, or_and_right, exists_or, exists_eq_left]

theorem considerAll_topTwo (hne : steps ≠ []) (hpos : ∀ s ∈ steps, 0 < peak s) :
    ∃ before after, steps = before ++ (considerAll peak ⟨0, 0, 0, false⟩ steps).bestStep :: after ∧
      TopTwo peak before after (considerAll peak ⟨0, 0, 0, false⟩ steps) := by
  induction steps using List.reverseRecOn with
  | nil => exact absurd rfl hne
  | append_singleton steps s ih =>
      obtain ⟨hsteps, hs⟩ := List.forall_mem_append.mp hpos
      rw [List.forall_mem_singleton] at hs
      have hlast : considerAll peak ⟨0, 0, 0, false⟩ (steps ++ [s]) =
          (considerAll peak ⟨0, 0, 0, false⟩ steps).consider s (peak s) := by
        rw [considerAll, List.foldl_append, List.foldl_cons, List.foldl_nil, ← considerAll]
      rw [hlast]
      by_cases hfirst : steps = []
      · subst hfirst
        refine ⟨[], [], ?_, topTwo_first hs⟩
        change [s] = [(StepSearch.consider ⟨0, 0, 0, false⟩ s (peak s)).bestStep]
        rw [StepSearch.consider, if_pos hs]
      obtain ⟨before, after, hsplit, h⟩ := ih hfirst hsteps
      generalize considerAll peak ⟨0, 0, 0, false⟩ steps = search at hsplit h ⊢
      by_cases hpeak : peak s > search.bestCount
      · refine ⟨before ++ search.bestStep :: after, [], ?_, h.consider_higher hpeak⟩
        rw [StepSearch.consider, if_pos hpeak, ← hsplit]
      · refine ⟨before, after ++ [s], ?_, h.consider_later hpeak⟩
        rw [StepSearch.consider, if_neg hpeak, hsplit, List.append_assoc, List.cons_append]

end TopTwo

section AllSteps

variable {peak : UInt8 → Nat} {before after : List UInt8} {search : StepSearch}

theorem allBytes_ascending : allBytes.Pairwise (· < ·) := by
  rw [allBytes, List.pairwise_map]
  refine List.pairwise_lt_range.imp_of_mem ?_
  intro i j hi hj hlt
  rw [List.mem_range] at hi hj
  rw [UInt8.lt_iff_toNat_lt, UInt8.toNat_ofNat', UInt8.toNat_ofNat', Nat.mod_eq_of_lt hi, Nat.mod_eq_of_lt hj]
  exact hlt

/-- The step is the least of those with the highest peak, and the runner-up is the highest of the others. -/
structure Ranked (peak : UInt8 → Nat) (step : UInt8) (high second : Nat) (shared : Bool) : Prop where
  chosen : IsLeast {s | ∀ t, peak t ≤ peak s} step
  best : high = peak step
  runnerUp : IsGreatest {n | ∃ s, s ≠ step ∧ peak s = n} second
  tied_iff_other : shared = true ↔ ∃ s, s ≠ step ∧ peak s = high
  tied_iff_runnerUp : shared = true ↔ second = high

theorem mem_others_iff (hsplit : allBytes = before ++ search.bestStep :: after) {s : UInt8} :
    s ∈ before ++ after ↔ s ≠ search.bestStep := by
  have hnodup := nodup_allBytes
  rw [hsplit, List.nodup_middle, List.nodup_cons] at hnodup
  constructor
  · rintro hs rfl
    exact hnodup.1 hs
  · intro hne
    have hmem := mem_allBytes s
    rw [hsplit, List.perm_middle.mem_iff] at hmem
    exact (List.mem_cons.mp hmem).resolve_left hne

theorem TopTwo.highest_all (h : TopTwo peak before after search)
    (hsplit : allBytes = before ++ search.bestStep :: after) (s : UInt8) : peak s ≤ search.bestCount := by
  by_cases hs : s = search.bestStep
  · rw [hs]
    exact h.best.le
  · exact h.highest s ((mem_others_iff hsplit).mpr hs)

theorem TopTwo.chosen_isLeast (h : TopTwo peak before after search)
    (hsplit : allBytes = before ++ search.bestStep :: after) :
    IsLeast {s | ∀ t, peak t ≤ peak s} search.bestStep := by
  constructor
  · intro s
    rw [h.best]
    exact h.highest_all hsplit s
  · intro s hs
    have hascending := allBytes_ascending
    have hmem := mem_allBytes s
    rw [hsplit, List.pairwise_append, List.pairwise_cons] at hascending
    rw [hsplit, List.mem_append, List.mem_cons] at hmem
    rcases hmem with hbefore | rfl | hafter
    · exact absurd (h.earlier s hbefore) (h.best ▸ hs search.bestStep).not_gt
    · exact UInt8.le_refl _
    · exact UInt8.le_of_lt (hascending.2.1.1 s hafter)

theorem TopTwo.runnerUp_isGreatest (h : TopTwo peak before after search)
    (hsplit : allBytes = before ++ search.bestStep :: after) :
    IsGreatest {n | ∃ s, s ≠ search.bestStep ∧ peak s = n} search.runnerUpCount := by
  have hother : search.bestStep + 1 ∈ before ++ after := (mem_others_iff hsplit).mpr (by simp)
  have hgreatest := foldl_max_isGreatest peak (List.ne_nil_of_mem hother)
  rw [← h.runnerUp] at hgreatest
  simpa only [mem_others_iff hsplit] using hgreatest

theorem TopTwo.ranked (h : TopTwo peak before after search)
    (hsplit : allBytes = before ++ search.bestStep :: after) :
    Ranked peak search.bestStep search.bestCount search.runnerUpCount search.bestPeakTied := by
  have htied : search.bestPeakTied = true ↔ ∃ s, s ≠ search.bestStep ∧ peak s = search.bestCount := by
    rw [h.tied]
    exact exists_congr fun s => and_congr_left fun _ => mem_others_iff hsplit
  have hrunner := h.runnerUp_isGreatest hsplit
  refine ⟨h.chosen_isLeast hsplit, h.best.symm, hrunner, htied, ?_⟩
  rw [htied]
  constructor
  · intro ⟨s, hs, hpeak⟩
    obtain ⟨t, -, ht⟩ := hrunner.1
    exact Nat.le_antisymm (ht ▸ h.highest_all hsplit t) (hrunner.2 ⟨s, hs, hpeak⟩)
  · intro heq
    rw [← heq]
    exact hrunner.1

end AllSteps

section Sectors

variable {sec : Bytes} {base s : UInt8}

def stepPeak (sec : Bytes) (base s : UInt8) : Nat := peakOf (tally (plainUnder sec base s))

theorem stepPeak_isGreatest (sec : Bytes) (base s : UInt8) :
    IsGreatest {n | ∃ v, (plainUnder sec base s).count v = n} (stepPeak sec base s) := by
  have hgreatest := foldl_max_isGreatest (tally (plainUnder sec base s)) (List.ne_nil_of_mem (mem_allBytes 0))
  rw [← peakOf, ← stepPeak] at hgreatest
  simpa only [mem_allBytes, true_and, tally_apply] using hgreatest

theorem count_le_stepPeak (sec : Bytes) (base s v : UInt8) :
    (plainUnder sec base s).count v ≤ stepPeak sec base s := (stepPeak_isGreatest sec base s).2 ⟨v, rfl⟩

theorem stepPeak_pos (h : sec ≠ []) (base s : UInt8) : 0 < stepPeak sec base s := by
  have hne : plainUnder sec base s ≠ [] := by
    rw [← List.length_pos_iff_ne_nil, length_plainUnder]
    exact List.length_pos_of_ne_nil h
  obtain ⟨v, hv⟩ := List.exists_mem_of_ne_nil _ hne
  exact lt_of_lt_of_le (List.count_pos_iff.mpr hv) (count_le_stepPeak sec base s v)

theorem applyStream_full {out : Bytes} (h : out.length = sec.length) : applyStream sec base s out = plainUnder sec base s := by
  rw [applyStream, h, ← length_plainUnder sec base s, List.take_length, length_plainUnder, ← h, List.drop_length,
    List.append_nil]

/-- What the diagnostic of a sector says of the steps that the search compared. -/
structure Diagnosis (sec : Bytes) (base : UInt8) (evidence : ApSectorRecoveryConfidence) : Prop where
  peaks : ∀ s, IsGreatest {n | ∃ v, (plainUnder sec base s).count v = n} (stepPeak sec base s)
  counters : ∀ s v, tally (plainUnder sec base s) v < 2 ^ 16
  ranked : Ranked (stepPeak sec base) evidence.chosenStep evidence.bestPeak evidence.runnerUpPeak evidence.bestPeakTied
  zeros : ∀ out : Bytes, out.length = sec.length →
    evidence.zeroPlaintextCount = (applyStream sec base evidence.chosenStep out).count 0
  zeros_le : evidence.zeroPlaintextCount ≤ evidence.bestPeak

-- the search is a variable, so that the kernel does not run it
theorem diagnosis_of_search {search : StepSearch} (hsearch : search = searchStep sec base)
    (h : Ranked (stepPeak sec base) search.bestStep search.bestCount search.runnerUpCount search.bestPeakTied)
    (hshort : sec.length ≤ sectorSize) (si : Nat) : Diagnosis sec base (recoverStepConfidence sec base si) := by
  rw [recoverStepConfidence, ← hsearch]
  refine ⟨stepPeak_isGreatest sec base, ?_, h, ?_, ?_⟩
  · intro s v
    rw [tally_apply]
    calc (plainUnder sec base s).count v ≤ (plainUnder sec base s).length := List.count_le_length
      _ ≤ sectorSize := by rwa [length_plainUnder]
      _ < 2 ^ 16 := by decide
  · intro out hout
    rw [applyStream_full hout]
  · exact (count_le_stepPeak sec base search.bestStep 0).trans h.best.ge

/-- The diagnostic of a sector ranks all 256 steps as it says, whatever the sector holds. -/
theorem recoverStepConfidence_diagnosis (base : UInt8) (si : Nat) (hne : sec ≠ []) (hshort : sec.length ≤ 512) :
    Diagnosis sec base (recoverStepConfidence sec base si) := by
  obtain ⟨before, after, hsplit, h⟩ := considerAll_topTwo (List.ne_nil_of_mem (mem_allBytes 0))
    fun s _ => stepPeak_pos hne base s
  generalize hsearch : considerAll (stepPeak sec base) ⟨0, 0, 0, false⟩ allBytes = search at hsplit h
  exact diagnosis_of_search (hsearch.symm.trans (searchStep_eq sec base).symm) (h.ranked hsplit) hshort si

theorem recoverStepConfidence_diagnosis_three :
    Diagnosis [7, 9, 11] 5 (recoverStepConfidence [7, 9, 11] 5 0) :=
  recoverStepConfidence_diagnosis 5 0 (by simp) (by decide)

end Sectors

end OpenSqlAny.ApPeaks
