import Mathlib.Data.UInt
import Mathlib.Tactic.Ring
import OpenSqlAny.ApFill

namespace OpenSqlAny.ApSectors

open Library.LittleEndian Library.Histograms ApFill
open scoped UInt8.CommRing

theorem mem_allBytes (b : UInt8) : b ∈ allBytes := by
  rw [allBytes, List.mem_map]
  exact ⟨b.toNat, List.mem_range.mpr b.toNat_lt, UInt8.ofNat_toNat⟩

theorem lastPeak_of_unique {hist : UInt8 → Nat} {b : UInt8} (h : ∀ c, c ≠ b → hist c < hist b) :
    lastPeak hist = b := by
  rw [lastPeak, maxByKey_of_unique (mem_allBytes b) (fun c _ => h c), Option.getD_some]

theorem le_peakOf (hist : UInt8 → Nat) (b : UInt8) : hist b ≤ peakOf hist :=
  le_foldl_max (List.mem_map_of_mem (mem_allBytes b))

theorem peakOf_le {hist : UInt8 → Nat} {n : Nat} (h : ∀ b, hist b ≤ n) : peakOf hist ≤ n := by
  apply foldl_max_le_iff.mpr
  refine ⟨Nat.zero_le n, ?_⟩
  intro x hx
  obtain ⟨b, -, rfl⟩ := List.mem_map.mp hx
  exact h b

/-- A sector as it is stored: each plaintext byte raised by the fill. -/
def encodeSector (base step : UInt8) (plain : Bytes) : Bytes :=
  plain.mapIdx (fun i p => base + strideAt i step + p)

@[simp]
theorem length_encodeSector (base step : UInt8) (plain : Bytes) :
    (encodeSector base step plain).length = plain.length := by
  simp [encodeSector]

@[simp]
theorem length_plainUnder (sec : Bytes) (base step : UInt8) :
    (plainUnder sec base step).length = sec.length := by
  simp [plainUnder]

theorem plainUnder_encodeSector (base step : UInt8) (plain : Bytes) :
    plainUnder (encodeSector base step plain) base step = plain := by
  rw [plainUnder, encodeSector, List.mapIdx_mapIdx]
  apply List.mapIdx_eq_iff.mpr
  intro i
  cases h : plain[i]? with
  | none => rfl
  | some p =>
      have hback : base + strideAt i step + p - base - strideAt i step = p := by ring
      rw [Option.map_some, Function.comp_apply, hback]

/-- How often a value stands under a progression of step d that is added to the plaintext. -/
def shiftedCount (plain : Bytes) (d v : UInt8) : Nat :=
  (plain.mapIdx (fun i p => strideAt i d + p)).count v

theorem tally_encodeSector (base step c s v : UInt8) (plain : Bytes) :
    tally ((encodeSector base step plain).mapIdx (fun i b => b - c - strideAt i s)) v =
      shiftedCount plain (step - s) (v - base + c) := by
  rw [tally_apply, encodeSector, List.mapIdx_mapIdx, shiftedCount, count_mapIdx _ 0, count_mapIdx _ 0]
  apply List.countP_congr
  intro i _
  rw [decide_eq_true_eq, decide_eq_true_eq, Function.comp_apply, strideAt, strideAt, strideAt]
  constructor
  · rintro rfl
    ring
  · intro h
    have hstep : UInt8.ofNat i * step = v - base + c - plain.getD i 0 + UInt8.ofNat i * s := by
      rw [← h]
      ring
    rw [hstep]
    ring

def Sparse (plain : Bytes) : Prop := 3 * plain.length < 4 * plain.count 0

section Sparseness

variable {plain : Bytes} {d v : UInt8}

theorem strideAt_succ (i : Nat) (d : UInt8) : strideAt (i + 1) d = strideAt i d + d := by
  rw [strideAt, strideAt, UInt8.ofNat_add, UInt8.ofNat_one, add_mul, one_mul]

theorem shiftedCount_zero : shiftedCount plain 0 v = plain.count v := by
  have hid : (fun (i : Nat) (p : UInt8) => strideAt i 0 + p) = fun _ p => p := by
    funext i p
    rw [strideAt, mul_zero, zero_add]
  rw [shiftedCount, hid]
  congr 1
  exact List.mapIdx_eq_iff.mpr (by simp)

theorem countP_zero_eq : (List.range plain.length).countP (fun i => decide (plain.getD i 0 = 0)) =
    plain.count 0 := by
  rw [← shiftedCount_zero, shiftedCount, count_mapIdx _ 0]
  apply List.countP_congr
  intro i _
  simp [strideAt]

/-- A progression that moves hits a value at no more than half of the zero bytes. -/
theorem shiftedCount_lt_of_step_ne {m : Nat} (hlen : plain.length = 2 * m) (hsparse : Sparse plain)
    (hd : d ≠ 0) : shiftedCount plain d v < plain.count 0 := by
  have hsplit := countP_le_countP_add (fun i => decide (strideAt i d + plain.getD i 0 = v))
    (fun i => decide (plain.getD i 0 = 0)) (List.range plain.length)
  have hhits : (List.range plain.length).countP (fun i =>
      decide (strideAt i d + plain.getD i 0 = v) && decide (plain.getD i 0 = 0)) ≤ m := by
    rw [hlen]
    apply countP_range_le_half
    intro k ⟨heven, hodd⟩
    simp only [Bool.and_eq_true, decide_eq_true_eq] at heven hodd
    rw [heven.2, add_zero] at heven
    rw [hodd.2, add_zero, strideAt_succ, heven.1] at hodd
    exact hd (by simpa using hodd.1)
  have hrest := countP_not_add (fun i => decide (plain.getD i 0 = 0)) plain.length
  rw [countP_zero_eq] at hrest
  rw [shiftedCount, count_mapIdx _ 0]
  rw [Sparse] at hsparse
  omega

theorem shiftedCount_lt_of_value_ne (hsparse : Sparse plain) (hv : v ≠ 0) :
    shiftedCount plain 0 v < plain.count 0 := by
  have hsum := List.length_eq_countP_add_countP (fun p => decide (p = v)) (l := plain)
  rw [shiftedCount_zero]
  have hdisjoint : plain.count v + plain.count 0 ≤ plain.length := by
    rw [hsum, List.count_eq_countP, List.count_eq_countP]
    apply Nat.add_le_add
    · exact Nat.le_of_eq (List.countP_congr (by simp))
    · apply List.countP_mono_left
      intro p _ hp
      have hp : p = 0 := by simpa using hp
      simp [hp, Ne.symm hv]
  rw [Sparse] at hsparse
  omega

theorem shiftedCount_lt {m : Nat} (hlen : plain.length = 2 * m) (hsparse : Sparse plain)
    (hother : d ≠ 0 ∨ v ≠ 0) : shiftedCount plain d v < plain.count 0 := by
  by_cases hd : d = 0
  · subst hd
    exact shiftedCount_lt_of_value_ne hsparse (hother.resolve_left (by simp))
  · exact shiftedCount_lt_of_step_ne hlen hsparse hd

end Sparseness

section StepSearches

structure Searched (peak : UInt8 → Nat) (seen : List UInt8) (search : StepSearch) : Prop where
  le_best : ∀ s ∈ seen, peak s ≤ search.bestCount
  best_attained : search.bestCount = 0 ∨ peak search.bestStep = search.bestCount

theorem searched_foldl (peak : UInt8 → Nat) (seen : List UInt8) :
    Searched peak seen (seen.foldl (fun search s => search.consider s (peak s)) ⟨0, 0, 0, false⟩) := by
  induction seen using List.reverseRecOn with
  | nil => exact ⟨by simp, .inl rfl⟩
  | append_singleton seen s ih =>
      rw [List.foldl_append, List.foldl_cons, List.foldl_nil]
      generalize seen.foldl (fun search : StepSearch => fun s => search.consider s (peak s)) _ = search at ih
      rw [StepSearch.consider]
      by_cases hpeak : peak s > search.bestCount
      · rw [if_pos hpeak]
        refine ⟨?_, .inr rfl⟩
        intro t ht
        rcases List.mem_append.mp ht with ht | ht
        · exact (ih.le_best t ht).trans hpeak.le
        · exact (congrArg peak (List.mem_singleton.mp ht)).le
      · rw [if_neg hpeak]
        refine ⟨?_, ih.best_attained⟩
        intro t ht
        rcases List.mem_append.mp ht with ht | ht
        · exact ih.le_best t ht
        · rw [List.mem_singleton.mp ht]
          exact Nat.le_of_not_gt hpeak

theorem searched_searchStep (sec : Bytes) (base : UInt8) :
    Searched (fun s => peakOf (tally (plainUnder sec base s))) allBytes (searchStep sec base) := by
  rw [searchStep]
  exact searched_foldl _ allBytes

-- the search is a variable here, or the kernel runs it over all steps to compare the two sides
theorem chosenStep_eq (sec : Bytes) (base : UInt8) (si : Nat) {search : StepSearch}
    (hsearch : search = searchStep sec base) :
    (recoverStepConfidence sec base si).chosenStep = search.bestStep := by
  rw [recoverStepConfidence, ← hsearch]

variable {plain : Bytes} {base step : UInt8} {m : Nat}

theorem peak_encodeSector_self :
    plain.count 0 ≤ peakOf (tally (plainUnder (encodeSector base step plain) base step)) := by
  have h := le_peakOf (tally plain) 0
  rw [tally_apply] at h
  rwa [plainUnder_encodeSector]

theorem count_zero_pos (hsparse : Sparse plain) : 0 < plain.count 0 := by
  rw [Sparse] at hsparse
  omega

theorem peak_encodeSector_other (hlen : plain.length = 2 * m) (hsparse : Sparse plain) {s : UInt8}
    (hs : s ≠ step) :
    peakOf (tally (plainUnder (encodeSector base step plain) base s)) < plain.count 0 := by
  have hpos := count_zero_pos hsparse
  have hle : peakOf (tally (plainUnder (encodeSector base step plain) base s)) ≤ plain.count 0 - 1 := by
    apply peakOf_le
    intro v
    rw [plainUnder, tally_encodeSector]
    have h := shiftedCount_lt (v := v - base + base) hlen hsparse (.inl (sub_ne_zero.mpr hs.symm))
    omega
  omega

/-- On a sparse sector the peak search finds the step the sector was stored with. -/
theorem chosenStep_encodeSector (hlen : plain.length = 2 * m) (hsparse : Sparse plain) (si : Nat) :
    (recoverStepConfidence (encodeSector base step plain) base si).chosenStep = step := by
  have hsearch := searched_searchStep (encodeSector base step plain) base
  have hbest := peak_encodeSector_self.trans (hsearch.le_best step (mem_allBytes step))
  have hpos := count_zero_pos hsparse
  rw [chosenStep_eq _ _ _ rfl]
  by_contra hother
  have hlow := @peak_encodeSector_other _ base _ _ hlen hsparse _ hother
  rcases hsearch.best_attained with hzero | hattained
  · omega
  · rw [hattained] at hlow
    omega

end StepSearches

section Scores

theorem foldl_raise {α β : Type} (hists : α → β → Nat) (steps : List α) (best : β → Nat) (b : β) :
    steps.foldl (fun best step => let hist := hists step
      fun b => if hist b > best b then hist b else best b) best b =
      (steps.map (hists · b)).foldl max (best b) := by
  induction steps generalizing best with
  | nil => rfl
  | cons s steps ih =>
      rw [List.foldl_cons, ih, List.map_cons, List.foldl_cons]
      congr 1
      by_cases h : hists s b > best b
      · simp only [if_pos h]
        omega
      · simp only [if_neg h]
        omega

theorem stepBvMax_eq (sec : Bytes) (offset bv : UInt8) :
    stepBvMax sec offset bv =
      (allBytes.map (fun s => tally (sec.mapIdx (fun i b => b - offset - strideAt i s)) bv)).foldl max 0 := by
  rw [stepBvMax]
  exact foldl_raise _ allBytes _ bv

theorem stepBvMax_lt {plain : Bytes} {m : Nat} (hlen : plain.length = 2 * m) (hsparse : Sparse plain)
    {offset bv b step : UInt8} (hb : b ≠ bv) :
    stepBvMax (encodeSector (bv + offset) step plain) offset b <
      stepBvMax (encodeSector (bv + offset) step plain) offset bv := by
  have hpos := count_zero_pos hsparse
  have hright : plain.count 0 ≤ stepBvMax (encodeSector (bv + offset) step plain) offset bv := by
    rw [stepBvMax_eq]
    apply le_foldl_max
    refine List.mem_map.mpr ⟨step, mem_allBytes step, ?_⟩
    rw [tally_encodeSector, sub_self, shiftedCount_zero]
    congr 1
    ring
  have hwrong : stepBvMax (encodeSector (bv + offset) step plain) offset b ≤ plain.count 0 - 1 := by
    rw [stepBvMax_eq]
    apply foldl_max_le_iff.mpr
    refine ⟨Nat.zero_le _, ?_⟩
    intro x hx
    obtain ⟨s, -, rfl⟩ := List.mem_map.mp hx
    have hv : b - (bv + offset) + offset ≠ 0 := by
      have : b - (bv + offset) + offset = b - bv := by ring
      rw [this]
      exact sub_ne_zero.mpr hb
    have h := shiftedCount_lt (d := step - s) hlen hsparse (.inr hv)
    rw [tally_encodeSector]
    omega
  omega

end Scores

end OpenSqlAny.ApSectors
