import OpenSqlAny.Library.Faults
import OpenSqlAny.ApBlocks
import OpenSqlAny.ApOrders

namespace OpenSqlAny.ApBlockRanges

open Library.LittleEndian Library.Histograms Library.Faults PageStores ApFill ApPages ApLearning ApOrders ApBlocks

def scorePages (store : PageStore) (pns : List Nat) : UInt8 → Nat :=
  pns.foldl
    (fun score pn =>
      match store.page pn with
      | .ok page => scoreBvCandidates page.bytes pn score
      | .error _ => score)
    (fun _ => 0)

/-- The search of a block in a build that checks its 64-bit arithmetic. -/
def checkedRecoverBvForBlock (model : ApModel) (store : PageStore) (bi : Nat) : Outcome Empty UInt8 := do
  let pageStart ← mulWithin 64 bi 16
  let nextBlock ← addWithin 64 pageStart 16
  let pageEnd := min nextBlock store.pageCount
  if pageStart ≥ store.pageCount then return model.bv0
  else
    let sampleLimit ← addWithin 64 pageStart 3
    let sampleEnd := min pageEnd sampleLimit
    return bestBv (scorePages store (List.range' pageStart (sampleEnd - pageStart))) model.bv0

def scoredPages (store : PageStore) (bi : Nat) : List Nat :=
  let pageStart := bi * 16 % 2 ^ 64
  let pageEnd := min ((pageStart + 16) % 2 ^ 64) store.pageCount
  if pageStart ≥ store.pageCount then []
  else List.range' pageStart (min pageEnd ((pageStart + 3) % 2 ^ 64) - pageStart)

/-- The search of a block does not overflow, falls back behind the store, and scores pages of its block. -/
structure KeepsToBlock (model : ApModel) (store : PageStore) (bi : Nat) : Prop where
  no_overflow : checkedRecoverBvForBlock model store bi = .ok (model.recoverBvForBlock store bi)
  fallback : store.pageCount ≤ 16 * bi → model.recoverBvForBlock store bi = model.bv0
  scored : 16 * bi < store.pageCount →
    model.recoverBvForBlock store bi = bestBv (scorePages store (scoredPages store bi)) model.bv0
  in_block : ∀ pn ∈ scoredPages store bi, 16 * bi ≤ pn ∧ pn < min (16 * bi + 3) store.pageCount

section Ranges

variable {model : ApModel} {store : PageStore} {bi : Nat}

theorem recoverBvForBlock_scored (model : ApModel) (store : PageStore) (bi : Nat) :
    model.recoverBvForBlock store bi = if bi * 16 % 2 ^ 64 ≥ store.pageCount then model.bv0
      else bestBv (scorePages store (scoredPages store bi)) model.bv0 := by
  rw [ApModel.recoverBvForBlock, scoredPages]
  split <;> rfl

theorem scoredPages_of_fits (h : 16 * bi + 16 < 2 ^ 64) (hin : bi * 16 < store.pageCount) :
    scoredPages store bi = samples store bi := by
  rw [scoredPages, samples, Nat.mod_eq_of_lt (by omega), Nat.mod_eq_of_lt (by omega), Nat.mod_eq_of_lt (by omega),
    if_neg (by omega)]

theorem scoredPages_behind (h : 16 * bi + 16 < 2 ^ 64) (hbehind : store.pageCount ≤ 16 * bi) :
    scoredPages store bi = [] := by
  rw [scoredPages, Nat.mod_eq_of_lt (by omega), if_pos (by omega)]

theorem scoredPages_wraps (store : PageStore) (bi k : Nat) :
    scoredPages store (bi + 2 ^ 60 * k) = scoredPages store bi := by
  have hwrap : (bi + 2 ^ 60 * k) * 16 % 2 ^ 64 = bi * 16 % 2 ^ 64 := by
    rw [Nat.add_mul, Nat.mul_right_comm, show 2 ^ 60 * 16 = 2 ^ 64 by decide, Nat.add_mul_mod_self_left]
  rw [scoredPages, scoredPages, hwrap]

theorem checkedRecoverBvForBlock_of_fits (h : 16 * bi + 16 < 2 ^ 64) :
    checkedRecoverBvForBlock model store bi = .ok (model.recoverBvForBlock store bi) := by
  rw [checkedRecoverBvForBlock, mulWithin_eq_ok_iff.mpr ⟨by omega, rfl⟩, ok_bind,
    addWithin_eq_ok_iff.mpr ⟨by omega, rfl⟩, ok_bind, recoverBvForBlock_scored, Nat.mod_eq_of_lt (by omega)]
  by_cases hin : bi * 16 ≥ store.pageCount
  · rw [if_pos hin, if_pos hin]
    rfl
  · rw [if_neg hin, if_neg hin, addWithin_eq_ok_iff.mpr ⟨by omega, rfl⟩, ok_bind,
      scoredPages_of_fits h (by omega)]
    rfl

theorem fits_of_checked {bv : UInt8} (h : checkedRecoverBvForBlock model store bi = .ok bv) :
    16 * bi + 16 < 2 ^ 64 := by
  rw [checkedRecoverBvForBlock, bind_eq_ok_iff] at h
  obtain ⟨pageStart, hproduct, h⟩ := h
  obtain ⟨-, rfl⟩ := mulWithin_eq_ok_iff.mp hproduct
  obtain ⟨nextBlock, hsum, -⟩ := bind_eq_ok_iff.mp h
  have hfits := (addWithin_eq_ok_iff.mp hsum).1
  omega

/-- The search keeps to its block exactly when the number after the block's last page is a 64-bit number. -/
theorem keepsToBlock_iff (model : ApModel) (store : PageStore) (bi : Nat) :
    KeepsToBlock model store bi ↔ 16 * bi + 16 < 2 ^ 64 := by
  constructor
  · intro h
    exact fits_of_checked h.no_overflow
  · intro hfits
    have hwrap : bi * 16 % 2 ^ 64 = 16 * bi := by
      rw [Nat.mod_eq_of_lt (by omega), Nat.mul_comm]
    refine ⟨checkedRecoverBvForBlock_of_fits hfits, ?_, ?_, ?_⟩
    · intro hbehind
      rw [recoverBvForBlock_scored, hwrap, if_pos hbehind]
    · intro hin
      rw [recoverBvForBlock_scored, hwrap, if_neg (Nat.not_le.mpr hin)]
    · intro pn hpn
      by_cases hin : bi * 16 < store.pageCount
      · rw [scoredPages_of_fits hfits hin, samples, List.mem_range'_1] at hpn
        omega
      · rw [scoredPages_behind hfits (by omega)] at hpn
        cases hpn

/-- Block 2^60 of a store of one page: a checked build panics, and a wrapping one scores page 0. -/
theorem not_keepsToBlock_wrapped :
    ¬ (∀ model store bi, bi < 2 ^ 64 → KeepsToBlock model store bi) ∧
      scoredPages (PageStore.ofPage tiedPage length_tiedPage) (2 ^ 60) = [0] := by
  constructor
  · intro h
    have hfits := (keepsToBlock_iff ⟨[], 7⟩ (PageStore.ofPage tiedPage length_tiedPage) (2 ^ 60)).mp
      (h _ _ _ (by decide))
    omega
  · have hblock := scoredPages_wraps (PageStore.ofPage tiedPage length_tiedPage) 0 1
    rw [Nat.zero_add, Nat.mul_one] at hblock
    rw [hblock, scoredPages, PageStore.pageCount_ofPage]
    rfl

end Ranges

end OpenSqlAny.ApBlockRanges
