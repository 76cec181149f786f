import OpenSqlAny.SlotRows

namespace OpenSqlAny.SlotListings

open Library.Cuts Library.Faults Library.LittleEndian PageStores SlottedPages SlotRows

/-- A directory entry as the command line lists it: the row is missing when the entry is deleted. -/
structure SlotRow where
  index : Nat
  row : Option (Nat × Bytes)
  deriving DecidableEq, Repr

def dedup : List Nat → List Nat
  | [] => []
  | [off] => [off]
  | off :: next :: rest => if off = next then dedup (next :: rest) else off :: dedup (next :: rest)

def slotRows {ε : Type} (directory : SlotDirectory) (page : Bytes) : Outcome ε (List SlotRow) :=
  let offsets := dedup (directory.liveSlots.mergeSort (· ≤ ·))
  directory.slots.zipIdx.mapM fun entry =>
    let offset := entry.1
    let index := entry.2
    if offset = 0 then pure ⟨index, none⟩
    else
      let start := offset
      let stop := ((offsets.findIdx? (· = offset)).bind fun position => offsets[position + 1]?).getD trailerStart
      if start < stop ∧ stop ≤ trailerStart then do pure ⟨index, some (offset, ← slice page start stop)⟩
      else pure ⟨index, none⟩

section Offsets

variable {live : List Nat} {off : Nat}

theorem mem_dedup : off ∈ dedup live ↔ off ∈ live := by
  fun_induction dedup live with
  | case1 => rfl
  | case2 first => rfl
  | case3 next rest ih => simp [ih]
  | case4 first next rest hne ih => simp [ih]

theorem dedup_ascending (h : live.Pairwise (· ≤ ·)) : (dedup live).Pairwise (· < ·) := by
  fun_induction dedup live with
  | case1 => exact List.Pairwise.nil
  | case2 first => exact List.pairwise_singleton _ _
  | case3 next rest ih => exact ih (List.pairwise_cons.mp h).2
  | case4 first next rest hne ih =>
      obtain ⟨hfirst, hrest⟩ := List.pairwise_cons.mp h
      refine List.pairwise_cons.mpr ⟨?_, ih hrest⟩
      intro other hother
      rcases List.mem_cons.mp (mem_dedup.mp hother) with rfl | hlater
      · exact lt_of_le_of_ne (hfirst other List.mem_cons_self) hne
      · have hnext := (List.pairwise_cons.mp hrest).1 other hlater
        have hlt := lt_of_le_of_ne (hfirst next List.mem_cons_self) hne
        exact lt_of_lt_of_le hlt hnext

/-- What follows an offset's position among distinct offsets is the end of its block. -/
theorem next_offset (hascending : live.Pairwise (· < ·)) (hoff : off ∈ live) :
    ((live.findIdx? (· = off)).bind fun position => live[position + 1]?).getD trailerStart =
      blockEnd live trailerStart off := by
  induction live with
  | nil => cases hoff
  | cons first live ih =>
      obtain ⟨hfirst, hrest⟩ := List.pairwise_cons.mp hascending
      rw [List.findIdx?_cons]
      by_cases hsame : first = off
      · subst hsame
        have hnew : first ∉ live := fun hmem => (hfirst first hmem).false
        have hsorted : (first :: live).Pairwise (· ≤ ·) := hascending.imp fun h => h.le
        rw [blockEnd_cons_head hsorted hnew, if_pos (decide_eq_true rfl), Option.bind_some,
          List.getElem?_cons_succ, ← List.head?_eq_getElem?]
      · have hmem := (List.mem_cons.mp hoff).resolve_left (Ne.symm hsame)
        rw [if_neg (by simpa using hsame), blockEnd_cons_of_le (hfirst off hmem).le, ← ih hrest hmem, Option.bind_map]
        rfl

end Offsets

section Listings

variable {ε : Type} {directory : SlotDirectory} {page : Page}

def listedRow (bytes : Bytes) (live : List Nat) (off : Nat) : Option (Nat × Bytes) :=
  if off = 0 then none
  else if off < blockEnd live trailerStart off ∧ blockEnd live trailerStart off ≤ trailerStart then
    some (off, (bytes.take (blockEnd live trailerStart off)).drop off)
  else none

theorem slotRows_eq (directory : SlotDirectory) (page : Page) :
    slotRows (ε := ε) directory page.bytes = .ok (directory.slots.zipIdx.map fun entry =>
      ⟨entry.2, listedRow page.bytes directory.liveSlots entry.1⟩) := by
  have hsorted : (directory.liveSlots.mergeSort (· ≤ ·)).Pairwise (· ≤ ·) :=
    List.pairwise_mergeSort' (· ≤ ·) directory.liveSlots
  have hascending := dedup_ascending hsorted
  have hmem (off : Nat) : off ∈ dedup (directory.liveSlots.mergeSort (· ≤ ·)) ↔ off ∈ directory.liveSlots := by
    rw [mem_dedup, List.mem_mergeSort]
  have hend (off : Nat) : blockEnd (dedup (directory.liveSlots.mergeSort (· ≤ ·))) trailerStart off =
      blockEnd directory.liveSlots trailerStart off := by
    rw [blockEnd, leastAbove_congr hmem, blockEnd]
  rw [slotRows]
  apply mapM_eq_ok
  intro entry hentry
  obtain ⟨off, index⟩ := entry
  simp only [listedRow]
  by_cases hzero : off = 0
  · rw [if_pos hzero, if_pos hzero]
    rfl
  have hlive : off ∈ directory.liveSlots := by
    rw [SlotDirectory.liveSlots, liveOf, List.mem_filter]
    exact ⟨List.fst_mem_of_mem_zipIdx hentry, by simpa using hzero⟩
  rw [if_neg hzero, if_neg hzero, next_offset hascending ((hmem off).mpr hlive), hend]
  by_cases hblock : off < blockEnd directory.liveSlots trailerStart off ∧
      blockEnd directory.liveSlots trailerStart off ≤ trailerStart
  · have hpage : trailerStart ≤ page.bytes.length := page.length_eq.symm ▸ (by decide : 0xFF0 ≤ 4096)
    rw [if_pos hblock, if_pos hblock, slice_of_le hblock.1.le (hblock.2.trans hpage)]
    rfl
  · rw [if_neg hblock, if_neg hblock]
    rfl

/-- The listing and the library agree on every directory: same rows in the same order, and no panic. -/
theorem slotRows_rowSlots (directory : SlotDirectory) (page : Page) :
    ∃ entries rows, slotRows (ε := Empty) directory page.bytes = .ok entries ∧
      rowSlots (ε := Empty) ⟨page, some directory⟩ = .ok rows ∧
      entries.filterMap (fun entry => entry.row.map fun row => (entry.index, row.1, row.2)) = rows ∧
      entries.map (·.index) = List.range directory.slots.length ∧
      entries.length = directory.slots.length := by
  refine ⟨_, _, slotRows_eq directory page, rowSlots_eq rfl, ?_, ?_, ?_⟩
  · rw [List.filterMap_map]
    apply List.filterMap_congr
    intro entry _
    obtain ⟨off, index⟩ := entry
    rw [Function.comp_apply, listedRow, rowOf]
    by_cases hzero : off = 0
    · rw [if_pos hzero, if_pos hzero]
      rfl
    rw [if_neg hzero, if_neg hzero]
    split <;> rfl
  · rw [List.map_map, List.range_eq_range', ← List.zipIdx_map_snd 0 directory.slots]
    rfl
  · rw [List.length_map, List.length_zipIdx]

end Listings

end OpenSqlAny.SlotListings
