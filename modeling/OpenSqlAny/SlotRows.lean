import Mathlib.Data.List.Sort
import OpenSqlAny.Library.Cuts
import OpenSqlAny.Library.Faults
import OpenSqlAny.SlotScanning

namespace OpenSqlAny.SlotRows

open Library.Cuts Library.Faults Library.LittleEndian PageStores SlottedPages SlotScanning

/-- The offset, start and end of each row, from the live offsets in ascending order. -/
def rowBounds (live : List Nat) : List (Nat × Nat × Nat) :=
  live.zipIdx.filterMap fun entry =>
    let start := entry.1
    let stop := live[entry.2 + 1]?.getD trailerStart
    if start < stop ∧ stop ≤ trailerStart then some (entry.1, start, stop) else none

def rowSlots {ε : Type} (slotted : SlottedPage) : Outcome ε (List (Nat × Nat × Bytes)) :=
  match slotted.directory with
  | none => pure []
  | some dir =>
      let bytes := slotted.page.bytes
      let live := dir.liveSlots.mergeSort (· ≤ ·)
      let bounds := rowBounds live
      dir.slots.zipIdx.filterMapM fun entry =>
        let off := entry.1
        let slotIndex := entry.2
        if off = 0 then pure none
        else
          match bounds.find? (·.1 = off) with
          | none => pure none
          | some (_, start, stop) => do pure (some (slotIndex, off, ← slice bytes start stop))

def rowBytes {ε : Type} (slotted : SlottedPage) : Outcome ε (List (Nat × Bytes)) := do
  let rows ← rowSlots slotted
  pure (rows.map (·.2))

theorem rowBounds_cons (off : Nat) (live : List Nat) : rowBounds (off :: live) =
    (if off < live.head?.getD trailerStart ∧ live.head?.getD trailerStart ≤ trailerStart then
      [(off, off, live.head?.getD trailerStart)] else []) ++ rowBounds live := by
  have hnext : (off :: live)[0 + 1]? = live.head? := by rw [List.head?_eq_getElem?]; rfl
  have hrest : (live.zipIdx.map fun entry => (entry.1, entry.2 + 1)).filterMap (fun entry =>
      if entry.1 < (off :: live)[entry.2 + 1]?.getD trailerStart ∧
          (off :: live)[entry.2 + 1]?.getD trailerStart ≤ trailerStart then
        some (entry.1, entry.1, (off :: live)[entry.2 + 1]?.getD trailerStart) else none) = rowBounds live := by
    rw [List.filterMap_map]
    rfl
  rw [rowBounds, List.zipIdx_cons, List.filterMap_cons, Nat.zero_add, List.zipIdx_succ]
  simp only [hnext, hrest]
  by_cases h : off < live.head?.getD trailerStart ∧ live.head?.getD trailerStart ≤ trailerStart
  · rw [if_pos h, if_pos h]
    rfl
  · rw [if_neg h, if_neg h]
    rfl

theorem mem_of_mem_rowBounds {live : List Nat} {bound : Nat × Nat × Nat} (h : bound ∈ rowBounds live) :
    bound.1 ∈ live := by
  obtain ⟨⟨off, i⟩, hentry, hbound⟩ := List.mem_filterMap.mp h
  simp only at hbound
  split at hbound
  · cases hbound
    exact List.fst_mem_of_mem_zipIdx hentry
  · cases hbound

theorem blockEnd_cons_head {off : Nat} {live : List Nat} (hsorted : (off :: live).Pairwise (· ≤ ·))
    (hnew : off ∉ live) : blockEnd (off :: live) trailerStart off = live.head?.getD trailerStart := by
  rw [blockEnd, leastAbove, if_neg (Nat.lt_irrefl off)]
  obtain ⟨hle, hsorted⟩ := List.pairwise_cons.mp hsorted
  cases live with
  | nil => rfl
  | cons next live =>
      have hlt : off < next := lt_of_le_of_ne (hle next (List.mem_cons_self ..)) fun heq =>
        hnew (heq ▸ List.mem_cons_self ..)
      have hnext : leastAbove (next :: live) off = some next := leastAbove_eq_some_iff.mpr
        ⟨List.mem_cons_self .., hlt, List.forall_mem_cons.mpr ⟨fun _ => le_rfl,
          fun c hc _ => (List.pairwise_cons.mp hsorted).1 c hc⟩⟩
      rw [hnext]
      rfl

/-- An offset that occurs again is not the head of the bounds: its first block is empty. -/
theorem head_bound_skipped {first off : Nat} {live : List Nat} (hsorted : (first :: live).Pairwise (· ≤ ·))
    (hmem : off ∈ live) :
    (if first < live.head?.getD trailerStart ∧ live.head?.getD trailerStart ≤ trailerStart then
      [(first, first, live.head?.getD trailerStart)] else []).find? (·.1 = off) = none := by
  split
  next hblock =>
    rw [List.find?_eq_none]
    intro bound hbound
    rw [List.mem_singleton.mp hbound, decide_eq_true_eq]
    intro hsame
    obtain rfl : first = off := hsame
    obtain ⟨hle, hrest⟩ := List.pairwise_cons.mp hsorted
    cases live with
    | nil => cases hmem
    | cons next live =>
        have hfirst : first < next := hblock.1
        rcases List.mem_cons.mp hmem with rfl | hmem
        · exact Nat.lt_irrefl _ hfirst
        · exact Nat.not_le.mpr hfirst ((List.pairwise_cons.mp hrest).1 first hmem)
  · rfl

theorem find_rowBounds {live : List Nat} (hsorted : live.Pairwise (· ≤ ·)) {off : Nat} (hoff : off ∈ live) :
    (rowBounds live).find? (·.1 = off) =
      if off < blockEnd live trailerStart off ∧ blockEnd live trailerStart off ≤ trailerStart then
        some (off, off, blockEnd live trailerStart off)
      else none := by
  induction live with
  | nil => cases hoff
  | cons first live ih =>
      obtain ⟨hle, hrest⟩ := List.pairwise_cons.mp hsorted
      rw [rowBounds_cons, List.find?_append]
      by_cases hmem : off ∈ live
      · rw [head_bound_skipped hsorted hmem, Option.none_or, ih hrest hmem, blockEnd_cons_of_le (hle off hmem)]
      · obtain rfl : off = first := (List.mem_cons.mp hoff).resolve_right hmem
        have hlater : (rowBounds live).find? (·.1 = off) = none := by
          rw [List.find?_eq_none]
          intro bound hbound
          rw [decide_eq_true_eq]
          rintro rfl
          exact hmem (mem_of_mem_rowBounds hbound)
        rw [hlater, Option.or_none, blockEnd_cons_head hsorted hmem]
        split
        · rw [List.find?_singleton, if_pos (decide_eq_true rfl)]
        · rfl

def rowOf (bytes : Bytes) (live : List Nat) (slotIndex off : Nat) : Option (Nat × Nat × Bytes) :=
  if off < blockEnd live trailerStart off ∧ blockEnd live trailerStart off ≤ trailerStart then
    some (slotIndex, off, (bytes.take (blockEnd live trailerStart off)).drop off)
  else none

theorem rowSlots_eq {ε : Type} {slotted : SlottedPage} {dir : SlotDirectory} (hdir : slotted.directory = some dir) :
    rowSlots (ε := ε) slotted = .ok (dir.slots.zipIdx.filterMap fun entry =>
      if entry.1 = 0 then none else rowOf slotted.page.bytes dir.liveSlots entry.2 entry.1) := by
  have hsorted : (dir.liveSlots.mergeSort (· ≤ ·)).Pairwise (· ≤ ·) := List.pairwise_mergeSort' (· ≤ ·) dir.liveSlots
  have hmem (off : Nat) : off ∈ dir.liveSlots.mergeSort (· ≤ ·) ↔ off ∈ dir.liveSlots := List.mem_mergeSort
  have hend (off : Nat) : blockEnd (dir.liveSlots.mergeSort (· ≤ ·)) trailerStart off =
      blockEnd dir.liveSlots trailerStart off := by
    rw [blockEnd, leastAbove_congr hmem, blockEnd]
  rw [rowSlots, hdir]
  apply filterMapM_eq_ok
  rintro ⟨off, slotIndex⟩ hentry
  simp only
  by_cases hzero : off = 0
  · rw [if_pos hzero, if_pos hzero]
    rfl
  have hlive : off ∈ dir.liveSlots := by
    rw [SlotDirectory.liveSlots, liveOf, List.mem_filter]
    exact ⟨List.fst_mem_of_mem_zipIdx hentry, by simpa using hzero⟩
  rw [if_neg hzero, if_neg hzero, find_rowBounds hsorted ((hmem off).mpr hlive), hend, rowOf]
  by_cases hblock : off < blockEnd dir.liveSlots trailerStart off ∧
      blockEnd dir.liveSlots trailerStart off ≤ trailerStart
  · have hpage : trailerStart ≤ slotted.page.bytes.length := slotted.page.length_eq.symm ▸ (by decide : 0xFF0 ≤ 4096)
    rw [if_pos hblock, if_pos hblock]
    simp only
    rw [slice_of_le hblock.1.le (hblock.2.trans hpage)]
    rfl
  · rw [if_neg hblock, if_neg hblock]
    rfl

def liveEntries (slots : List Nat) : List (Nat × Nat) := slots.zipIdx.filter (·.1 ≠ 0)

theorem map_fst_liveEntries (slots : List Nat) : (liveEntries slots).map (·.1) = liveOf slots := by
  have hfst : slots.zipIdx.map (·.1) = slots := List.zipIdx_map_fst 0 slots
  rw [liveOf, ← hfst, List.filter_map, hfst]
  rfl

theorem pairwise_snd_liveEntries (slots : List Nat) : (liveEntries slots).Pairwise (fun e e' => e.2 < e'.2) := by
  have hsnd : slots.zipIdx.map (·.2) = List.range' 0 slots.length := List.zipIdx_map_snd 0 slots
  have hrange : (List.range' 0 slots.length).Pairwise (· < ·) := List.pairwise_lt_range'
  rw [← hsnd, List.pairwise_map] at hrange
  exact hrange.filter _

section Found

variable {read : Nat → Nat} {first : Nat} {slots : List Nat}

def blockRow (bytes : Bytes) (slots : List Nat) (entry : Nat × Nat) : Nat × Nat × Bytes :=
  (entry.2, entry.1, (bytes.take (blockEnd (liveOf slots) trailerStart entry.1)).drop entry.1)

theorem lt_trailer (h : SlotArray read first slots) : ∀ off ∈ liveOf slots, off < trailerStart :=
  fun off hoff => (h.offsets off hoff).2

theorem mem_liveOf_of_mem_liveEntries {entry : Nat × Nat} (h : entry ∈ liveEntries slots) :
    entry.1 ∈ liveOf slots := by
  rw [← map_fst_liveEntries]
  exact List.mem_map_of_mem h

theorem rowSlots_eq_blockRows {ε : Type} {slotted : SlottedPage} {dir : SlotDirectory}
    (hdir : slotted.directory = some dir) (h : SlotArray read first dir.slots) :
    rowSlots (ε := ε) slotted = .ok ((liveEntries dir.slots).map (blockRow slotted.page.bytes dir.slots)) := by
  rw [rowSlots_eq hdir, liveEntries, ← List.filterMap_eq_map, List.filterMap_filter]
  apply congrArg Except.ok
  apply List.filterMap_congr
  rintro ⟨off, slotIndex⟩ hentry
  by_cases hzero : off = 0
  · simp [hzero]
  · have hlive : off ∈ liveOf dir.slots := by
      rw [liveOf, List.mem_filter]
      exact ⟨List.fst_mem_of_mem_zipIdx hentry, by simpa using hzero⟩
    have hblock := lt_blockEnd (liveOf dir.slots) (lt_trailer h off hlive)
    have hstop := blockEnd_le_stop (a := off) (lt_trailer h)
    simp [hzero, rowOf, SlotDirectory.liveSlots, hblock, hstop, blockRow]

def InRow (row : Nat × Nat × Bytes) (x : Nat) : Prop := row.2.1 ≤ x ∧ x < row.2.1 + row.2.2.length

theorem length_blockRow (h : SlotArray read first slots) {bytes : Bytes} (hbytes : bytes.length = pageSize)
    {entry : Nat × Nat} (hentry : entry ∈ liveEntries slots) :
    entry.1 + (blockRow bytes slots entry).2.2.length = blockEnd (liveOf slots) trailerStart entry.1 := by
  have hlive := mem_liveOf_of_mem_liveEntries hentry
  have hblock := lt_blockEnd (liveOf slots) (lt_trailer h _ hlive)
  have hstop := blockEnd_le_stop (a := entry.1) (lt_trailer h)
  have htrailer : trailerStart ≤ bytes.length := hbytes.symm ▸ (by decide : 0xFF0 ≤ 4096)
  rw [blockRow, List.length_drop, List.length_take]
  omega

/-- What it means that rows divide the row area of a page among the live slots. -/
structure Partitions (bytes : Bytes) (dir : SlotDirectory) (rows : List (Nat × Nat × Bytes)) : Prop where
  count : rows.length = dir.liveCount
  entries : rows.map (fun row => (row.2.1, row.1)) = dir.slots.zipIdx.filter (·.1 ≠ 0)
  increasing : rows.Pairwise (fun row row' => row.1 < row'.1)
  pageBytes : ∀ row ∈ rows, row.2.2 = (bytes.drop row.2.1).take row.2.2.length
  nonempty : ∀ row ∈ rows, row.2.2 ≠ []
  disjoint : rows.Pairwise (fun row row' => ∀ x, ¬(InRow row x ∧ InRow row' x))
  covers : ∃ minOffset, dir.minOffset = some minOffset ∧ dir.endOffset ≤ minOffset ∧
    ∀ x, (∃ row ∈ rows, InRow row x) ↔ minOffset ≤ x ∧ x < 0xFF0

theorem inRow_blockRow_iff (h : SlotArray read first slots) {bytes : Bytes} (hbytes : bytes.length = pageSize)
    {entry : Nat × Nat} (hentry : entry ∈ liveEntries slots) {x : Nat} :
    InRow (blockRow bytes slots entry) x ↔ entry.1 ≤ x ∧ x < blockEnd (liveOf slots) trailerStart entry.1 := by
  rw [← length_blockRow h hbytes hentry]
  rfl

theorem blockRows_disjoint (h : SlotArray read first slots) {bytes : Bytes} (hbytes : bytes.length = pageSize) :
    ((liveEntries slots).map (blockRow bytes slots)).Pairwise
      (fun row row' => ∀ x, ¬(InRow row x ∧ InRow row' x)) := by
  have hdescending := h.descending
  rw [← map_fst_liveEntries, List.pairwise_map] at hdescending
  rw [List.pairwise_map]
  apply hdescending.imp_of_mem
  intro entry entry' hentry hentry' hlower x
  rw [inRow_blockRow_iff h hbytes hentry, inRow_blockRow_iff h hbytes hentry']
  -- The later slot is the lower one, and its block ends before the earlier slot.
  rintro ⟨⟨hle, -⟩, -, hlt⟩
  exact Nat.not_le.mpr hlt ((blockEnd_le (mem_liveOf_of_mem_liveEntries hentry) hlower).trans hle)

theorem blockRows_cover (h : SlotArray read first slots) {bytes : Bytes} (hbytes : bytes.length = pageSize)
    {minOffset : Nat} (hmin : (liveOf slots).min? = some minOffset) (x : Nat) :
    (∃ row ∈ (liveEntries slots).map (blockRow bytes slots), InRow row x) ↔ minOffset ≤ x ∧ x < trailerStart := by
  obtain ⟨hmem, hleast⟩ := List.min?_eq_some_iff.mp hmin
  constructor
  · rintro ⟨row, hrow, hx⟩
    obtain ⟨entry, hentry, rfl⟩ := List.mem_map.mp hrow
    obtain ⟨hle, hlt⟩ := (inRow_blockRow_iff h hbytes hentry).mp hx
    exact ⟨(hleast _ (mem_liveOf_of_mem_liveEntries hentry)).trans hle,
      hlt.trans_le (blockEnd_le_stop (lt_trailer h))⟩
  · rintro ⟨hle, hlt⟩
    obtain ⟨off, hoff, hox, hend⟩ := exists_block hmem hle hlt
    rw [← map_fst_liveEntries] at hoff
    obtain ⟨entry, hentry, rfl⟩ := List.mem_map.mp hoff
    exact ⟨_, List.mem_map_of_mem hentry, (inRow_blockRow_iff h hbytes hentry).mpr ⟨hox, hend⟩⟩

end Found

/-- The rows of a found directory are the blocks of a partition of the row area. -/
theorem rowSlots_partitions {ε : Type} (page : Page) (dir : SlotDirectory)
    (hdir : (SlottedPage.parse page).directory = some dir) :
    ∃ rows, rowSlots (ε := ε) (SlottedPage.parse page) = .ok rows ∧ Partitions page.bytes dir rows := by
  have hfound := hdir
  rw [SlottedPage.parse_directory] at hfound
  obtain ⟨start, bigEndian, -, hdescribes⟩ := findSlotDirectory_describes hfound
  have h := hdescribes.array
  have hbytes := page.length_eq
  have hrows := rowSlots_eq_blockRows (ε := ε) hdir h
  rw [SlottedPage.parse_page] at hrows
  refine ⟨_, hrows, ?_, ?_, ?_, ?_, ?_, blockRows_disjoint h hbytes, ?_⟩
  · rw [List.length_map, SlotDirectory.liveCount, ← map_fst_liveEntries, List.length_map]
  · rw [List.map_map]
    exact List.map_id _
  · rw [List.pairwise_map]
    exact pairwise_snd_liveEntries dir.slots
  · intro row hrow
    obtain ⟨entry, hentry, rfl⟩ := List.mem_map.mp hrow
    have hlength := length_blockRow h hbytes hentry
    have hcount : blockEnd (liveOf dir.slots) trailerStart entry.1 - entry.1 =
        (blockRow page.bytes dir.slots entry).2.2.length := by omega
    rw [← hcount]
    exact List.drop_take
  · intro row hrow hempty
    obtain ⟨entry, hentry, rfl⟩ := List.mem_map.mp hrow
    have hlength := length_blockRow h hbytes hentry
    have hblock := lt_blockEnd (liveOf dir.slots) (lt_trailer h _ (mem_liveOf_of_mem_liveEntries hentry))
    rw [hempty, List.length_nil, Nat.add_zero] at hlength
    exact hblock.ne hlength
  · obtain ⟨minOffset, hmin⟩ := h.exists_min
    refine ⟨minOffset, hmin, ?_, blockRows_cover h hbytes hmin⟩
    rw [hdescribes.endOffset]
    exact h.clear _ (List.min?_eq_some_iff.mp hmin).1

def eightRowBytes : Bytes :=
  [0x90, 1, 0x2C, 1, 200, 0, 100, 0, 90, 0, 80, 0, 70, 0, 60, 0] ++ List.replicate 4080 0xFF

theorem length_eightRowBytes : eightRowBytes.length = pageSize := by
  rw [eightRowBytes, List.length_append, List.length_replicate]
  rfl

theorem rowSlots_partitions_eightRows :
    ∃ dir rows, rowSlots (ε := Empty) (SlottedPage.parse ⟨0, eightRowBytes, length_eightRowBytes⟩) = .ok rows ∧
      Partitions eightRowBytes dir rows := by
  have harray : SlotArray (readU16 false eightRowBytes) 0 [400, 300, 200, 100, 90, 80, 70, 60] :=
    ⟨by decide, by decide, by decide, by decide, by decide, by decide, by decide⟩
  have hended : Ended (readU16 false eightRowBytes) 0 [400, 300, 200, 100, 90, 80, 70, 60] :=
    fun _ => ⟨by decide, fun h => absurd h.1 (by decide)⟩
  obtain ⟨dir, hdir, -⟩ := (findSlotDirectory_iff eightRowBytes 8).mpr ⟨false, 0, _, harray, hended, by decide⟩
  rw [← SlottedPage.parse_directory ⟨0, eightRowBytes, length_eightRowBytes⟩] at hdir
  exact ⟨dir, rowSlots_partitions ⟨0, eightRowBytes, length_eightRowBytes⟩ dir hdir⟩

end OpenSqlAny.SlotRows
