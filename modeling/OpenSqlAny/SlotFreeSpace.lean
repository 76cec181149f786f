import OpenSqlAny.SlotScanning

namespace OpenSqlAny.SlotFreeSpace

open Library.LittleEndian PageStores SlottedPages SlotScanning

/-- A directory whose last slot is live, with nothing but zeros between it and its lowest row. -/
structure FreeSpaceDirectory (plain : Bytes) (bigEndian : Bool) (first : Nat) (ws : List Nat)
    (least : Nat) : Prop where
  array : SlotArray (readU16 bigEndian plain) first ws
  last_live : ws.getLast? ≠ some 0
  least_live : (liveOf ws).min? = some least
  free : ∀ i, first + 2 * ws.length ≤ i → i < least → plain.getD i 0 = 0

def rowWordAt (arrayEnd least : Nat) : Nat := arrayEnd + 2 * ((least - arrayEnd) / 2)

/-- The word that reaches into the lowest row cannot be read as a further slot, deleted or live. -/
def StopsAtRow (read : Nat → Nat) (arrayEnd least : Nat) : Prop :=
  rowWordAt arrayEnd least + 1 < searchLimit →
    read (rowWordAt arrayEnd least) ≠ 0 ∧
    ¬ (isSlotOffset (read (rowWordAt arrayEnd least)) ∧ read (rowWordAt arrayEnd least) < least)

section FreeSpace

variable {plain : Bytes} {bigEndian : Bool} {first least : Nat} {ws : List Nat}

theorem readU16_zero {off : Nat} (h : plain.getD off 0 = 0) (h' : plain.getD (off + 1) 0 = 0) :
    readU16 bigEndian plain off = 0 := by
  cases bigEndian with
  | false => simp only [readU16, Bool.false_eq_true, if_false, u16le, h, h']; rfl
  | true => simp only [readU16, if_true, u16be, h, h']; rfl

theorem length_liveOf_le {n : Nat} (h : ∀ i, n ≤ i → ∀ hi : i < ws.length, ws[i] = 0) :
    (liveOf ws).length ≤ n := by
  have hzeros : liveOf (ws.drop n) = [] := by
    rw [liveOf, List.filter_eq_nil_iff]
    intro w hw
    obtain ⟨i, hi, rfl⟩ := List.mem_iff_getElem.mp hw
    rw [List.length_drop] at hi
    rw [List.getElem_drop, h _ (Nat.le_add_right n i) (by omega)]
    simp
  have hsplit : liveOf ws = liveOf (ws.take n) ++ liveOf (ws.drop n) := by
    rw [liveOf, liveOf, liveOf, ← List.filter_append, List.take_append_drop]
  rw [hsplit, hzeros, List.append_nil]
  calc (liveOf (ws.take n)).length ≤ (ws.take n).length := List.length_filter_le _ _
    _ ≤ n := by rw [List.length_take]; exact Nat.min_le_left _ _

theorem liveOf_append_zeros (ws : List Nat) (k : Nat) : liveOf (ws ++ List.replicate k 0) = liveOf ws := by
  simp [liveOf, List.filter_append]

theorem least_mem (h : FreeSpaceDirectory plain bigEndian first ws least) : least ∈ liveOf ws :=
  (List.min?_eq_some_iff.mp h.least_live).1

theorem least_le (h : FreeSpaceDirectory plain bigEndian first ws least) : ∀ w ∈ liveOf ws, least ≤ w :=
  (List.min?_eq_some_iff.mp h.least_live).2

/-- The scan can take zero words of the free space as deleted slots. -/
theorem padded_array (h : FreeSpaceDirectory plain bigEndian first ws least) {k : Nat}
    (hfree : first + 2 * ws.length + 2 * k ≤ least) (hfits : first + 2 * ws.length + 2 * k ≤ searchLimit) :
    SlotArray (readU16 bigEndian plain) first (ws ++ List.replicate k 0) := by
  have hlength : (ws ++ List.replicate k 0).length = ws.length + k := by
    rw [List.length_append, List.length_replicate]
  refine ⟨?_, by omega, ?_, ?_, ?_, ?_, ?_⟩
  · intro i hi
    by_cases hin : i < ws.length
    · rw [List.getElem_append_left hin]
      exact h.array.words i hin
    · rw [List.getElem_append_right (by omega), List.getElem_replicate, readU16_zero]
      · exact h.free _ (by omega) (by omega)
      · exact h.free _ (by omega) (by omega)
  · rw [List.head?_append_of_ne_nil _ h.array.ne_nil]
    exact h.array.head_live
  · rw [liveOf_append_zeros]
    exact h.array.offsets
  · rw [liveOf_append_zeros]
    exact h.array.descending
  · rw [liveOf_append_zeros]
    exact h.array.enough
  · rw [liveOf_append_zeros]
    intro w hw
    have := least_le h w hw
    omega

theorem rowWordAt_bounds (h : FreeSpaceDirectory plain bigEndian first ws least) :
    rowWordAt (first + 2 * ws.length) least ≤ least ∧
      least < rowWordAt (first + 2 * ws.length) least + 2 := by
  have hclear := h.array.clear least (least_mem h)
  rw [rowWordAt]
  omega

/-- A scan from the array ends only where the lowest row stops it. -/
theorem stopsAtRow_of_ended (h : FreeSpaceDirectory plain bigEndian first ws least) {ws' : List Nat}
    (harray : SlotArray (readU16 bigEndian plain) first ws')
    (hended : Ended (readU16 bigEndian plain) first ws') :
    StopsAtRow (readU16 bigEndian plain) (first + 2 * ws.length) least := by
  intro hin
  obtain ⟨hlow, hhigh⟩ := rowWordAt_bounds h
  have hpadded := @padded_array _ _ _ _ _ h ((least - (first + 2 * ws.length)) / 2) hlow
    (by rw [rowWordAt] at hin; omega)
  obtain ⟨rest, hrest⟩ := takable_begins_taken hpadded.takable (harray.taken hended)
  have hlength := congrArg List.length hrest
  rw [List.length_append, List.length_append, List.length_replicate] at hlength
  have hleast : least ∈ liveOf ws' := by
    rw [hrest, liveOf, List.filter_append]
    apply List.mem_append_left
    rw [← liveOf, liveOf_append_zeros]
    exact least_mem h
  have hclear := harray.clear least hleast
  have hnil : rest = [] := by
    apply List.eq_nil_of_length_eq_zero
    rw [rowWordAt] at hhigh
    omega
  subst hnil
  have hat : first + 2 * ws'.length = rowWordAt (first + 2 * ws.length) least := by
    rw [rowWordAt, hlength, List.length_nil]
    omega
  rw [List.append_nil] at hrest
  rw [Ended, hat, hrest, liveOf_append_zeros] at hended
  obtain ⟨hzero, hslot⟩ := hended hin
  refine ⟨hzero, ?_⟩
  intro hnext
  apply hslot
  refine ⟨hnext.1, ?_⟩
  intro w hw
  exact Nat.lt_of_lt_of_le hnext.2 (least_le h w hw)

theorem exists_ended_of_stopsAtRow (h : FreeSpaceDirectory plain bigEndian first ws least)
    (hstops : StopsAtRow (readU16 bigEndian plain) (first + 2 * ws.length) least) :
    ∃ k, SlotArray (readU16 bigEndian plain) first (ws ++ List.replicate k 0) ∧
      Ended (readU16 bigEndian plain) first (ws ++ List.replicate k 0) := by
  have hclear := h.array.clear least (least_mem h)
  have hfits := h.array.fits
  refine ⟨(min least searchLimit - (first + 2 * ws.length)) / 2,
    padded_array h (by omega) (by omega), ?_⟩
  intro hin
  have hat : first + 2 * (ws ++ List.replicate ((min least searchLimit - (first + 2 * ws.length)) / 2) 0).length =
      rowWordAt (first + 2 * ws.length) least := by
    rw [List.length_append, List.length_replicate] at hin ⊢
    rw [rowWordAt]
    omega
  rw [hat] at hin ⊢
  obtain ⟨hzero, hslot⟩ := hstops hin
  rw [liveOf_append_zeros]
  exact ⟨hzero, fun hnext => hslot ⟨hnext.1, hnext.2 least (least_mem h)⟩⟩

end FreeSpace

/-- A directory before empty free space is found exactly when the word that reaches into the lowest
row stops the scan, or when the page holds another array with as many live slots. -/
theorem parse_finds_iff {page : Page} {bigEndian : Bool} {first least : Nat} {ws : List Nat}
    (h : FreeSpaceDirectory page.bytes bigEndian first ws least) :
    (∃ d, (SlottedPage.parse page).directory = some d ∧ (liveOf ws).length ≤ d.liveCount) ↔
      StopsAtRow (readU16 bigEndian page.bytes) (first + 2 * ws.length) least ∨
      ∃ bigEndian' first' ws', (first', bigEndian') ≠ (first, bigEndian) ∧
        SlotArray (readU16 bigEndian' page.bytes) first' ws' ∧
        Ended (readU16 bigEndian' page.bytes) first' ws' ∧ (liveOf ws).length ≤ (liveOf ws').length := by
  rw [SlottedPage.parse_directory, findSlotDirectory_iff]
  constructor
  · rintro ⟨bigEndian', first', ws', harray, hended, hlive⟩
    by_cases hsame : (first', bigEndian') = (first, bigEndian)
    · cases hsame
      exact .inl (stopsAtRow_of_ended h harray hended)
    · exact .inr ⟨bigEndian', first', ws', hsame, harray, hended, hlive⟩
  · rintro (hstops | ⟨bigEndian', first', ws', -, harray, hended, hlive⟩)
    · obtain ⟨k, harray, hended⟩ := exists_ended_of_stopsAtRow h hstops
      refine ⟨bigEndian, first, _, harray, hended, ?_⟩
      rw [liveOf_append_zeros]
    · exact ⟨bigEndian', first', ws', harray, hended, hlive⟩

section StoppedRows

def eightSlots : List Nat := [400, 300, 200, 100, 90, 80, 70, 60]

def eightSlotBytes : Bytes := [0x90, 1, 0x2C, 1, 200, 0, 100, 0, 90, 0, 80, 0, 70, 0, 60, 0]

def stoppedRowBytes : Bytes := eightSlotBytes ++ (List.replicate 44 0 ++ [0xFF, 0xFF] ++ List.replicate 4034 1)

theorem length_stoppedRowBytes : stoppedRowBytes.length = pageSize := by
  rw [stoppedRowBytes, List.length_append, List.length_append, List.length_append, List.length_replicate,
    List.length_replicate]
  rfl

theorem stoppedRowDirectory : FreeSpaceDirectory stoppedRowBytes false 0 eightSlots 60 := by
  refine ⟨⟨?_, by decide, by decide, by decide, by decide, by decide, by decide⟩, by decide, rfl, ?_⟩
  · decide
  · intro i hi hlt
    have hend : 16 ≤ i := hi
    rw [stoppedRowBytes, List.getD_eq_getElem?_getD, List.getElem?_append_right hend,
      List.append_assoc, List.getElem?_append_left (by simp [eightSlotBytes]; omega), List.getElem?_replicate]
    split <;> rfl

theorem parse_finds_iff_stoppedRow :
    ∃ d, (SlottedPage.parse ⟨0, stoppedRowBytes, length_stoppedRowBytes⟩).directory = some d ∧
      8 ≤ d.liveCount :=
  (@parse_finds_iff ⟨0, stoppedRowBytes, length_stoppedRowBytes⟩ _ _ _ _ stoppedRowDirectory).mpr
    (.inl (fun _ => by decide))

end StoppedRows

section EmptyRows

def emptyRowBytes : Bytes := eightSlotBytes ++ List.replicate 4080 0

theorem length_emptyRowBytes : emptyRowBytes.length = pageSize := by
  rw [emptyRowBytes, List.length_append, List.length_replicate]
  rfl

theorem emptyRowBytes_free {i : Nat} (h : 15 ≤ i) : emptyRowBytes.getD i 0 = 0 := by
  by_cases hi : i = 15
  · subst hi
    rfl
  · rw [emptyRowBytes, List.getD_eq_getElem?_getD, List.getElem?_append_right (by simp [eightSlotBytes]; omega),
      List.getElem?_replicate]
    split <;> rfl

theorem emptyRowDirectory : FreeSpaceDirectory emptyRowBytes false 0 eightSlots 60 := by
  refine ⟨⟨?_, by decide, by decide, by decide, by decide, by decide, by decide⟩, by decide, rfl, ?_⟩
  · decide
  · intro i hi _
    exact emptyRowBytes_free (by simp [eightSlots] at hi; omega)

theorem liveOf_emptyRow {bigEndian : Bool} {first : Nat} {ws : List Nat} (hfirst : 1 ≤ first)
    (hwords : ∀ i (h : i < ws.length), ws[i] = readU16 bigEndian emptyRowBytes (first + 2 * i)) :
    (liveOf ws).length ≤ 7 := by
  apply length_liveOf_le
  intro i hi h
  rw [hwords i h, readU16_zero]
  · exact emptyRowBytes_free (by omega)
  · exact emptyRowBytes_free (by omega)

theorem emptyRow_not_found :
    FreeSpaceDirectory emptyRowBytes false 0 eightSlots 60 ∧
    ¬ ∃ d, (SlottedPage.parse ⟨0, emptyRowBytes, length_emptyRowBytes⟩).directory = some d ∧
      (liveOf eightSlots).length ≤ d.liveCount := by
  refine ⟨emptyRowDirectory, ?_⟩
  rw [SlottedPage.parse_directory, findSlotDirectory_iff]
  rintro ⟨bigEndian, first, ws, harray, hended, hlive⟩
  have henough : 8 ≤ (liveOf ws).length := harray.enough
  by_cases hfirst : 1 ≤ first
  · have := liveOf_emptyRow hfirst harray.words
    omega
  · obtain rfl : first = 0 := by omega
    cases bigEndian with
    | false =>
        have hstops := stopsAtRow_of_ended emptyRowDirectory harray hended (by decide)
        exact hstops.1 (readU16_zero (emptyRowBytes_free (by decide)) (emptyRowBytes_free (by decide)))
    | true =>
        have hpos := List.length_pos_of_ne_nil harray.ne_nil
        have hhead : ws[0] = 0x9001 := harray.words 0 hpos
        have hlive : ws[0] ∈ liveOf ws := by
          rw [liveOf, List.mem_filter]
          exact ⟨List.getElem_mem hpos, by simp [hhead]⟩
        have hoffset := harray.offsets _ hlive
        rw [hhead] at hoffset
        exact absurd hoffset (by decide)

end EmptyRows

end OpenSqlAny.SlotFreeSpace
