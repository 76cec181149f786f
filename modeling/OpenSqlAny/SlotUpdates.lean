import OpenSqlAny.Library.Overlays
import OpenSqlAny.SlotRows
import OpenSqlAny.WrittenDirectories

namespace OpenSqlAny.SlotUpdates

open Library.Cuts Library.Faults Library.LittleEndian Library.Overlays PageStores SlottedPages SlotScanning SlotRows
  WrittenDirectories

def unclassifiedPrefix {ε : Type} (slotted : SlottedPage) : Outcome ε (Option Bytes) :=
  match slotted.directory with
  | none => pure none
  | some dir =>
      let stop := dir.arrayStart
      if stop = 0 then pure none
      else do
        let before ← slice slotted.page.bytes 0 stop
        pure (if before.all (· == 0) then none else some before)

/-- Bytes to be written over the front of the row at an offset. -/
structure RowUpdate where
  offset : Nat
  data : Bytes

def updatePage (page : Page) (update : RowUpdate) : Page :=
  ⟨page.index, overlay page.bytes update.offset update.data, length_overlay.trans page.length_eq⟩

def updateRow (row : Nat × Nat × Bytes) (update : RowUpdate) : Nat × Nat × Bytes :=
  if row.2.1 = update.offset then (row.1, row.2.1, update.data ++ row.2.2.drop update.data.length) else row

/-- An update of a row that the search for directories does not read, within the row. -/
structure InsideRow (dir : SlotDirectory) (update : RowUpdate) : Prop where
  live : update.offset ∈ dir.liveSlots
  unread : searchLimit ≤ update.offset
  fits : update.offset + update.data.length ≤ blockEnd dir.liveSlots trailerStart update.offset

section Search

variable {read read' : Nat → Nat}

theorem scanLoop_congr (h : ∀ pos, pos + 1 < searchLimit → read pos = read' pos) (pos : Nat) (slots : List Nat)
    (prev : Nat) (seenLive : Bool) : scanLoop read pos slots prev seenLive = scanLoop read' pos slots prev seenLive := by
  fun_induction scanLoop read pos slots prev seenLive with
  | case1 pos slots prev seenLive hpos hzero ih =>
      rw [h pos hpos] at hzero
      rw [ih, scanLoop.eq_def read' pos, if_pos hpos, if_pos hzero]
  | case2 pos slots prev seenLive hpos hzero hslot ih =>
      rw [h pos hpos] at hzero hslot
      rw [ih, scanLoop.eq_def read' pos, if_pos hpos, if_neg hzero, if_pos hslot, h pos hpos]
  | case3 pos slots prev seenLive hpos hzero hslot =>
      rw [h pos hpos] at hzero hslot
      rw [scanLoop.eq_def read' pos, if_pos hpos, if_neg hzero, if_neg hslot]
  | case4 pos slots prev seenLive hpos => rw [scanLoop.eq_def read' pos, if_neg hpos]

theorem hasLeadingZero_congr (h : ∀ pos, pos + 1 < searchLimit → read pos = read' pos) (start : Nat) :
    hasLeadingZero read start ↔ hasLeadingZero read' start := by
  rw [hasLeadingZero, hasLeadingZero]
  apply and_congr_right
  intro hstart
  rw [h start (by omega), h (start + 2) (by omega)]

variable {plain plain' : Bytes}

theorem readU16_congr (h : plain.take searchLimit = plain'.take searchLimit) (bigEndian : Bool) {pos : Nat}
    (hpos : pos + 1 < searchLimit) : readU16 bigEndian plain pos = readU16 bigEndian plain' pos := by
  have hget {i : Nat} (hi : i < searchLimit) : plain.getD i 0 = plain'.getD i 0 := by
    have hentry := congrArg (·[i]?) h
    simp only [List.getElem?_take_of_lt hi] at hentry
    rw [List.getD_eq_getElem?_getD, List.getD_eq_getElem?_getD, hentry]
  cases bigEndian with
  | false =>
      change u16le plain pos = u16le plain' pos
      rw [u16le, u16le, hget (by omega), hget hpos]
  | true =>
      change u16be plain pos = u16be plain' pos
      rw [u16be, u16be, hget (by omega), hget hpos]

theorem scanFrom_congr (h : plain.take searchLimit = plain'.take searchLimit) (start : Nat) (bigEndian : Bool) :
    scanFrom plain start bigEndian = scanFrom plain' start bigEndian := by
  have hread := fun pos => @readU16_congr plain plain' h bigEndian pos
  have hzero : decide (hasLeadingZero (readU16 bigEndian plain) start) =
      decide (hasLeadingZero (readU16 bigEndian plain') start) := decide_eq_decide.mpr (hasLeadingZero_congr hread start)
  simp only [scanFrom, hzero, scanLoop_congr hread]

/-- The directory of a page depends on the bytes below the search limit only. -/
theorem findSlotDirectory_congr (h : plain.take searchLimit = plain'.take searchLimit) :
    findSlotDirectory plain = findSlotDirectory plain' := by
  rw [findSlotDirectory, findSlotDirectory]
  simp only [scanFrom_congr h]

end Search

section Steps

variable {page : Page} {dir : SlotDirectory} {update : RowUpdate} {read : Nat → Nat}

theorem directory_updatePage (hunread : searchLimit ≤ update.offset) :
    (SlottedPage.parse (updatePage page update)).directory = (SlottedPage.parse page).directory := by
  rw [SlottedPage.parse_directory, SlottedPage.parse_directory]
  exact findSlotDirectory_congr (take_overlay hunread)

theorem blockRow_updatePage (h : SlotArray read first dir.slots) (hinside : InsideRow dir update) {entry : Nat × Nat}
    (hentry : entry ∈ liveEntries dir.slots) : blockRow (updatePage page update).bytes dir.slots entry =
      updateRow (blockRow page.bytes dir.slots entry) update := by
  have hlive := mem_liveOf_of_mem_liveEntries hentry
  have hfits := hinside.fits
  rw [updateRow]
  by_cases hsame : entry.1 = update.offset
  · refine Eq.trans ?_ (if_pos hsame).symm
    have hstop : blockEnd (liveOf dir.slots) trailerStart update.offset ≤ page.bytes.length :=
      (blockEnd_le_stop (lt_trailer h)).trans (page.length_eq.symm ▸ (by decide : 0xFF0 ≤ 4096))
    rw [blockRow, blockRow, hsame, updatePage]
    simp only [SlotDirectory.liveSlots] at hfits
    simp only [window_overlay hfits hstop]
  · refine Eq.trans ?_ (if_neg hsame).symm
    rw [blockRow, blockRow, updatePage]
    simp only
    rw [window_overlay_of_not]
    rcases Nat.lt_or_gt_of_ne hsame with hbelow | habove
    · exact .inl (blockEnd_le hinside.live hbelow)
    · exact .inr (hfits.trans (blockEnd_le hlive habove))

theorem array_of_parse (hdir : (SlottedPage.parse page).directory = some dir) :
    ∃ bigEndian, SlotArray (readU16 bigEndian page.bytes) dir.arrayStart dir.slots := by
  rw [SlottedPage.parse_directory] at hdir
  obtain ⟨start, bigEndian, -, hdescribes⟩ := findSlotDirectory_describes hdir
  exact ⟨bigEndian, hdescribes.array⟩

theorem rowSlots_updatePage {ε : Type} (hdir : (SlottedPage.parse page).directory = some dir)
    (hinside : InsideRow dir update) {rows : List (Nat × Nat × Bytes)}
    (hrows : rowSlots (ε := ε) (SlottedPage.parse page) = .ok rows) :
    rowSlots (ε := ε) (SlottedPage.parse (updatePage page update)) = .ok (rows.map (updateRow · update)) := by
  obtain ⟨bigEndian, harray⟩ := array_of_parse hdir
  have hdir' := (directory_updatePage hinside.unread).trans hdir
  rw [rowSlots_eq_blockRows hdir harray, SlottedPage.parse_page, Except.ok.injEq] at hrows
  rw [rowSlots_eq_blockRows hdir' harray, SlottedPage.parse_page, ← hrows, List.map_map, Except.ok.injEq]
  apply List.map_congr_left
  intro entry hentry
  exact blockRow_updatePage harray hinside hentry

theorem unclassifiedPrefix_updatePage {ε : Type} (hdir : (SlottedPage.parse page).directory = some dir)
    (hunread : searchLimit ≤ update.offset) :
    unclassifiedPrefix (ε := ε) (SlottedPage.parse (updatePage page update)) =
      unclassifiedPrefix (ε := ε) (SlottedPage.parse page) := by
  obtain ⟨bigEndian, harray⟩ := array_of_parse hdir
  have hstart : dir.arrayStart ≤ searchLimit := (Nat.le_add_right _ _).trans harray.fits
  have hbefore : (slice (updatePage page update).bytes 0 dir.arrayStart : Outcome ε Bytes) =
      slice page.bytes 0 dir.arrayStart := by
    rw [slice, slice, updatePage]
    simp only [length_overlay, take_overlay (hstart.trans hunread)]
  rw [unclassifiedPrefix, unclassifiedPrefix, directory_updatePage hunread, hdir, SlottedPage.parse_page,
    SlottedPage.parse_page]
  simp only [hbefore]

end Steps

/-- However often rows are updated in place, the page keeps its directory, the bytes before it and its rows,
and each row is the old one with its own updates made in their order. -/
theorem rows_after_updates {ε : Type} (page : Page) (dir : SlotDirectory) (updates : List RowUpdate)
    (hdir : (SlottedPage.parse page).directory = some dir) (hinside : ∀ update ∈ updates, InsideRow dir update) :
    (SlottedPage.parse (updates.foldl updatePage page)).directory = some dir ∧
      unclassifiedPrefix (ε := ε) (SlottedPage.parse (updates.foldl updatePage page)) =
        unclassifiedPrefix (ε := ε) (SlottedPage.parse page) ∧
      ∃ rows, rowSlots (ε := ε) (SlottedPage.parse page) = .ok rows ∧
        rowSlots (ε := ε) (SlottedPage.parse (updates.foldl updatePage page)) =
          .ok (rows.map fun row => updates.foldl updateRow row) := by
  induction updates generalizing page with
  | nil =>
      obtain ⟨bigEndian, harray⟩ := array_of_parse hdir
      refine ⟨hdir, rfl, _, rowSlots_eq_blockRows hdir harray, ?_⟩
      rw [List.foldl_nil, rowSlots_eq_blockRows hdir harray]
      simp only [List.foldl_nil, List.map_id']
  | cons update updates ih =>
      obtain ⟨hfirst, hrest⟩ := List.forall_mem_cons.mp hinside
      have hdir' := (directory_updatePage hfirst.unread).trans hdir
      obtain ⟨hafter, hprefix, rows', hrows', hupdated⟩ := ih (updatePage page update) hdir' hrest
      obtain ⟨bigEndian, harray⟩ := array_of_parse hdir
      have hrows := rowSlots_eq_blockRows (ε := ε) hdir harray
      have hstep := rowSlots_updatePage hdir hfirst hrows
      obtain rfl := Except.ok.inj (hrows'.symm.trans hstep)
      refine ⟨hafter, hprefix.trans (unclassifiedPrefix_updatePage hdir hfirst.unread), _, hrows, ?_⟩
      rw [List.foldl_cons, hupdated, List.map_map]
      rfl

def highOffsets : List Nat := [3598, 3341, 3084, 2827, 2570, 2313, 2056, 1799]

def highRowBytes : Bytes :=
  List.replicate 0x20 0 ++ highOffsets.flatMap (toLeBytes 2) ++ List.replicate (1799 - 0x30) 0 ++
    List.replicate (pageSize - 1799) 0xFF

theorem length_highRowBytes : highRowBytes.length = pageSize := by
  rw [highRowBytes, List.length_append, List.length_replicate, List.length_append, List.length_replicate]
  rfl

def highRowPage : Page := ⟨0, highRowBytes, length_highRowBytes⟩

theorem writtenDirectory_highRows : WrittenDirectory highRowBytes 0x20 highOffsets where
  zero_before := by decide
  words := by decide
  zero_behind i hlow hhigh := by
    have hfront : (List.replicate 0x20 0 ++ highOffsets.flatMap (toLeBytes 2) : Bytes).length = 0x30 := rfl
    change 0x30 ≤ i at hlow
    rw [searchLimit] at hhigh
    rw [highRowBytes, List.append_assoc, List.getD_append_right _ _ _ _ (by omega), hfront,
      List.getD_append _ _ _ _ (by rw [List.length_replicate]; omega), List.getD_replicate]
    omega
  room := by decide
  apart := by decide
  rows := by decide
  head_live := by decide
  last_live := by decide
  descending := by decide
  enough := by decide

def highRowDirectory : SlotDirectory := directoryOf 0x20 highOffsets

theorem directory_highRowPage : (SlottedPage.parse highRowPage).directory = some highRowDirectory :=
  (SlottedPage.parse_directory _).trans (findSlotDirectory_written writtenDirectory_highRows)

def highRows (fourth last : Bytes) : List (Nat × Nat × Bytes) :=
  [(0, 3598, List.replicate 482 0xFF), (1, 3341, List.replicate 257 0xFF), (2, 3084, List.replicate 257 0xFF),
    (3, 2827, fourth ++ List.replicate (257 - fourth.length) 0xFF), (4, 2570, List.replicate 257 0xFF),
    (5, 2313, List.replicate 257 0xFF), (6, 2056, List.replicate 257 0xFF),
    (7, 1799, last ++ List.replicate (257 - last.length) 0xFF)]

theorem rowSlots_highRowPage : rowSlots (ε := Empty) (SlottedPage.parse highRowPage) = .ok (highRows [] []) := by
  rw [rowSlots_eq directory_highRowPage, Except.ok.injEq]
  decide +kernel

theorem rows_after_updates_highRows :
    (SlottedPage.parse ([⟨2827, [1, 2]⟩, ⟨1799, [3]⟩].foldl updatePage highRowPage)).directory = some highRowDirectory ∧
      unclassifiedPrefix (ε := Empty)
          (SlottedPage.parse ([⟨2827, [1, 2]⟩, ⟨1799, [3]⟩].foldl updatePage highRowPage)) =
        unclassifiedPrefix (SlottedPage.parse highRowPage) ∧
      rowSlots (ε := Empty) (SlottedPage.parse ([⟨2827, [1, 2]⟩, ⟨1799, [3]⟩].foldl updatePage highRowPage)) =
        .ok (highRows [1, 2] [3]) := by
  have hinside : ∀ update ∈ ([⟨2827, [1, 2]⟩, ⟨1799, [3]⟩] : List RowUpdate), InsideRow highRowDirectory update := by
    simp only [List.forall_mem_cons, List.not_mem_nil, false_implies, implies_true, and_true]
    exact ⟨⟨by decide, by decide, by decide⟩, ⟨by decide, by decide, by decide⟩⟩
  obtain ⟨hdir, hprefix, rows, hrows, hupdated⟩ :=
    rows_after_updates (ε := Empty) highRowPage highRowDirectory _ directory_highRowPage hinside
  obtain rfl := Except.ok.inj (rowSlots_highRowPage.symm.trans hrows)
  exact ⟨hdir, hprefix, hupdated⟩

end OpenSqlAny.SlotUpdates
