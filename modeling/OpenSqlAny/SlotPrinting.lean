import OpenSqlAny.Hexdumps
import OpenSqlAny.Library.IndexedLists
import OpenSqlAny.Library.TextWords
import OpenSqlAny.SlotWriting

namespace OpenSqlAny.SlotPrinting

open Library.Cuts Library.Faults Library.HexText Library.IndexedLists Library.LittleEndian Library.TextWords
open PageStores SlottedPages ApCaseSwitch SlotRows SlotListings SlotWriting Hexdumps

def deletedMark : List Char := ['d', 'e', 'l', 'e', 't', 'e', 'd']

def slotLine (slot : SlotRow) : Line :=
  let number := [' ', ' ', 's', 'l', 'o', 't', ' '] ++ paddedLeft 3 (Nat.toDigits 10 slot.index)
  match slot.row with
  | none => number ++ [' ', ' '] ++ deletedMark
  | some (off, bytes) =>
      let preview := bytes.take 32
      number ++ [' ', ' ', '@', '0', 'x'] ++ upperHexDigits 4 off ++ [' ', ' ', 'l', 'e', 'n', '='] ++
        paddedLeft 4 (Nat.toDigits 10 bytes.length) ++ [' ', ' '] ++ preview.flatMap hexPair ++ [' ', '|'] ++
        preview.map asciiOrDot ++ ['|']

def directoryLine (dir : SlotDirectory) : Line :=
  ("directory: scan=0x" ++ upperHex 3 dir.scanStart ++ "  array=0x" ++ upperHex 3 dir.arrayStart ++ "..0x" ++
    upperHex 3 dir.endOffset ++ "  slots=" ++ toString dir.slots.length ++ " live=" ++ toString dir.liveCount ++
    " deleted=" ++ toString dir.deletedCount ++ " leading_zero=" ++ toString dir.leadingZero).toList

def minOffsetLines (dir : SlotDirectory) : List Line :=
  match dir.minOffset with
  | none => []
  | some min => [("min row offset: 0x" ++ upperHex 4 min).toList]

def slots (store : PageStore) (pn : Nat) : Outcome StoreError (List Line) :=
  match store.page pn with
  | .error e => fail e
  | .ok page => do
      let title := ("page " ++ toString pn ++ "  type " ++
        PageType.debug (PageType.fromByte page.trailer.pageTypeRaw)).toList
      match (SlottedPage.parse page).directory with
      | none =>
          pure [title, "no plausible slot directory found".toList,
            "(note: QBW-obfuscated files must be deobfuscated first)".toList]
      | some dir =>
          let rows ← slotRows dir page.bytes
          pure (title :: directoryLine dir :: minOffsetLines dir ++ [] :: (rows.take 16).map slotLine)

/-- What a line says of an entry: of a row its offset, its length and its first bytes. -/
structure SlotSummary where
  index : Nat
  row : Option (Nat × Nat × Bytes)
  deriving DecidableEq, Repr

def summary (slot : SlotRow) : SlotSummary :=
  ⟨slot.index, slot.row.map fun row => (row.1, row.2.length, row.2.take 32)⟩

def readSlotLine (line : Line) : Option SlotSummary :=
  let (_, line) := readWord line
  let (index, line) := readWord line
  let (place, line) := readWord line
  if place = deletedMark then some ⟨Nat.ofDigitChars 10 index 0, none⟩
  else
    let (length, line) := readWord (line.drop 6)
    (readGroups line).map fun bytes =>
      ⟨Nat.ofDigitChars 10 index 0, some (hexNumber (place.drop 3), Nat.ofDigitChars 10 length 0, bytes)⟩

theorem readGroups_hexPairs (bytes : Bytes) (text : List Char) :
    readGroups (bytes.flatMap hexPair ++ ' ' :: '|' :: text) = some bytes := by
  have h := readGroups_written bytes id (fun _ => []) (by simp) (' ' :: '|' :: text)
  simp only [id_eq, List.append_nil, List.map_id] at h
  rw [h, readGroups_space, readGroups_bar, Option.map_some, List.append_nil]

theorem readWord_place (off : Nat) (rest : List Char) :
    readWord (' ' :: ' ' :: '@' :: '0' :: 'x' :: (upperHexDigits 4 off ++ ' ' :: rest)) =
      ('@' :: '0' :: 'x' :: upperHexDigits 4 off, ' ' :: rest) := by
  have hword : ∀ c ∈ '@' :: '0' :: 'x' :: upperHexDigits 4 off, c ≠ ' ' := by
    simp only [List.forall_mem_cons]
    exact ⟨by decide, by decide, by decide, fun c hc => ne_space_of_mem_upperHexDigits hc⟩
  exact @readWord_written [' ', ' '] _ (by simp) (List.cons_ne_nil _ _) hword rest

theorem readSlotLine_slotLine (slot : SlotRow) : readSlotLine (slotLine slot) = some (summary slot) := by
  obtain ⟨index, row⟩ := slot
  have hmark (rest : List Char) : readWord (' ' :: ' ' :: 's' :: 'l' :: 'o' :: 't' :: ' ' :: rest) =
      (['s', 'l', 'o', 't'], ' ' :: rest) :=
    @readWord_written [' ', ' '] ['s', 'l', 'o', 't'] (by simp) (List.cons_ne_nil _ _) (by simp) rest
  have hindex (rest : List Char) : readWord (' ' :: (paddedLeft 3 (Nat.toDigits 10 index) ++ ' ' :: rest)) =
      (Nat.toDigits 10 index, ' ' :: rest) :=
    @readWord_number [' '] 3 index (by simp) rest
  cases row with
  | none =>
      have hplace : readWord (' ' :: ' ' :: deletedMark) = (deletedMark, []) := by decide
      rw [slotLine, readSlotLine]
      simp only [List.append_assoc, List.cons_append, List.nil_append, hmark, hindex, hplace, if_true,
        Nat.ofDigitChars_ten_toDigits]
      rfl
  | some row =>
      obtain ⟨off, bytes⟩ := row
      have hlength (rest : List Char) : readWord (paddedLeft 4 (Nat.toDigits 10 bytes.length) ++ ' ' :: rest) =
          (Nat.toDigits 10 bytes.length, ' ' :: rest) :=
        @readWord_number [] 4 bytes.length (by simp) rest
      have hlive : '@' :: '0' :: 'x' :: upperHexDigits 4 off ≠ deletedMark := by simp [deletedMark]
      rw [slotLine, readSlotLine]
      simp only [List.append_assoc, List.cons_append, List.nil_append, hmark, hindex, readWord_place, if_neg hlive,
        List.drop_succ_cons, List.drop_zero, hlength, readGroups_space, readGroups_hexPairs,
        hexNumber_upperHexDigits, Nat.ofDigitChars_ten_toDigits]
      rfl

example : slotLine ⟨12, some (0xFEF, [0x41])⟩ = "  slot  12  @0x0FEF  len=   1  41 |A|".toList := by decide

theorem mapM_readSlotLine (rows : List SlotRow) : (rows.map slotLine).mapM readSlotLine = some (rows.map summary) := by
  induction rows with
  | nil => rfl
  | cons slot rows ih =>
      rw [List.map_cons, List.mapM_cons, readSlotLine_slotLine, ih]
      rfl

section Pages

variable {store : PageStore} {pn : Nat} {page : Page} {dir : SlotDirectory} {rows : List SlotRow}

theorem slots_eq_ok (hpage : store.page pn = .ok page) (hdir : (SlottedPage.parse page).directory = some dir)
    (hrows : slotRows (ε := StoreError) dir page.bytes = .ok rows) :
    ∃ head, slots store pn = .ok (head ++ [] :: (rows.take 16).map slotLine) := by
  rw [slots, hpage]
  simp only [hdir, hrows]
  exact ⟨_, rfl⟩

theorem listedRow_eq (bytes : Bytes) (live : List Nat) (off i : Nat) :
    ((listedRow bytes live off).map fun row => (i, row)) = if off = 0 then none else rowOf bytes live i off := by
  rw [listedRow, rowOf]
  by_cases hzero : off = 0
  · rw [if_pos hzero, if_pos hzero]
    rfl
  · rw [if_neg hzero, if_neg hzero]
    split
    · rfl
    · rfl

end Pages

/-- What `slots` prints of a page with a directory reads back as the first sixteen entries, each with what the
library gives for it: the offset, the length and the first bytes of its row, or nothing where it gives none; and
of a page that was written, as the entries that were written and the words of free space behind them, which pass
for deleted entries, up to sixteen in all. -/
theorem slots_show_rows {store : PageStore} {pn : Nat} {page : Page} (hpage : store.page pn = .ok page) :
    (∀ dir, (SlottedPage.parse page).directory = some dir → ∃ head lines shown rows,
      slots store pn = .ok (head ++ [] :: lines) ∧ lines.mapM readSlotLine = some shown ∧
      shown.map (·.index) = List.range (min 16 dir.slots.length) ∧
      rowSlots (ε := Empty) (SlottedPage.parse page) = .ok rows ∧
      shown.filterMap (fun slot => slot.row.map fun row => (slot.index, row)) =
        (rows.filter (·.1 < 16)).map fun row => (row.1, row.2.1, row.2.2.length, row.2.2.take 32)) ∧
    ∀ plan : SlotPlan, page.bytes = plan.bytes → ∃ head lines, slots store pn = .ok (head ++ [] :: lines) ∧
      lines.mapM readSlotLine = some (((plan.places ++ List.replicate plan.freeWords none).take 16).zipIdx.map
        fun entry : Option (Nat × Bytes) × Nat => summary ⟨entry.2, entry.1⟩) := by
  constructor
  · intro dir hdir
    obtain ⟨head, hhead⟩ := slots_eq_ok hpage hdir (slotRows_eq dir page)
    rw [← List.map_take, take_zipIdx] at hhead
    refine ⟨head, _, _, _, hhead, mapM_readSlotLine _, ?_, rowSlots_eq hdir, ?_⟩
    · rw [List.map_map, List.map_map, List.range_eq_range', ← List.length_take, ← List.zipIdx_map_snd 0]
      rfl
    · have hindex : ∀ (entry : Nat × Nat) (item : Nat × Nat × Bytes),
          (if entry.1 = 0 then none else rowOf page.bytes dir.liveSlots entry.2 entry.1) = some item →
            item.1 = entry.2 := by
        intro entry item h
        rw [← listedRow_eq, Option.map_eq_some_iff] at h
        obtain ⟨row, -, rfl⟩ := h
        rfl
      have hfirst := filterMap_take hindex dir.slots 0 16
      rw [Nat.zero_add] at hfirst
      rw [SlottedPage.parse_page, hfirst, List.map_filterMap, List.filterMap_map, List.filterMap_map]
      apply List.filterMap_congr
      rintro ⟨off, i⟩ _
      simp only [← listedRow_eq, Function.comp_apply, summary, Option.map_map]
      rfl
  · obtain ⟨index, bytes, hlength⟩ := page
    rintro plan rfl
    obtain ⟨head, hhead⟩ := slots_eq_ok hpage (plan.directory_page index) (plan.slotRows_page index)
    rw [← List.map_take, take_zipIdx] at hhead
    refine ⟨head, _, hhead, ?_⟩
    rw [mapM_readSlotLine, List.map_map]
    rfl

theorem slots_show_rows_eightRows :
    ∃ head lines, slots (PageStore.ofPage eightRows.bytes eightRows.length_bytes) 0 = .ok (head ++ [] :: lines) ∧
      lines.mapM readSlotLine =
        some (((eightRows.places ++ List.replicate eightRows.freeWords none).take 16).zipIdx.map
          fun entry : Option (Nat × Bytes) × Nat => summary ⟨entry.2, entry.1⟩) :=
  (slots_show_rows (PageStore.page_ofPage eightRows.length_bytes)).2 eightRows rfl

end OpenSqlAny.SlotPrinting
