import OpenSqlAny.MaterializedTables
import OpenSqlAny.SlotWriting
import OpenSqlAny.SnapshotReads
import OpenSqlAny.StoreDecoding

namespace OpenSqlAny.DatabaseReading

open Library.Faults Library.HashEntries Library.LittleEndian RowTypes RowDecoder RowSoundness CarrierReading CarrierSizes
open MaterializedTables PageStores StoreSnapshots SnapshotReads ApFill ApPages StoreDecoding
open SlottedPages SlotRows SlotWriting

def readRow (schema : RowSchema) (index : Nat) (row : Bytes) : Outcome DecodeError (Nat × DecodedRow) := do
  let decoded ← decodeRowExact row schema
  pure (index, decoded)

def readRows (schema : RowSchema) (slotted : SlottedPage) : Outcome DecodeError (List (Nat × DecodedRow)) := do
  let rows ← rowSlots slotted
  rows.mapM fun row => readRow schema row.1 row.2.2

/-- A slotted page whose entries hold rows of a schema or are deleted. -/
structure RowTable (schema : RowSchema) extends SlotPlan where
  slots : List (Option (PlainRow schema))
  entries_eq : entries = slots.map (Option.map fun row => envelope row.payload)

def RowTable.decoded {schema : RowSchema} (table : RowTable schema) : List (Nat × DecodedRow) :=
  table.slots.zipIdx.filterMap fun entry => entry.1.map fun row => (entry.2, row.decoded)

section Rows

variable {schema : RowSchema}

theorem readRow_plainRow (index : Nat) (row : PlainRow schema) :
    readRow schema index (envelope row.payload) = .ok (index, row.decoded) := by
  have hdecoded : decodeRowExact (envelope row.payload) schema = .ok row.decoded :=
    (decodeRowExact_envelope_iff row.fits).mpr row.flagFree
  rw [readRow, hdecoded]
  rfl

theorem readRow_entries (slots : List (Option (PlainRow schema))) (first : Nat) :
    (((slots.map (Option.map fun row => envelope row.payload)).zipIdx first).filterMap fun entry =>
        entry.1.map fun row => (entry.2, row)).mapM (fun row : Nat × Bytes => readRow schema row.1 row.2) =
      .ok ((slots.zipIdx first).filterMap fun entry => entry.1.map fun row => (entry.2, row.decoded)) := by
  induction slots generalizing first with
  | nil => rfl
  | cons slot slots ih =>
      cases slot with
      | none => exact ih (first + 1)
      | some row =>
          change List.mapM _ ((first, envelope row.payload) :: _) = Except.ok ((first, row.decoded) :: _)
          rw [List.mapM_cons, readRow_plainRow, ok_bind, ih (first + 1)]
          rfl

theorem readRows_table (table : RowTable schema) {page : Page} (h : page.bytes = table.bytes) :
    readRows schema (SlottedPage.parse page) = .ok table.decoded := by
  obtain ⟨index, bytes, hlength⟩ := page
  obtain rfl : bytes = table.bytes := h
  have hrows := table.rowSlots_page (ε := DecodeError) index
  have hdecoded := readRow_entries table.slots 0
  rw [← table.entries_eq, ← table.map_rows, List.mapM_map] at hdecoded
  change rowSlots (SlottedPage.parse ⟨index, table.bytes, hlength⟩) >>= _ = _
  rw [SlotPlan.page] at hrows
  rw [hrows, ok_bind]
  exact hdecoded

end Rows

theorem openStore_stored (database : Database) (keys : PageKeys) {calls : List ReadCall}
    (hfills : fills (database.count * pageSize) calls = true) :
    openStore true (.ok (fileReader (database.storedUnder keys).bytes (database.count * pageSize)
      (database.count * pageSize) calls)) = some (.ok (database.storedUnder keys)) := by
  have hsize : (database.storedUnder keys).bytes.length = database.count * pageSize :=
    length_flatMap_pages (length_storedPage database keys) database.count
  have hle := (database.storedUnder keys).pageSize_le
  have haligned := (database.storedUnder keys).aligned
  rw [hsize] at hle haligned
  rw [openStore_eq_ok_iff, snapshot_fileReader hle haligned database.fits hsize.ge hfills, ← hsize, List.take_length]

theorem peelPage_page {database : Database} {keys : PageKeys} {pn : Nat} {model : ApModel}
    {orders : Nat → HashOrder UInt8 Nat} (hpn : pn < database.count) :
    ∃ page plain, (database.storedUnder keys).page pn = .ok page ∧
      peelPage model orders (database.storedUnder keys) page = some plain ∧
      plain.bytes = (database.page pn).bytes := by
  have hstored := PageStore.page_of_lt ((@pageCount_storedUnder database keys).symm ▸ hpn)
  have hplain := PageStore.page_of_lt ((@pageCount_plainStore database).symm ▸ hpn)
  exact ⟨_, _, hstored, peelPage_stored hpn hstored hplain, pageBytes_plainStore hpn⟩

/-- A stored database is opened from its file in whatever pieces the file is read, and each of its pages, peeled
with whatever has been learned, gives the rows that it was written with, be it slotted or a table page. -/
theorem database_rows_read (database : Database) (keys : PageKeys) (calls : List ReadCall)
    (hfills : fills (database.count * pageSize) calls = true) :
    ∃ store, openStore true (.ok (fileReader (database.storedUnder keys).bytes (database.count * pageSize)
        (database.count * pageSize) calls)) = some (.ok store) ∧
      ∀ (model : ApModel) (orders : Nat → HashOrder UInt8 Nat) (schema : RowSchema) (pn : Nat),
        pn < database.count → ∃ page plain, store.page pn = .ok page ∧ peelPage model orders store page = some plain ∧
          (∀ table : RowTable schema, (database.page pn).bytes = table.bytes →
            readRows schema (SlottedPage.parse plain) = .ok table.decoded) ∧
          ∀ table : TablePlan schema, (database.page pn).bytes = table.bytes →
            readTable schema plain.bytes = .ok (table.rows.mapIdx slotResult) := by
  refine ⟨database.storedUnder keys, openStore_stored database keys hfills, ?_⟩
  intro model orders schema pn hpn
  obtain ⟨page, plain, hstored, hpeeled, hbytes⟩ := @peelPage_page database keys pn model orders hpn
  refine ⟨page, plain, hstored, hpeeled, ?_, ?_⟩
  · intro table htable
    exact readRows_table table (hbytes.trans htable)
  · intro table htable
    rw [hbytes, htable]
    exact readTable_written table

section SmallInts

def smallIntRow : PlainRow smallIntSchema where
  values := [.integer 258]
  payload := [0x80, 2, 1]
  fits := by decide
  serialized := serialized_of_decoded (by decide) (by decide)

theorem length_smallIntTrailer : (List.replicate 16 (0 : UInt8)).length = 16 :=
  List.length_replicate

/-- Nine entries from the start of the page on, the second of them deleted. -/
def smallIntTable : RowTable smallIntSchema where
  arrayStart := 0
  entries := some (envelope [0x80, 2, 1]) :: none :: List.replicate 7 (some (envelope [0x80, 2, 1]))
  trailer := List.replicate 16 0
  slots := some smallIntRow :: none :: List.replicate 7 (some smallIntRow)
  apart := Nat.zero_ne_one
  room := by decide
  nonempty := by
    rintro row hrow rfl
    revert hrow
    decide
  first_live := by decide
  last_live := by decide
  enough := by decide
  fits := by decide
  length_trailer := length_smallIntTrailer
  entries_eq := rfl

def smallIntPage : PlainPage where
  body := smallIntTable.front ++ rowArea smallIntTable.entries
  trailer := smallIntTable.trailer
  length_body := by
    rw [List.length_append, SlotPlan.length_front]
    rfl
  length_trailer := rfl
  sparse := by
    change ∀ si < 8, 3 * (sectorOf _ si).length < 4 * (sectorOf _ si).count 0
    decide +kernel

theorem smallInt_fits : 1 * pageSize < 2 ^ 63 := by decide

def smallIntDatabase : Database := ⟨fun _ => smallIntPage, 1, Nat.one_pos, smallInt_fits⟩

theorem database_rows_read_smallInts :
    ∃ store page plain, store.page 0 = .ok page ∧
      peelPage ⟨[], 0⟩ (fun _ => insertionOrder) store page = some plain ∧
      readRows smallIntSchema (SlottedPage.parse plain) = .ok smallIntTable.decoded := by
  obtain ⟨store, -, hpages⟩ :=
    database_rows_read smallIntDatabase ⟨fun _ => 1, fun _ _ => 2⟩ [.bytes 4000 [], .bytes 96 []] (by decide)
  obtain ⟨page, plain, hpage, hplain, hslotted, -⟩ :=
    hpages ⟨[], 0⟩ (fun _ => insertionOrder) smallIntSchema 0 Nat.one_pos
  exact ⟨store, page, plain, hpage, hplain, hslotted smallIntTable rfl⟩

end SmallInts

end OpenSqlAny.DatabaseReading
