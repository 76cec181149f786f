import OpenSqlAny.CarrierSizes
import OpenSqlAny.MaterializedWriting

namespace OpenSqlAny.MaterializedTables

open Library.Faults Library.LittleEndian RowTypes RowDecoder RowGrammar RowSoundness RowSegments SegmentReading
open CarrierReading CarrierSizes MaterializedPages MaterializedPages.MaterializedTablePage MaterializedReading
open MaterializedWriting

inductive TableError
  | page (error : MaterializedPageError)
  | row (recordId : UInt16) (error : DecodeError)
  deriving DecidableEq, Repr

/-- The row of a record, as a caller of the page parser and the carrier decoder reads it. -/
def tableRow (schema : RowSchema) (page : MaterializedTablePage) (recordId : UInt16) : Outcome TableError DecodedRow := do
  let record ← mapErr .page (page.record recordId)
  mapErr (.row recordId) (decodeMaterializedRowRecordExact record.bytes schema)

def readTable (schema : RowSchema) (bytes : Bytes) : Outcome TableError (List (Outcome TableError DecodedRow)) := do
  let page ← mapErr .page (parse bytes)
  pure ((List.range page.recordCount.toNat).map fun i => tableRow schema page (UInt16.ofNat i))

structure PlainRow (schema : RowSchema) where
  values : List Value
  payload : Bytes
  fits : payload.length + 2 < 2 ^ 13
  serialized : Serializes schema (payload.length + 2) values (envelope payload)

def carrierOf (payload : Bytes) : Bytes := segmentBytes 0 none payload

def PlainRow.decoded {schema : RowSchema} (row : PlainRow schema) : DecodedRow :=
  ⟨row.payload.length + 2, row.payload.length + 2, 0, row.values⟩

/-- A page whose slots hold rows or nothing. -/
structure TablePlan (schema : RowSchema) extends PagePlan where
  rows : List (Option (PlainRow schema))
  slots_eq : slots = rows.map (Option.map fun row => carrierOf row.payload)

def slotResult {schema : RowSchema} (i : Nat) : Option (PlainRow schema) → Outcome TableError DecodedRow
  | none => fail (.page (.missingRecord (UInt16.ofNat i)))
  | some row => .ok row.decoded

section Rows

variable {schema : RowSchema} {input payload : Bytes} {r : DecodedRow}

theorem carrierOf_zeroFlag (h : payload.length + 2 < 2 ^ 13) : ZeroFlagCarrier (carrierOf payload) := by
  refine zeroFlagCarrier_iff.mpr ⟨payload, ?_, rfl⟩
  rw [segmentLen, linkBytes, List.length_nil]
  omega

theorem decodeMaterialized_eq_ok_iff : decodeMaterializedRowRecordExact input schema = .ok r ↔
    ∃ payload, input = carrierOf payload ∧ payload.length + 2 < 2 ^ 13 ∧ FlagFreeRow schema payload r := by
  constructor
  · intro h
    by_cases hcarrier : ZeroFlagCarrier input
    case neg =>
      obtain ⟨e, he, -⟩ := decodeMaterialized_of_not schema hcarrier
      rw [he] at h
      cases h
    by_cases hsize : 8190 ≤ (input.drop 3).length
    · rw [decodeMaterialized_oversized schema hcarrier hsize] at h
      split at h
      · cases h
      · cases h
    · obtain ⟨payload, -, rfl⟩ := zeroFlagCarrier_iff.mp hcarrier
      rw [drop_segmentBytes] at hsize
      have hfits : payload.length + 2 < 2 ^ 13 := by omega
      rw [decodeMaterialized_of_carrier hcarrier, drop_segmentBytes, decodeRowExact_envelope_iff hfits] at h
      exact ⟨payload, rfl, hfits, h⟩
  · rintro ⟨payload, rfl, hfits, h⟩
    rw [decodeMaterialized_of_carrier (carrierOf_zeroFlag hfits), carrierOf, drop_segmentBytes]
    exact (decodeRowExact_envelope_iff hfits).mpr h

theorem PlainRow.flagFree (row : PlainRow schema) : FlagFreeRow schema row.payload row.decoded :=
  ⟨rfl, rfl, rfl, row.serialized⟩

theorem tableRow_eq_ok_iff {page : MaterializedTablePage} {recordId : UInt16} : tableRow schema page recordId = .ok r ↔
    ∃ payload, (page.record recordId).map MaterializedRowRecord.bytes = .ok (carrierOf payload) ∧
      payload.length + 2 < 2 ^ 13 ∧ FlagFreeRow schema payload r := by
  rw [tableRow]
  cases hrecord : page.record recordId with
  | error fault =>
      cases fault with
      | err e => simp [mapErr, bind, Except.bind, Except.map]
      | panic => simp [mapErr, bind, Except.bind, Except.map]
  | ok record =>
      change mapErr _ _ = _ ↔ _
      rw [mapErr_eq_ok_iff, decodeMaterialized_eq_ok_iff]
      simp only [Except.map, Except.ok.injEq]

end Rows

section Written

variable {schema : RowSchema} (table : TablePlan schema)

theorem TablePlan.length_rows : table.rows.length < 2 ^ 16 := by
  have hfills := table.fills
  rw [table.slots_eq, List.length_map] at hfills
  omega

theorem tableRow_written {i : Nat} (hi : i < table.rows.length) :
    tableRow schema (pageOf table.bytes) (UInt16.ofNat i) = slotResult i table.rows[i] := by
  have hid : (UInt16.ofNat i).toNat = i := by
    rw [UInt16.toNat_ofNat', Nat.mod_eq_of_lt (hi.trans table.length_rows)]
  have hslot : table.slots[(UInt16.ofNat i).toNat]? = some (table.rows[i].map fun row => carrierOf row.payload) := by
    rw [hid, table.slots_eq, List.getElem?_map, List.getElem?_eq_getElem hi, Option.map_some]
  have hrecord := record_written table.toPagePlan (UInt16.ofNat i)
  rw [lookup, hslot] at hrecord
  cases hrow : table.rows[i] with
  | none =>
      rw [hrow] at hrecord
      rw [tableRow, slotResult]
      cases hr : (pageOf table.bytes).record (UInt16.ofNat i) with
      | error fault =>
          rw [hr] at hrecord
          cases hrecord
          rfl
      | ok record =>
          rw [hr] at hrecord
          cases hrecord
  | some row =>
      rw [hrow] at hrecord
      exact tableRow_eq_ok_iff.mpr ⟨row.payload, hrecord, row.fits, row.flagFree⟩

theorem readTable_written : readTable schema table.bytes = .ok (table.rows.mapIdx slotResult) := by
  have hparse : parse table.bytes = .ok (pageOf table.bytes) := parse_eq_ok_iff.mpr ⟨table.wellFormed_bytes, rfl⟩
  have hcount : (pageOf table.bytes).recordCount.toNat = table.rows.length := by
    rw [toNat_recordCount_pageOf, PagePlan.recordCountOf_bytes, table.slots_eq, List.length_map]
  rw [readTable, hparse]
  change Except.ok _ = _
  rw [hcount, Except.ok.injEq]
  apply List.ext_getElem
  · rw [List.length_map, List.length_range, List.length_mapIdx]
  · intro i hi _
    rw [List.length_map, List.length_range] at hi
    rw [List.getElem_map, List.getElem_range, List.getElem_mapIdx]
    exact tableRow_written table hi

end Written

/-- The rows that a page is read as are those whose carriers its directory names; a page that was written
with rows in some of its slots gives these rows and says of the other slots that they are missing. -/
theorem tables_read (schema : RowSchema) :
    (∀ page recordId r, tableRow schema page recordId = .ok r ↔
      ∃ payload, (page.record recordId).map MaterializedRowRecord.bytes = .ok (carrierOf payload) ∧
        payload.length + 2 < 2 ^ 13 ∧ FlagFreeRow schema payload r) ∧
    ∀ table : TablePlan schema, readTable schema table.bytes = .ok (table.rows.mapIdx slotResult) :=
  ⟨fun _ _ _ => tableRow_eq_ok_iff, fun table => readTable_written table⟩

section MixedTable

theorem serialized_of_decoded {schema : RowSchema} {payload : Bytes} {values : List Value}
    (hfits : payload.length + 2 < 2 ^ 13)
    (h : decodeRowExact (envelope payload) schema = .ok ⟨payload.length + 2, payload.length + 2, 0, values⟩) :
    Serializes schema (payload.length + 2) values (envelope payload) :=
  ((decodeRowExact_envelope_iff hfits).mp h).body

def fullRow : PlainRow mixedSchema where
  values := [.integer 7, .bytes [0x43], .boolean false, .integer 258]
  payload := [0xC0, 7, 0, 1, 0x43, 2, 1, 0]
  fits := by decide
  serialized := serialized_of_decoded (by decide) (by decide)

def partialRow : PlainRow mixedSchema where
  values := [.null, .bytes [0x41, 0x42], .boolean true, .integer 258]
  payload := [0x40, 2, 0x41, 0x42, 2, 1, 1]
  fits := by decide
  serialized := serialized_of_decoded (by decide) (by decide)

/-- Two rows with an empty slot between them. -/
def mixedTable : TablePlan mixedSchema where
  toPagePlan := .blank 7 [some (carrierOf fullRow.payload), none, some (carrierOf partialRow.payload)]
    (by simp; decide) (by decide)
  rows := [some fullRow, none, some partialRow]
  slots_eq := rfl

example : mixedTable.rows.mapIdx slotResult =
    [.ok fullRow.decoded, fail (.page (.missingRecord 1)), .ok partialRow.decoded] := rfl

end MixedTable

end OpenSqlAny.MaterializedTables
