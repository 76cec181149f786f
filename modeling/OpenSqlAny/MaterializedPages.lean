import OpenSqlAny.RowSegments

namespace OpenSqlAny.MaterializedPages

open Library.Faults Library.LittleEndian RowSegments

def materializedTablePageLen : Nat := 4096

def materializedTablePageType : UInt8 := 4

def pageKeyOffset : Nat := 0

def pageTypeOffset : Nat := 0x10

def recordCountOffset : Nat := 0x16

def directoryOffset : Nat := 0x1c

def directoryEntryLen : Nat := 2

structure MaterializedTablePage where
  bytes : Bytes
  key : UInt32
  recordCount : UInt16
  deriving DecidableEq, Repr

structure MaterializedRowRecord where
  recordId : UInt16
  directoryOffset : UInt16
  byteOffset : Nat
  bytes : Bytes
  deriving DecidableEq, Repr

def MaterializedRowRecord.declaredLen (record : MaterializedRowRecord) : Nat := record.bytes.length

inductive MaterializedPageError
  | invalidPageLength (actual : Nat)
  | wrongPageType (actual : UInt8)
  | directoryOutOfBounds (recordCount : UInt16)
  | recordIdOutOfRange (recordId recordCount : UInt16)
  | missingRecord (recordId : UInt16)
  | recordOutOfBounds (recordId directoryOffset : UInt16)
  | invalidRecordLength (recordId directoryOffset : UInt16) (declared available : Nat)
  deriving DecidableEq, Repr

def checkedAdd (a b : Nat) : Option Nat := if a + b ≤ usizeMax then some (a + b) else none

def checkedMul (a b : Nat) : Option Nat := if a * b ≤ usizeMax then some (a * b) else none

def okOr {ε α : Type} (x : Option α) (e : ε) : Outcome ε α :=
  match x with
  | some a => .ok a
  | none => fail e

/-- The lookup `bytes.get(lo..hi)`, which does not panic. -/
def getRange (bytes : Bytes) (lo hi : Nat) : Option Bytes :=
  if lo ≤ hi ∧ hi ≤ bytes.length then some ((bytes.take hi).drop lo) else none

namespace MaterializedTablePage

variable (page : MaterializedTablePage)

def directoryEnd : Outcome MaterializedPageError Nat := do
  let bytes ← okOr (checkedMul page.recordCount.toNat directoryEntryLen) (.directoryOutOfBounds page.recordCount)
  let stop ← okOr (checkedAdd directoryOffset bytes) (.directoryOutOfBounds page.recordCount)
  if stop > page.bytes.length then fail (.directoryOutOfBounds page.recordCount)
  else pure stop

def directoryEntry (recordId : UInt16) : Outcome MaterializedPageError UInt16 :=
  if recordId ≥ page.recordCount then fail (.recordIdOutOfRange recordId page.recordCount)
  else do
    let _ ← page.directoryEnd
    let index ← okOr (checkedMul recordId.toNat directoryEntryLen) (.recordIdOutOfRange recordId page.recordCount)
    let entry ← okOr (checkedAdd directoryOffset index) (.recordIdOutOfRange recordId page.recordCount)
    let stop ← okOr (checkedAdd entry directoryEntryLen) (.recordIdOutOfRange recordId page.recordCount)
    let bytes ← okOr (getRange page.bytes entry stop) (.recordIdOutOfRange recordId page.recordCount)
    pure (UInt16.ofNat (fromLeBytes [← Library.Faults.index bytes 0, ← Library.Faults.index bytes 1]))

def rowAt (recordId offset : UInt16) : Outcome MaterializedPageError (Nat × Bytes) := do
  let directoryEnd ← page.directoryEnd
  let start ← okOr (checkedAdd directoryOffset offset.toNat) (.recordOutOfBounds recordId offset)
  if start < directoryEnd then fail (.recordOutOfBounds recordId offset)
  else do
    let recordBytes ← okOr (getRange page.bytes start page.bytes.length) (.recordOutOfBounds recordId offset)
    if recordBytes.length < 2 then fail (.invalidRecordLength recordId offset 0 recordBytes.length)
    else do
      let declared := fromLeBytes [← index recordBytes 0, ← index recordBytes 1]
      if declared < 2 ∨ declared > recordBytes.length then
        fail (.invalidRecordLength recordId offset declared recordBytes.length)
      else pure (start, ← slice recordBytes 0 declared)

def validateEntry (recordId : UInt16) : Outcome MaterializedPageError Unit := do
  let offset ← page.directoryEntry recordId
  if offset ≠ 0 then do
    let _ ← page.rowAt recordId offset
    pure ()
  else pure ()

def parse (bytes : Bytes) : Outcome MaterializedPageError MaterializedTablePage :=
  if bytes.length ≠ materializedTablePageLen then fail (.invalidPageLength bytes.length)
  else do
    let pageType ← index bytes pageTypeOffset
    if pageType ≠ materializedTablePageType then fail (.wrongPageType pageType)
    else do
      let key := UInt32.ofNat (fromLeBytes [← index bytes pageKeyOffset, ← index bytes (pageKeyOffset + 1),
        ← index bytes (pageKeyOffset + 2), ← index bytes (pageKeyOffset + 3)])
      let recordCount := UInt16.ofNat
        (fromLeBytes [← index bytes recordCountOffset, ← index bytes (recordCountOffset + 1)])
      let page : MaterializedTablePage := ⟨bytes, key, recordCount⟩
      let _ ← page.directoryEnd
      ((List.range recordCount.toNat).map UInt16.ofNat).forM page.validateEntry
      pure page

def record (recordId : UInt16) : Outcome MaterializedPageError MaterializedRowRecord := do
  let offset ← page.directoryEntry recordId
  if offset = 0 then fail (.missingRecord recordId)
  else do
    let (byteOffset, bytes) ← page.rowAt recordId offset
    pure ⟨recordId, offset, byteOffset, bytes⟩

end MaterializedTablePage

end OpenSqlAny.MaterializedPages
