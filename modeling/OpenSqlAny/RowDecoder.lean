import Mathlib.Data.List.TakeWhile
import OpenSqlAny.Library.CursorReader
import OpenSqlAny.Library.LittleEndian
import OpenSqlAny.Library.PackedBits
import OpenSqlAny.RowSegments
import OpenSqlAny.RowTypes

namespace OpenSqlAny.RowDecoder

open Library.Faults Library.CursorReader Library.LittleEndian Library.PackedBits RowTypes RowSegments

def rowSizeMask : Nat := 0x1fff

def rowFlagMask : Nat := 0xe000

def take (row : Bytes) (count column : Nat) : Reader DecodeError Bytes :=
  takeOr row count (.truncated column count)

def takeByte (row : Bytes) (column : Nat) : Reader DecodeError UInt8 := do
  let bytes ← take row 1 column
  lift (index bytes 0)

def exactSlice (width : Nat) (bytes : Bytes) : Outcome DecodeError Bytes :=
  if bytes.length = width then .ok bytes else panicked

def takeExact (row : Bytes) (width column : Nat) : Reader DecodeError Bytes := do
  let bytes ← take row width column
  lift (exactSlice width bytes)

def takeU16 (row : Bytes) (column : Nat) : Reader DecodeError Nat := do
  let bytes ← take row 2 column
  lift (do pure (fromLeBytes [← index bytes 0, ← index bytes 1]))

def takeUnsigned (row : Bytes) (width column : Nat) : Reader DecodeError Nat := do
  let bytes ← takeExact row width column
  pure (fromLeBytes bytes)

def takeSigned (row : Bytes) (width column : Nat) : Reader DecodeError Int := do
  let bytes ← takeExact row width column
  pure (toSigned (8 * width) (fromLeBytes bytes))

def decodeBooleanByte (column : Nat) (value : UInt8) : Outcome DecodeError Bool :=
  if value = 0 then .ok false
  else if value = 1 then .ok true
  else fail (.invalidBooleanByte column value)

def decodeBooleanU16 (column : Nat) (bytes : Bytes) : Outcome DecodeError Bool := do
  let value := fromLeBytes [← index bytes 0, ← index bytes 1]
  if value = 0 then .ok false
  else if value = 1 then .ok true
  else fail (.invalidBooleanU16 column value)

def isInlineBooleanLayout : BooleanTailLayout → Bool
  | .inlineBytes | .inlinePackedRunsMsbFirst | .inlinePackedRunsLsbFirst | .inlineU16Le => true
  | .bytes | .packedMsbFirst => false

/-- The loop of `inlineBooleanRunEnd` over the columns from its cursor `e` on. -/
def runEndFrom (present : List Bool) : List ColumnDef → Nat → Outcome DecodeError Nat
  | [], e => pure e
  | column :: columns, e =>
      if column.columnType = .boolean then do
        if ← index present e then runEndFrom present columns (e + 1) else pure e
      else pure e

def inlineBooleanRunEnd (schema : RowSchema) (present : List Bool) (start : Nat) :
    Outcome DecodeError Nat :=
  runEndFrom present (schema.columns.drop start) start

/-- Whether the column before `columnIndex` is a present Boolean, so that the
run it stands in has been read already. -/
def continuesRun (schema : RowSchema) (present : List Bool) (columnIndex : Nat) :
    Outcome DecodeError Bool :=
  if 0 < columnIndex then do
    let before ← index schema.columns (columnIndex - 1)
    if before.columnType = .boolean then index present (columnIndex - 1) else pure false
  else pure false

def inlinePackedBooleanBit (layout : BooleanTailLayout) (bytes : Bytes) (ordinal : Nat) :
    Outcome DecodeError Bool := do
  let bitMask ← match layout with
    | .inlinePackedRunsMsbFirst => pure (mask .msbFirst (ordinal % 8))
    | .inlinePackedRunsLsbFirst => pure (mask .lsbFirst (ordinal % 8))
    | _ => panicked
  let byte ← index bytes (ordinal / 8)
  pure (byte &&& bitMask != 0)

def requiredTail (layout : BooleanTailLayout) (boolCount : Nat) : Nat :=
  match layout with
  | .bytes => boolCount
  | .packedMsbFirst => byteCount boolCount
  | .inlineBytes | .inlinePackedRunsMsbFirst | .inlinePackedRunsLsbFirst | .inlineU16Le => 0

/-- The Boolean that the sidecar holds for the `ordinal`-th present Boolean column. -/
def tailBoolean (layout : BooleanTailLayout) (tail : Bytes) (ordinal columnIndex : Nat) :
    Outcome DecodeError Bool :=
  match layout with
  | .bytes => do decodeBooleanByte columnIndex (← index tail ordinal)
  | .packedMsbFirst => do
      let byte ← index tail (ordinal / 8)
      pure (byte &&& mask .msbFirst (ordinal % 8) != 0)
  | .inlineBytes | .inlinePackedRunsMsbFirst | .inlinePackedRunsLsbFirst | .inlineU16Le => panicked

def readSigned (row : Bytes) (column width : Nat) : Reader DecodeError Int :=
  match width with
  | 1 => takeSigned row 1 column
  | 2 => takeSigned row 2 column
  | 4 => takeSigned row 4 column
  | 8 => takeSigned row 8 column
  | _ => lift (fail (.invalidIntegerWidth column width))

def readUnsigned (row : Bytes) (column width : Nat) : Reader DecodeError Nat :=
  match width with
  | 1 => do pure (← takeByte row column).toNat
  | 2 => takeUnsigned row 2 column
  | 4 => takeUnsigned row 4 column
  | 8 => takeUnsigned row 8 column
  | _ => lift (fail (.invalidIntegerWidth column width))

def decodeEnum (row : Bytes) (column width : Nat) (layout : EnumLayout) : Reader DecodeError Value :=
  if layout = .unsupported then lift (fail (.unsupportedEnum column width))
  else
    match width with
    | 1 | 2 | 4 | 8 => do pure (.enum (← readUnsigned row column width))
    | _ => lift (fail (.invalidEnumWidth column width))

def twoDigits (digit : UInt8) : List Char :=
  [Nat.digitChar (digit.toNat / 10), Nat.digitChar (digit.toNat % 10)]

def legacyCoefficient (column : Nat) : Bytes → Outcome DecodeError (List Char)
  | [] => pure []
  | digit :: digits =>
      if digit > 99 then fail (.invalidNumericDigit column digit)
      else do pure (twoDigits digit ++ (← legacyCoefficient column digits))

def trimStartZeros (digits : List Char) : List Char := digits.dropWhile (· == '0')

/-- The one-byte short form, biased around 0x80. -/
def shortDecimal (exponent : UInt8) : Decimal :=
  let value : Int := 0x80 - exponent.toNat
  ⟨decide (value < 0), Nat.toDigits 10 value.natAbs, 0⟩

def scaledDecimal (exponent : UInt8) (digits : List Char) : Decimal :=
  let canonical := trimStartZeros digits
  let coefficient := if canonical.isEmpty then ['0'] else canonical
  let shift : Int := exponent.toNat - 0xc0
  if 0 ≤ shift then ⟨false, coefficient ++ List.replicate (shift.toNat * 2) '0', 0⟩
  else ⟨false, coefficient, (-shift).toNat * 2⟩

def readNumericLegacy (row : Bytes) (column : Nat) : Reader DecodeError Decimal := do
  let count ← takeByte row column
  let exponent ← takeByte row column
  if count = 0 then pure (shortDecimal exponent)
  else do
    let digits ← take row count.toNat column
    let coefficient ← lift (legacyCoefficient column digits)
    pure (scaledDecimal exponent coefficient)

def readNumericEnterpriseMaterialized (row : Bytes) (column : Nat) : Reader DecodeError Value := do
  let count ← takeByte row column
  let marker ← takeByte row column
  if count = 0 then pure (.enterpriseNumeric ⟨marker, []⟩)
  else do
    let digits ← take row count.toNat column
    match digits.find? (· > 99) with
    | some digit => lift (fail (.invalidNumericDigit column digit))
    | none => pure (.enterpriseNumeric ⟨marker, digits⟩)

def decodeNumericValue (row : Bytes) (column : Nat) (layout : NumericLayout) :
    Reader DecodeError Value :=
  match layout with
  | .legacyForward => do pure (.decimal (← readNumericLegacy row column))
  | .enterpriseMaterializedRaw => readNumericEnterpriseMaterialized row column

/-- The length of a variable field and whether it is the overflow sentinel. -/
def takeShortLength (row : Bytes) (column : Nat) : Reader DecodeError (Nat × Bool) := do
  let length := (← takeByte row column).toNat
  pure (length, length == 0xff)

def takeWideLength (row : Bytes) (column : Nat) : Reader DecodeError (Nat × Bool) := do
  let length ← takeU16 row column
  pure (length, length == 0xffff)

def takeLength (row : Bytes) (columnIndex : Nat) (column : ColumnDef) (layout : VariableLengthLayout) :
    Reader DecodeError (Nat × Bool) :=
  match layout with
  | .u8 => takeShortLength row columnIndex
  | .u16Le => takeWideLength row columnIndex
  | .declaredWidth wideAtOrAbove =>
      if column.width ≥ wideAtOrAbove then takeWideLength row columnIndex
      else takeShortLength row columnIndex

def decodeOverflow (row : Bytes) (columnIndex : Nat) (layout : VariableOverflowLayout) :
    Reader DecodeError Value :=
  match layout with
  | .unsupported => lift (fail (.overflowValue columnIndex))
  | .pointer 0 => lift (fail (.invalidOverflowPointerWidth columnIndex))
  | .pointer width => do pure (.overflowPointer (← take row width columnIndex))

def decodeNonBoolean (row : Bytes) (columnIndex : Nat) (column : ColumnDef) (schema : RowSchema) :
    Reader DecodeError Value :=
  if column.columnType.isVariable then do
    let (length, overflow) ← takeLength row columnIndex column schema.variableLengthLayout
    if overflow then decodeOverflow row columnIndex schema.variableOverflowLayout
    else do pure (.bytes (← take row length columnIndex))
  else
    match column.columnType with
    | .smallInt | .integer | .integer2 => do pure (.integer (← readSigned row columnIndex column.width))
    | .uInt64 | .uInt32 => do pure (.unsigned (← readUnsigned row columnIndex column.width))
    | .int64 =>
        if column.width ≠ 8 then lift (fail (.invalidIntegerWidth columnIndex column.width))
        else do pure (.integer (← takeSigned row 8 columnIndex))
    | .numeric => decodeNumericValue row columnIndex schema.numericLayout
    | .enum => decodeEnum row columnIndex column.width schema.enumLayout
    | .date => do pure (.date ⟨← takeSigned row 4 columnIndex⟩)
    | .dateTime => do
        let minutes ← takeSigned row 4 columnIndex
        let subminuteRaw ← takeSigned row 4 columnIndex
        pure (.dateTime ⟨⟨minutes⟩, minutes, subminuteRaw⟩)
    | .boolean | .char | .char2 | .text | .text2 => lift panicked

def nullBitOrder : NullBitmapLayout → BitOrder
  | .msbPresent | .msbNull => .msbFirst
  | .lsbPresent | .lsbNull => .lsbFirst

def setMeansPresent : NullBitmapLayout → Bool
  | .msbPresent | .lsbPresent => true
  | .msbNull | .lsbNull => false

def presenceFrom (schema : RowSchema) (nullBitmap : Bytes) :
    List ColumnDef → Nat → Nat → Outcome DecodeError (List Bool)
  | [], _, _ => pure []
  | column :: columns, columnIndex, nullableIndex => do
      let bitmapIndex := match schema.nullBitmapCoverage with
        | .nullableColumns => nullableIndex
        | .allColumns => columnIndex
      let nullableIndex := match schema.nullBitmapCoverage with
        | .nullableColumns => if column.nullable then nullableIndex + 1 else nullableIndex
        | .allColumns => nullableIndex
      let isNull ← if column.nullable then do
          let byte ← index nullBitmap (bitmapIndex / 8)
          let set := byte &&& mask (nullBitOrder schema.nullBitmapLayout) (bitmapIndex % 8) != 0
          let fieldPresent := if setMeansPresent schema.nullBitmapLayout then set else !set
          pure (!fieldPresent)
        else pure false
      let present ← presenceFrom schema nullBitmap columns (columnIndex + 1) nullableIndex
      pure ((!isNull) :: present)

structure RowHeaderAndPresence where
  row : Bytes
  declaredSize : Nat
  flags : Nat
  nullBitmap : Bytes
  cursor : Nat
  present : List Bool
  deriving DecidableEq, Repr

def prefixLen : RowPrefixLayout → Nat
  | .none => 0
  | .oneByteCarrier => 1
  | .twoByteCarrier => 2
  | .threeByteCarrier => 3

def rowHeaderAndPresence (input : Bytes) (schema : RowSchema) :
    Outcome DecodeError RowHeaderAndPresence :=
  if input.length < 2 then fail .missingRowHeader
  else do
    let rawSize := fromLeBytes [← index input 0, ← index input 1]
    let declaredSize := rawSize &&& rowSizeMask
    if declaredSize < 2 ∨ declaredSize > input.length then
      fail (.invalidRowSize declaredSize input.length)
    else
      let flags := rawSize &&& rowFlagMask
      if flags ≠ 0 then fail (.unsupportedRowFlags flags)
      else do
        let row ← slice input 0 declaredSize
        let carrier := prefixLen schema.rowPrefixLayout
        let nullBytes := byteCount schema.nullBitmapBitCount
        if row.length < 2 + carrier + nullBytes then
          fail (.truncated 0 (carrier + nullBytes) (row.length - 2))
        else do
          let nullBitmap ← slice row (2 + carrier) (2 + carrier + nullBytes)
          let present ← presenceFrom schema nullBitmap schema.columns 0 0
          pure ⟨row, declaredSize, flags, nullBitmap, 2 + carrier + nullBytes, present⟩

structure RowState where
  values : List Value
  boolValues : List Nat
  deriving DecidableEq, Repr

def RowState.store (st : RowState) (columnIndex : Nat) (value : Value) :
    Outcome DecodeError RowState := do
  pure { st with values := ← assign st.values columnIndex value }

def storeRun (layout : BooleanTailLayout) (bytes : Bytes) (columnIndex count : Nat) (st : RowState) :
    Outcome DecodeError RowState :=
  (List.range count).foldlM (fun st offset => do
    let bit ← inlinePackedBooleanBit layout bytes offset
    st.store (columnIndex + offset) (.boolean bit)) st

/-- One iteration of the column loop. -/
def decodeColumn (row : Bytes) (schema : RowSchema) (present : List Bool) (st : RowState)
    (columnIndex : Nat) (column : ColumnDef) : Reader DecodeError RowState := do
  if !(← lift (index present columnIndex)) then pure st
  else if column.columnType = .boolean then
    match schema.booleanTail with
    | .inlineBytes => do
        let byte ← takeByte row columnIndex
        let value ← lift (decodeBooleanByte columnIndex byte)
        lift (st.store columnIndex (.boolean value))
    | .inlineU16Le => do
        let bytes ← take row 2 columnIndex
        let value ← lift (decodeBooleanU16 columnIndex bytes)
        lift (st.store columnIndex (.boolean value))
    | .bytes | .packedMsbFirst => pure { st with boolValues := st.boolValues ++ [columnIndex] }
    | .inlinePackedRunsMsbFirst | .inlinePackedRunsLsbFirst => do
        if ← lift (continuesRun schema present columnIndex) then pure st
        else do
          let runEnd ← lift (inlineBooleanRunEnd schema present columnIndex)
          let count ← lift (subtract runEnd columnIndex)
          let bytes ← take row (byteCount count) columnIndex
          lift (storeRun schema.booleanTail bytes columnIndex count st)
  else do
    let value ← decodeNonBoolean row columnIndex column schema
    lift (st.store columnIndex value)

def decodeColumns (row : Bytes) (schema : RowSchema) (present : List Bool) (columns : List ColumnDef)
    (start : Nat) (st : RowState) : Reader DecodeError RowState :=
  (columns.zipIdx start).foldlM (fun st entry => decodeColumn row schema present st entry.2 entry.1) st

def decodeTail (layout : BooleanTailLayout) (tail : Bytes) (boolValues : List Nat)
    (values : List Value) : Outcome DecodeError (List Value) :=
  boolValues.zipIdx.foldlM (fun values entry => do
    let value ← tailBoolean layout tail entry.2 entry.1
    assign values entry.1 (.boolean value)) values

def decodeRow (input : Bytes) (schema : RowSchema) : Outcome DecodeError DecodedRow :=
  if input.length < 2 then fail .missingRowHeader
  else do
    let header ← rowHeaderAndPresence input schema
    let start : RowState := ⟨List.replicate schema.columns.length .null, []⟩
    let (st, cursor) ←
      runFrom (decodeColumns header.row schema header.present schema.columns 0 start) header.cursor
    let remaining := header.row.length - cursor
    let needed := requiredTail schema.booleanTail st.boolValues.length
    if remaining < needed then fail (.truncatedBooleanTail needed remaining)
    else do
      let tail ← slice header.row cursor (cursor + needed)
      let values ← decodeTail schema.booleanTail tail st.boolValues st.values
      pure ⟨header.declaredSize, cursor + needed, header.flags, values⟩

def decodeRowExact (input : Bytes) (schema : RowSchema) : Outcome DecodeError DecodedRow := do
  let decoded ← decodeRow input schema
  let remaining ← subtract decoded.declaredSize decoded.consumedSize
  if remaining ≠ 0 then fail (.trailingData remaining) else pure decoded

structure PrefixState where
  prefixValues : List PartialRowValue
  booleanValues : List PartialRowValue
  deriving DecidableEq, Repr

def PrefixState.pushBoolean (st : PrefixState) (columnIndex : Nat) (column : ColumnDef) (b : Bool) :
    PrefixState :=
  { st with booleanValues := st.booleanValues ++ [⟨columnIndex, column.id, .boolean b⟩] }

def PrefixState.pushValue (st : PrefixState) (columnIndex : Nat) (column : ColumnDef) (value : Value) :
    PrefixState :=
  { st with prefixValues := st.prefixValues ++ [⟨columnIndex, column.id, value⟩] }

/-- The loop over a packed run, which breaks at the first column past the requested ordinal. -/
def pushRun (schema : RowSchema) (bytes : Bytes) (through columnIndex count : Nat) (st : PrefixState) :
    Outcome DecodeError PrefixState :=
  ((List.range count).takeWhile (fun offset => decide (columnIndex + offset < through))).foldlM
    (fun st offset => do
      let column ← index schema.columns (columnIndex + offset)
      let bit ← inlinePackedBooleanBit schema.booleanTail bytes offset
      pure (st.pushBoolean (columnIndex + offset) column bit)) st

def decodePrefixColumn (row : Bytes) (schema : RowSchema) (present : List Bool) (through tailStart : Nat)
    (st : PrefixState) (columnIndex : Nat) (column : ColumnDef) : Reader DecodeError PrefixState := do
  if column.columnType = .boolean then
    if !(← lift (index present columnIndex)) then pure st
    else
      match schema.booleanTail with
      | .inlineBytes => do
          let byte ← takeByte row columnIndex
          let value ← lift (decodeBooleanByte columnIndex byte)
          pure (st.pushBoolean columnIndex column value)
      | .inlineU16Le => do
          let bytes ← take row 2 columnIndex
          let value ← lift (decodeBooleanU16 columnIndex bytes)
          pure (st.pushBoolean columnIndex column value)
      | .inlinePackedRunsMsbFirst | .inlinePackedRunsLsbFirst => do
          if ← lift (continuesRun schema present columnIndex) then pure st
          else do
            let runEnd ← lift (inlineBooleanRunEnd schema present columnIndex)
            let count ← lift (subtract runEnd columnIndex)
            let bytes ← take row (byteCount count) columnIndex
            lift (pushRun schema bytes through columnIndex count st)
      | .bytes | .packedMsbFirst => pure st
  else if !(← lift (index present columnIndex)) then pure (st.pushValue columnIndex column .null)
  else do
    let value ←
      if isInlineBooleanLayout schema.booleanTail then decodeNonBoolean row columnIndex column schema
      else do
        let value ← decodeNonBoolean row columnIndex column schema
        guard tailStart (.prefixOverlapsBooleanTail columnIndex)
        pure value
    pure (st.pushValue columnIndex column value)

def decodePrefixColumns (row : Bytes) (schema : RowSchema) (present : List Bool) (through tailStart : Nat)
    (columns : List ColumnDef) (start : Nat) (st : PrefixState) : Reader DecodeError PrefixState :=
  (columns.zipIdx start).foldlM
    (fun st entry => decodePrefixColumn row schema present through tailStart st entry.2 entry.1) st

def booleanColumns (present : List Bool) (columns : List ColumnDef) (start : Nat) :
    Outcome DecodeError (List (ColumnDef × Nat)) :=
  (columns.zipIdx start).filterM fun entry =>
    if entry.1.columnType = .boolean then index present entry.2 else pure false

def pushTail (layout : BooleanTailLayout) (tail : Bytes) (columns : List (ColumnDef × Nat))
    (st : PrefixState) : Outcome DecodeError PrefixState :=
  columns.zipIdx.foldlM (fun st entry => do
    let value ← tailBoolean layout tail entry.2 entry.1.2
    pure (st.pushBoolean entry.1.2 entry.1.1 value)) st

def decodeRowPrefixAndBooleanTail (input : Bytes) (schema : RowSchema) (throughOrdinal : Nat) :
    Outcome DecodeError PartialDecodedRow :=
  if throughOrdinal = 0 ∨ throughOrdinal > schema.columns.length then
    fail (.prefixOrdinalOutOfRange throughOrdinal schema.columns.length)
  else do
    let header ← rowHeaderAndPresence input schema
    let booleans ← booleanColumns header.present schema.columns 0
    let needed := requiredTail schema.booleanTail booleans.length
    if header.row.length < header.cursor then fail (.truncatedBooleanTail needed 0)
    else if needed > header.row.length - header.cursor then
      fail (.truncatedBooleanTail needed (header.row.length - header.cursor))
    else do
      let tailStart ← subtract header.row.length needed
      let (st, cursor) ←
        runFrom (decodePrefixColumns header.row schema header.present throughOrdinal tailStart
          (schema.columns.take throughOrdinal) 0 ⟨[], []⟩) header.cursor
      let st ← if isInlineBooleanLayout schema.booleanTail then pure st
        else do
          let tail ← slice header.row tailStart header.row.length
          pushTail schema.booleanTail tail booleans st
      if tailStart < cursor then fail (.prefixOverlapsBooleanTail (throughOrdinal - 1))
      else pure ⟨header.declaredSize, header.flags, throughOrdinal, st.prefixValues, st.booleanValues,
        tailStart - cursor⟩

def decodeMaterializedRowRecordExact (input : Bytes) (schema : RowSchema) :
    Outcome DecodeError DecodedRow := do
  let segment ← mapErr (fun _ => .missingRowHeader) (parseRowSegment input)
  if segment.declaredLen ≠ input.length then do
    let remaining ← subtract input.length segment.declaredLen
    fail (.trailingMaterializedRowCarrier remaining)
  else if segment.isContinued then fail .continuedMaterializedRowCarrier
  else if segment.flags ≠ 0 then fail (.unsupportedMaterializedRowCarrierFlags segment.flags)
  else do
    let payload ← segment.payload
    let size := payload.length + 2
    if size > usizeMax then fail (.invalidRowSize usizeMax input.length)
    else if size ≥ 2 ^ 16 then fail (.invalidRowSize size input.length)
    else decodeRowExact (toLeBytes 2 size ++ payload) schema

end OpenSqlAny.RowDecoder
