import OpenSqlAny.Library.LittleEndian
import OpenSqlAny.Library.PackedBits
import OpenSqlAny.RowTypes

namespace OpenSqlAny.RowGrammar

open Library.LittleEndian Library.PackedBits RowTypes

def IntegerWidth (width : Nat) : Prop := width = 1 ∨ width = 2 ∨ width = 4 ∨ width = 8

def SignedRepr (width : Nat) (x : Int) (f : Bytes) : Prop :=
  -2 ^ (8 * width - 1) ≤ x ∧ x < 2 ^ (8 * width - 1) ∧ f = toLeSigned width x

def UnsignedRepr (width n : Nat) (f : Bytes) : Prop :=
  n < 2 ^ (8 * width) ∧ f = toLeBytes width n

def lengthWidth (column : ColumnDef) : VariableLengthLayout → Nat
  | .u8 => 1
  | .u16Le => 2
  | .declaredWidth wideAtOrAbove => if wideAtOrAbove ≤ column.width then 2 else 1

def overflowMarker (width : Nat) : Nat := 2 ^ (8 * width) - 1

inductive VariableRepr (schema : RowSchema) (column : ColumnDef) : Value → Bytes → Prop
  | bytes (data : Bytes)
      (h : data.length < overflowMarker (lengthWidth column schema.variableLengthLayout)) :
      VariableRepr schema column (.bytes data)
        (toLeBytes (lengthWidth column schema.variableLengthLayout) data.length ++ data)
  | overflow (pointer : Bytes) (hpos : 0 < pointer.length)
      (h : schema.variableOverflowLayout = .pointer pointer.length) :
      VariableRepr schema column (.overflowPointer pointer)
        (toLeBytes (lengthWidth column schema.variableLengthLayout)
          (overflowMarker (lengthWidth column schema.variableLengthLayout)) ++ pointer)

/-- A numeric token: digit count, marker byte, base-100 digits. -/
def NumericToken (marker : UInt8) (digits f : Bytes) : Prop :=
  digits.length < 256 ∧ (∀ d ∈ digits, d ≤ 99) ∧ f = UInt8.ofNat digits.length :: marker :: digits

def base100 (digits : Bytes) : Nat := digits.foldl (fun n d => 100 * n + d.toNat) 0

/-- The decimal of a legacy token: the short form counts down from 0x80; the
long form is the base-100 number, with two zeros appended for each unit of the
exponent above 0xc0, or a scale of two for each unit below it. -/
def legacyDecimal (exponent : UInt8) (digits : Bytes) : Decimal :=
  if digits = [] then
    ⟨decide (0x80 < exponent), Nat.toDigits 10 (0x80 - exponent.toNat : Int).natAbs, 0⟩
  else ⟨false, Nat.toDigits 10 (base100 digits) ++ List.replicate (2 * (exponent.toNat - 0xc0)) '0',
    2 * (0xc0 - exponent.toNat)⟩

def NumericRepr (layout : NumericLayout) (value : Value) (f : Bytes) : Prop :=
  ∃ marker digits, NumericToken marker digits f ∧
    value = match layout with
      | .legacyForward => .decimal (legacyDecimal marker digits)
      | .enterpriseMaterializedRaw => .enterpriseNumeric ⟨marker, digits⟩

/-- The field of a present column that is not Boolean. -/
def FieldRepr (schema : RowSchema) (column : ColumnDef) (value : Value) (f : Bytes) : Prop :=
  match column.columnType with
  | .smallInt | .integer | .integer2 =>
      IntegerWidth column.width ∧ ∃ x, value = .integer x ∧ SignedRepr column.width x f
  | .int64 => column.width = 8 ∧ ∃ x, value = .integer x ∧ SignedRepr 8 x f
  | .uInt64 | .uInt32 =>
      IntegerWidth column.width ∧ ∃ n, value = .unsigned n ∧ UnsignedRepr column.width n f
  | .enum => schema.enumLayout = .fixedWidthUnsigned ∧ IntegerWidth column.width ∧
      ∃ n, value = .enum n ∧ UnsignedRepr column.width n f
  | .numeric => NumericRepr schema.numericLayout value f
  | .date => ∃ m, value = .date ⟨m⟩ ∧ SignedRepr 4 m f
  | .dateTime => ∃ m s g h, value = .dateTime ⟨⟨m⟩, m, s⟩ ∧ SignedRepr 4 m g ∧ SignedRepr 4 s h ∧
      f = g ++ h
  | .char | .char2 | .text | .text2 => VariableRepr schema column value f
  | .boolean => False

def booleanByte (b : Bool) : UInt8 := if b then 1 else 0

def inlineBoolean : BooleanTailLayout → Bool → Option Bytes
  | .inlineBytes, b => some [booleanByte b]
  | .inlineU16Le, b => some [booleanByte b, 0]
  | _, _ => none

def runOrder : BooleanTailLayout → Option BitOrder
  | .inlinePackedRunsMsbFirst => some .msbFirst
  | .inlinePackedRunsLsbFirst => some .lsbFirst
  | _ => none

def hasTail : BooleanTailLayout → Bool
  | .bytes | .packedMsbFirst => true
  | _ => false

abbrev Cell := ColumnDef × Value

def isPresentBoolean (cell : Cell) : Bool := decide (cell.1.columnType = .boolean ∧ cell.2 ≠ .null)

/-- `f` holds the fields of the first `n` cells in order. A NULL cell has no
bytes. Where the layout packs runs, each maximal run of present Booleans is
written whole at its first cell, also when `n` ends inside it. -/
inductive FieldsRepr (schema : RowSchema) : Nat → List Cell → Bytes → Prop
  | stop (cells : List Cell) : FieldsRepr schema 0 cells []
  | null {n : Nat} {column : ColumnDef} {cells : List Cell} {f : Bytes}
      (rest : FieldsRepr schema n cells f) : FieldsRepr schema (n + 1) ((column, .null) :: cells) f
  | field {n : Nat} {column : ColumnDef} {value : Value} {cells : List Cell} {g f : Bytes}
      (head : FieldRepr schema column value g) (rest : FieldsRepr schema n cells f) :
      FieldsRepr schema (n + 1) ((column, value) :: cells) (g ++ f)
  | inline {n : Nat} {column : ColumnDef} {b : Bool} {cells : List Cell} {g f : Bytes}
      (hcolumn : column.columnType = .boolean) (head : inlineBoolean schema.booleanTail b = some g)
      (rest : FieldsRepr schema n cells f) :
      FieldsRepr schema (n + 1) ((column, .boolean b) :: cells) (g ++ f)
  | run {n : Nat} {columns : List ColumnDef} {bools : List Bool} {order : BitOrder}
      {cells : List Cell} {g f : Bytes}
      (horder : runOrder schema.booleanTail = some order)
      (hcolumns : ∀ column ∈ columns, column.columnType = .boolean)
      (hlength : columns.length = bools.length) (hne : bools ≠ [])
      (hmax : ∀ cell ∈ cells.head?, isPresentBoolean cell = false)
      (head : Packs order bools g) (rest : FieldsRepr schema (n + 1 - bools.length) cells f) :
      FieldsRepr schema (n + 1) (columns.zip (bools.map .boolean) ++ cells) (g ++ f)

/-- What stands among the fields: where the layout has a sidecar, its Booleans do not. -/
def bodyValue (layout : BooleanTailLayout) (cell : Cell) : Value :=
  if hasTail layout ∧ cell.1.columnType = .boolean then .null else cell.2

def bodyCells (layout : BooleanTailLayout) (cells : List Cell) : List Cell :=
  cells.map fun cell => (cell.1, bodyValue layout cell)

def presentBooleans (cells : List Cell) : List Value := (cells.filter isPresentBoolean).map (·.2)

def TailRepr (layout : BooleanTailLayout) (cells : List Cell) (tail : Bytes) : Prop :=
  match layout with
  | .bytes => ∃ bools : List Bool, presentBooleans cells = bools.map .boolean ∧ tail = bools.map booleanByte
  | .packedMsbFirst => ∃ bools : List Bool, presentBooleans cells = bools.map .boolean ∧ Packs .msbFirst bools tail
  | _ => tail = []

/-- The null-bitmap position of a column. -/
def bitmapIndex (schema : RowSchema) (columnIndex : Nat) : Nat :=
  match schema.nullBitmapCoverage with
  | .nullableColumns => (schema.columns.take columnIndex).countP (·.nullable)
  | .allColumns => columnIndex

def saysPresent (layout : NullBitmapLayout) (bitmap : Bytes) (i : Nat) : Bool :=
  match layout with
  | .msbPresent => bitAt .msbFirst bitmap i
  | .lsbPresent => bitAt .lsbFirst bitmap i
  | .msbNull => !bitAt .msbFirst bitmap i
  | .lsbNull => !bitAt .lsbFirst bitmap i

/-- Every column is present just when its own bit, if it has one, says so. -/
def BitmapRepr (schema : RowSchema) (values : List Value) (bitmap : Bytes) : Prop :=
  bitmap.length = byteCount schema.nullBitmapBitCount ∧
  ∀ i column, schema.columns[i]? = some column →
    (values[i]? ≠ some .null ↔
      (column.nullable → saysPresent schema.nullBitmapLayout bitmap (bitmapIndex schema i) = true))

def carrierLen : RowPrefixLayout → Nat
  | .none => 0
  | .oneByteCarrier => 1
  | .twoByteCarrier => 2
  | .threeByteCarrier => 3

/-- `f` is a serialization of the values: size, carrier, null bitmap, fields,
and the sidecar directly after the fields. -/
def Serializes (schema : RowSchema) (size : Nat) (values : List Value) (f : Bytes) : Prop :=
  values.length = schema.columns.length ∧
  ∃ carrier bitmap fields tail,
    f = toLeBytes 2 size ++ carrier ++ bitmap ++ fields ++ tail ∧
    carrier.length = carrierLen schema.rowPrefixLayout ∧
    BitmapRepr schema values bitmap ∧
    FieldsRepr schema schema.columns.length (bodyCells schema.booleanTail (schema.columns.zip values))
      fields ∧
    TailRepr schema.booleanTail (schema.columns.zip values) tail

/-- A decoded row stands at the start of the input: a 13-bit size without
flags that the input has room for, and within it a serialization of the values. -/
structure RowRepr (schema : RowSchema) (input : Bytes) (r : DecodedRow) : Prop where
  le_size : 2 ≤ r.declaredSize
  size_le : r.declaredSize ≤ input.length
  size_lt : r.declaredSize < 2 ^ 13
  flags : r.flags = 0
  consumed : r.consumedSize ≤ r.declaredSize
  body : Serializes schema r.declaredSize r.values (input.take r.consumedSize)

end OpenSqlAny.RowGrammar
