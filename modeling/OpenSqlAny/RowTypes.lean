import Mathlib.Data.List.Basic

namespace OpenSqlAny.RowTypes

inductive ColumnType
  | smallInt
  | integer
  | numeric
  | integer2
  | date
  | char
  | char2
  | text
  | text2
  | dateTime
  | enum
  | uInt64
  | uInt32
  | int64
  | boolean
  deriving DecidableEq, Repr

def ColumnType.isVariable : ColumnType → Bool
  | char | char2 | text | text2 => true
  | _ => false

/-- A physical column. Its catalog name is not kept: no decoder reads it. -/
structure ColumnDef where
  id : Nat
  columnType : ColumnType
  width : Nat
  nullable : Bool
  deriving DecidableEq, Repr

inductive BooleanTailLayout
  | bytes
  | packedMsbFirst
  | inlineBytes
  | inlinePackedRunsMsbFirst
  | inlinePackedRunsLsbFirst
  | inlineU16Le
  deriving DecidableEq, Repr

inductive NumericLayout
  | legacyForward
  | enterpriseMaterializedRaw
  deriving DecidableEq, Repr

inductive EnumLayout
  | unsupported
  | fixedWidthUnsigned
  deriving DecidableEq, Repr

inductive VariableOverflowLayout
  | unsupported
  | pointer (width : Nat)
  deriving DecidableEq, Repr

inductive VariableLengthLayout
  | u8
  | u16Le
  | declaredWidth (wideAtOrAbove : Nat)
  deriving DecidableEq, Repr

inductive NullBitmapLayout
  | msbPresent
  | lsbPresent
  | msbNull
  | lsbNull
  deriving DecidableEq, Repr

inductive NullBitmapCoverage
  | nullableColumns
  | allColumns
  deriving DecidableEq, Repr

inductive RowPrefixLayout
  | none
  | oneByteCarrier
  | twoByteCarrier
  | threeByteCarrier
  deriving DecidableEq, Repr

structure RowSchema where
  columns : List ColumnDef
  booleanTail : BooleanTailLayout := .bytes
  numericLayout : NumericLayout := .legacyForward
  enumLayout : EnumLayout := .unsupported
  variableOverflowLayout : VariableOverflowLayout := .unsupported
  variableLengthLayout : VariableLengthLayout := .u8
  nullBitmapLayout : NullBitmapLayout := .msbPresent
  nullBitmapCoverage : NullBitmapCoverage := .nullableColumns
  rowPrefixLayout : RowPrefixLayout := .none
  deriving DecidableEq, Repr

def RowSchema.nullableCount (schema : RowSchema) : Nat := schema.columns.countP (·.nullable)

def RowSchema.nullBitmapBitCount (schema : RowSchema) : Nat :=
  match schema.nullBitmapCoverage with
  | .nullableColumns => schema.nullableCount
  | .allColumns => schema.columns.length

/-- An exact decimal. The coefficient holds the characters of the source's string. -/
structure Decimal where
  negative : Bool
  coefficient : List Char
  scale : Nat
  deriving DecidableEq, Repr

structure SaDate where
  rawMinutes : Int
  deriving DecidableEq, Repr

structure SaDateTime where
  date : SaDate
  minutesSinceSaEpoch : Int
  subminuteRaw : Int
  deriving DecidableEq, Repr

structure EnterpriseNumericToken where
  marker : UInt8
  digits : List UInt8
  deriving DecidableEq, Repr

inductive Value
  | null
  | integer (n : Int)
  | unsigned (n : Nat)
  | decimal (d : Decimal)
  | enterpriseNumeric (token : EnterpriseNumericToken)
  | enum (n : Nat)
  | overflowPointer (pointer : List UInt8)
  | bytes (data : List UInt8)
  | date (d : SaDate)
  | dateTime (d : SaDateTime)
  | boolean (b : Bool)
  deriving DecidableEq, Repr

structure DecodedRow where
  declaredSize : Nat
  consumedSize : Nat
  flags : Nat
  values : List Value
  deriving DecidableEq, Repr

structure PartialRowValue where
  columnIndex : Nat
  columnId : Nat
  value : Value
  deriving DecidableEq, Repr

structure PartialDecodedRow where
  declaredSize : Nat
  flags : Nat
  throughOrdinal : Nat
  prefixValues : List PartialRowValue
  booleanValues : List PartialRowValue
  opaqueMiddleLen : Nat
  deriving DecidableEq, Repr

inductive DecodeError
  | missingRowHeader
  | invalidRowSize (declared available : Nat)
  | unsupportedRowFlags (flags : Nat)
  | truncated (column needed remaining : Nat)
  | invalidIntegerWidth (column width : Nat)
  | overflowValue (column : Nat)
  | unsupportedEnum (column width : Nat)
  | invalidEnumWidth (column width : Nat)
  | invalidOverflowPointerWidth (column : Nat)
  | invalidNumericDigit (column : Nat) (digit : UInt8)
  | invalidBooleanByte (column : Nat) (value : UInt8)
  | invalidBooleanU16 (column value : Nat)
  | truncatedBooleanTail (needed remaining : Nat)
  | trailingData (remaining : Nat)
  | continuedMaterializedRowCarrier
  | unsupportedMaterializedRowCarrierFlags (flags : UInt8)
  | trailingMaterializedRowCarrier (remaining : Nat)
  | prefixOrdinalOutOfRange (ordinal columnCount : Nat)
  | prefixOverlapsBooleanTail (column : Nat)
  deriving DecidableEq, Repr

end OpenSqlAny.RowTypes
