import OpenSqlAny.Library.ErrorClasses
import OpenSqlAny.RowSoundness

namespace OpenSqlAny.RowErrors

open Library.Faults Library.CursorReader Library.ErrorClasses Library.LittleEndian
open RowTypes RowDecoder RowHeader RowSoundness

def columnOf : DecodeError → Option Nat
  | .truncated column _ _ | .invalidIntegerWidth column _ | .overflowValue column | .unsupportedEnum column _
  | .invalidEnumWidth column _ | .invalidOverflowPointerWidth column | .invalidNumericDigit column _
  | .invalidBooleanByte column _ | .invalidBooleanU16 column _ | .prefixOverlapsBooleanTail column => some column
  | _ => none

def Names (column : Nat) (e : DecodeError) : Prop := columnOf e = some column

variable {row : Bytes} {schema : RowSchema} {present : List Bool} {column : Nat}

theorem take_raises (count : Nat) : ReaderRaises (Names column) (take row count column) :=
  .takeOr row count fun _ => rfl

theorem takeByte_raises : ReaderRaises (Names column) (takeByte row column) :=
  .bind (take_raises 1) fun bytes => .lift (.index bytes 0)

theorem takeExact_raises (width : Nat) : ReaderRaises (Names column) (takeExact row width column) :=
  .bind (take_raises width) fun _ => .lift (.ite (fun _ => .ok _) fun _ => .panicked)

theorem takeU16_raises : ReaderRaises (Names column) (takeU16 row column) := by
  apply ReaderRaises.bind (take_raises 2)
  intro bytes
  apply ReaderRaises.lift
  apply Raises.bind (.index bytes 0)
  intro low _
  exact .bind (.index bytes 1) fun _ _ => .ok _

theorem takeUnsigned_raises (width : Nat) : ReaderRaises (Names column) (takeUnsigned row width column) :=
  .bind (takeExact_raises width) fun _ => .pure _

theorem takeSigned_raises (width : Nat) : ReaderRaises (Names column) (takeSigned row width column) :=
  .bind (takeExact_raises width) fun _ => .pure _

theorem decodeBooleanByte_raises (value : UInt8) : Raises (Names column) (decodeBooleanByte column value) :=
  .ite (fun _ => .ok _) fun _ => .ite (fun _ => .ok _) fun _ => .fail rfl

theorem decodeBooleanU16_raises (bytes : Bytes) : Raises (Names column) (decodeBooleanU16 column bytes) := by
  apply Raises.bind (.index bytes 0)
  intro low _
  apply Raises.bind (.index bytes 1)
  intro high _
  exact .ite (fun _ => .ok _) fun _ => .ite (fun _ => .ok _) fun _ => .fail rfl

theorem readSigned_raises (width : Nat) : ReaderRaises (Names column) (readSigned row column width) := by
  rw [readSigned.eq_def]
  split
  · exact takeSigned_raises 1
  · exact takeSigned_raises 2
  · exact takeSigned_raises 4
  · exact takeSigned_raises 8
  · exact .lift (.fail rfl)

theorem readUnsigned_raises (width : Nat) : ReaderRaises (Names column) (readUnsigned row column width) := by
  rw [readUnsigned.eq_def]
  split
  · exact .bind takeByte_raises fun _ => .pure _
  · exact takeUnsigned_raises 2
  · exact takeUnsigned_raises 4
  · exact takeUnsigned_raises 8
  · exact .lift (.fail rfl)

theorem decodeEnum_raises (width : Nat) (layout : EnumLayout) :
    ReaderRaises (Names column) (decodeEnum row column width layout) := by
  apply ReaderRaises.ite
  · intro _
    exact .lift (.fail rfl)
  · intro _
    split
    iterate 4 exact .bind (readUnsigned_raises _) fun _ => .pure _
    exact .lift (.fail rfl)

theorem legacyCoefficient_raises (digits : Bytes) : Raises (Names column) (legacyCoefficient column digits) := by
  induction digits with
  | nil => exact .ok _
  | cons digit digits ih => exact .ite (fun _ => .fail rfl) fun _ => .bind ih fun _ _ => .ok _

theorem readNumericLegacy_raises : ReaderRaises (Names column) (readNumericLegacy row column) := by
  apply ReaderRaises.bind takeByte_raises
  intro count
  apply ReaderRaises.bind takeByte_raises
  intro exponent
  apply ReaderRaises.ite
  · intro _
    exact .pure _
  · intro _
    apply ReaderRaises.bind (take_raises _)
    intro digits
    exact .bind (.lift (legacyCoefficient_raises digits)) fun _ => .pure _

theorem readNumericEnterpriseMaterialized_raises :
    ReaderRaises (Names column) (readNumericEnterpriseMaterialized row column) := by
  apply ReaderRaises.bind takeByte_raises
  intro count
  apply ReaderRaises.bind takeByte_raises
  intro marker
  apply ReaderRaises.ite
  · intro _
    exact .pure _
  · intro _
    apply ReaderRaises.bind (take_raises _)
    intro digits
    cases digits.find? (· > 99) with
    | some digit => exact .lift (.fail rfl)
    | none => exact .pure _

theorem decodeNumericValue_raises (layout : NumericLayout) :
    ReaderRaises (Names column) (decodeNumericValue row column layout) := by
  cases layout with
  | legacyForward => exact .bind readNumericLegacy_raises fun _ => .pure _
  | enterpriseMaterializedRaw => exact readNumericEnterpriseMaterialized_raises

theorem takeShortLength_raises : ReaderRaises (Names column) (takeShortLength row column) :=
  .bind takeByte_raises fun _ => .pure _

theorem takeWideLength_raises : ReaderRaises (Names column) (takeWideLength row column) :=
  .bind takeU16_raises fun _ => .pure _

theorem takeLength_raises (definition : ColumnDef) (layout : VariableLengthLayout) :
    ReaderRaises (Names column) (takeLength row column definition layout) := by
  cases layout with
  | u8 => exact takeShortLength_raises
  | u16Le => exact takeWideLength_raises
  | declaredWidth wideAtOrAbove => exact .ite (fun _ => takeWideLength_raises) fun _ => takeShortLength_raises

theorem decodeOverflow_raises (layout : VariableOverflowLayout) :
    ReaderRaises (Names column) (decodeOverflow row column layout) := by
  rw [decodeOverflow.eq_def]
  split
  · exact .lift (.fail rfl)
  · exact .lift (.fail rfl)
  · exact .bind (take_raises _) fun _ => .pure _

theorem decodeNonBoolean_raises (definition : ColumnDef) :
    ReaderRaises (Names column) (decodeNonBoolean row column definition schema) := by
  apply ReaderRaises.ite
  · intro _
    apply ReaderRaises.bind (takeLength_raises definition _)
    rintro ⟨length, overflow⟩
    exact .ite (fun _ => decodeOverflow_raises _) fun _ => .bind (take_raises length) fun _ => .pure _
  · intro _
    cases definition.columnType with
    | smallInt | integer | integer2 => exact .bind (readSigned_raises _) fun _ => .pure _
    | uInt64 | uInt32 => exact .bind (readUnsigned_raises _) fun _ => .pure _
    | int64 => exact .ite (fun _ => .lift (.fail rfl)) fun _ => .bind (takeSigned_raises 8) fun _ => .pure _
    | numeric => exact decodeNumericValue_raises _
    | enum => exact decodeEnum_raises _ _
    | date => exact .bind (takeSigned_raises 4) fun _ => .pure _
    | dateTime => exact .bind (takeSigned_raises 4) fun _ => .bind (takeSigned_raises 4) fun _ => .pure _
    | boolean | char | char2 | text | text2 => exact .lift .panicked

theorem inlinePackedBooleanBit_raises {P : DecodeError → Prop} (layout : BooleanTailLayout) (bytes : Bytes)
    (ordinal : Nat) : Raises P (inlinePackedBooleanBit layout bytes ordinal) := by
  cases layout with
  | inlinePackedRunsMsbFirst | inlinePackedRunsLsbFirst =>
      apply Raises.bind (.ok _)
      intro bitMask _
      exact .bind (.index bytes _) fun _ _ => .ok _
  | bytes | packedMsbFirst | inlineBytes | inlineU16Le => exact .panicked

theorem store_raises {P : DecodeError → Prop} (st : RowState) (columnIndex : Nat) (value : Value) :
    Raises P (st.store columnIndex value) :=
  .bind (.assign st.values columnIndex value) fun _ _ => .ok _

theorem storeRun_raises {P : DecodeError → Prop} (layout : BooleanTailLayout) (bytes : Bytes)
    (columnIndex count : Nat) (st : RowState) : Raises P (storeRun layout bytes columnIndex count st) :=
  .foldlM (fun st _ _ => .bind (inlinePackedBooleanBit_raises layout bytes _) fun _ _ => store_raises st _ _) st

theorem runEndFrom_raises {P : DecodeError → Prop} (columns : List ColumnDef) (e : Nat) :
    Raises P (runEndFrom present columns e) := by
  induction columns generalizing e with
  | nil => exact .ok e
  | cons column columns ih =>
      apply Raises.ite
      · intro _
        apply Raises.bind (.index present e)
        intro b _
        exact .ite (fun _ => ih (e + 1)) fun _ => .ok e
      · intro _
        exact .ok e

theorem continuesRun_raises {P : DecodeError → Prop} (columnIndex : Nat) :
    Raises P (continuesRun schema present columnIndex) := by
  apply Raises.ite
  · intro _
    apply Raises.bind (.index schema.columns _)
    intro before _
    exact .ite (fun _ => .index present _) fun _ => .ok false
  · intro _
    exact .ok false

theorem decodeColumn_raises (st : RowState) (definition : ColumnDef) :
    ReaderRaises (Names column) (decodeColumn row schema present st column definition) := by
  have hrun (layout : BooleanTailLayout) : ReaderRaises (Names column) (do
      if ← lift (continuesRun schema present column) then pure st
      else do
        let runEnd ← lift (inlineBooleanRunEnd schema present column)
        let count ← lift (subtract runEnd column)
        let bytes ← take row (Library.PackedBits.byteCount count) column
        lift (storeRun layout bytes column count st)) := by
    apply ReaderRaises.bind (.lift (continuesRun_raises column))
    intro continues
    apply ReaderRaises.ite
    · intro _
      exact .pure st
    · intro _
      apply ReaderRaises.bind (.lift (runEndFrom_raises _ column))
      intro runEnd
      apply ReaderRaises.bind (.lift (.subtract runEnd column))
      intro count
      apply ReaderRaises.bind (take_raises _)
      intro bytes
      exact .lift (storeRun_raises _ bytes column count st)
  apply ReaderRaises.bind (.lift (.index present column))
  intro there
  apply ReaderRaises.ite
  · intro _
    exact .pure st
  intro _
  apply ReaderRaises.ite
  · intro _
    cases schema.booleanTail with
    | bytes | packedMsbFirst => exact .pure _
    | inlineBytes =>
        apply ReaderRaises.bind takeByte_raises
        intro byte
        apply ReaderRaises.bind (.lift (decodeBooleanByte_raises byte))
        intro value
        exact .lift (store_raises st column _)
    | inlineU16Le =>
        apply ReaderRaises.bind (take_raises 2)
        intro bytes
        apply ReaderRaises.bind (.lift (decodeBooleanU16_raises bytes))
        intro value
        exact .lift (store_raises st column _)
    | inlinePackedRunsMsbFirst | inlinePackedRunsLsbFirst => exact hrun _
  · intro _
    exact .bind (decodeNonBoolean_raises definition) fun value => .lift (store_raises st column value)

/-- An error past the header: it names a column, or the sidecar is short. -/
inductive BodyError : DecodeError → Prop
  | column {e : DecodeError} (column : Nat) (names : Names column e) : BodyError e
  | tail (needed remaining : Nat) : BodyError (.truncatedBooleanTail needed remaining)

theorem tailBoolean_raises (layout : BooleanTailLayout) (tail : Bytes) (ordinal : Nat) :
    Raises (Names column) (tailBoolean layout tail ordinal column) := by
  cases layout with
  | bytes => exact .bind (.index tail ordinal) fun byte _ => decodeBooleanByte_raises byte
  | packedMsbFirst => exact .bind (.index tail _) fun _ _ => .ok _
  | inlineBytes | inlinePackedRunsMsbFirst | inlinePackedRunsLsbFirst | inlineU16Le => exact .panicked

theorem decodeTail_raises (layout : BooleanTailLayout) (tail : Bytes) (boolValues : List Nat)
    (values : List Value) : Raises BodyError (decodeTail layout tail boolValues values) := by
  apply Raises.foldlM
  intro values entry _
  apply Raises.bind ((tailBoolean_raises layout tail entry.2).mono fun e he => .column entry.1 he)
  intro value _
  exact .assign values entry.1 _

theorem decodeFrom_raises (header : RowHeaderAndPresence) : Raises BodyError (decodeFrom schema header) := by
  rw [decodeFrom_eq_bind]
  apply Raises.bind
  · apply ReaderRaises.runFrom
    apply ReaderRaises.foldlM
    intro st entry _
    exact (decodeColumn_raises st entry.1).mono fun e he => .column entry.2 he
  · rintro ⟨st, cursor⟩ _
    apply Raises.ite
    · intro _
      exact .fail (.tail _ _)
    · intro _
      apply Raises.bind (.slice header.row cursor _)
      intro tail _
      exact .bind (decodeTail_raises _ tail _ _) fun _ _ => .ok _

/-- The size word is the length, and too small for a flag bit. -/
structure Spanned (row : Bytes) : Prop where
  word : rawSize row = row.length
  header : 2 ≤ row.length
  size : row.length < 2 ^ 13

theorem Spanned.decodeRow_eq (h : Spanned row) : decodeRow row schema =
    if row.length < headerLen schema then
      fail (.truncated 0 (RowGrammar.carrierLen schema.rowPrefixLayout +
        Library.PackedBits.byteCount schema.nullBitmapBitCount) (row.length - 2))
    else decodeFrom schema (headerOf schema row) := by
  have hheader := h.header
  have hflags : row.length &&& rowFlagMask = 0 := (sizeWord_flags_iff (h.size.trans (by decide))).mpr h.size
  rw [RowSoundness.decodeRow_eq hheader, rowHeaderAndPresence_eq hheader, h.word, sizeWord_size h.size, hflags,
    if_neg (by omega), if_neg (not_not.mpr rfl), List.take_length]
  split
  · rfl
  · rfl

theorem Spanned.declaredSize (h : Spanned row) {r : DecodedRow} (hr : decodeRow row schema = .ok r) :
    r.declaredSize = row.length := by
  rw [h.decodeRow_eq] at hr
  split at hr
  · cases hr
  next hfits => exact (((decodeFrom_spec schema row (Nat.le_of_not_lt hfits)).2 r).mp hr).1

end OpenSqlAny.RowErrors
