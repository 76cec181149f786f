import OpenSqlAny.Library.ReaderShifts
import OpenSqlAny.RowSafety

namespace OpenSqlAny.RowShifts

open Library.Faults Library.CursorReader Library.ReaderShifts Library.LittleEndian Library.PackedBits
open RowTypes RowDecoder RowGrammar RowHeader RowSoundness StagedSoundness

/-- The layouts of a schema that matter before its columns only. -/
structure HeaderLayout where
  nullBitmapLayout : NullBitmapLayout
  nullBitmapCoverage : NullBitmapCoverage
  rowPrefixLayout : RowPrefixLayout
  deriving DecidableEq, Repr

def withHeader (schema : RowSchema) (layout : HeaderLayout) : RowSchema :=
  { schema with
    nullBitmapLayout := layout.nullBitmapLayout
    nullBitmapCoverage := layout.nullBitmapCoverage
    rowPrefixLayout := layout.rowPrefixLayout }

theorem columns_withHeader (schema : RowSchema) (layout : HeaderLayout) :
    (withHeader schema layout).columns = schema.columns := rfl

theorem booleanTail_withHeader (schema : RowSchema) (layout : HeaderLayout) :
    (withHeader schema layout).booleanTail = schema.booleanTail := rfl

section Fields

variable {row row' : Bytes} {a b : Nat} (h : row.drop a = row'.drop b) (ha : a ≤ row.length) (hb : b ≤ row'.length)
variable {column : Nat} {schema : RowSchema}

include h ha hb

theorem take_shifted (count : Nat) : Shifted a b (take row count column) (take row' count column) :=
  .takeOr h ha hb count _

theorem takeByte_shifted : Shifted a b (takeByte row column) (takeByte row' column) :=
  .bind (take_shifted h ha hb 1) fun _ => .lift _

theorem takeExact_shifted (width : Nat) : Shifted a b (takeExact row width column) (takeExact row' width column) :=
  .bind (take_shifted h ha hb width) fun _ => .lift _

theorem takeU16_shifted : Shifted a b (takeU16 row column) (takeU16 row' column) :=
  .bind (take_shifted h ha hb 2) fun _ => .lift _

theorem takeUnsigned_shifted (width : Nat) :
    Shifted a b (takeUnsigned row width column) (takeUnsigned row' width column) :=
  .bind (takeExact_shifted h ha hb width) fun _ => .pure _

theorem takeSigned_shifted (width : Nat) :
    Shifted a b (takeSigned row width column) (takeSigned row' width column) :=
  .bind (takeExact_shifted h ha hb width) fun _ => .pure _

theorem readSigned_shifted (width : Nat) :
    Shifted a b (readSigned row column width) (readSigned row' column width) := by
  rw [readSigned.eq_def, readSigned.eq_def]
  split
  · exact takeSigned_shifted h ha hb 1
  · exact takeSigned_shifted h ha hb 2
  · exact takeSigned_shifted h ha hb 4
  · exact takeSigned_shifted h ha hb 8
  · exact .lift _

theorem readUnsigned_shifted (width : Nat) :
    Shifted a b (readUnsigned row column width) (readUnsigned row' column width) := by
  rw [readUnsigned.eq_def, readUnsigned.eq_def]
  split
  · exact .bind (takeByte_shifted h ha hb) fun _ => .pure _
  · exact takeUnsigned_shifted h ha hb 2
  · exact takeUnsigned_shifted h ha hb 4
  · exact takeUnsigned_shifted h ha hb 8
  · exact .lift _

theorem decodeEnum_shifted (width : Nat) (layout : EnumLayout) :
    Shifted a b (decodeEnum row column width layout) (decodeEnum row' column width layout) := by
  have hread : Shifted a b (do pure (.enum (← readUnsigned row column width)) : Reader DecodeError Value)
      (do pure (.enum (← readUnsigned row' column width))) :=
    .bind (readUnsigned_shifted h ha hb width) fun _ => .pure _
  rw [decodeEnum.eq_def, decodeEnum.eq_def]
  apply Shifted.ite (.lift _)
  split
  · exact hread
  · exact hread
  · exact hread
  · exact hread
  · exact .lift _

theorem readNumericLegacy_shifted : Shifted a b (readNumericLegacy row column) (readNumericLegacy row' column) := by
  apply Shifted.bind (takeByte_shifted h ha hb)
  intro count
  apply Shifted.bind (takeByte_shifted h ha hb)
  intro exponent
  apply Shifted.ite (.pure _)
  apply Shifted.bind (take_shifted h ha hb _)
  intro digits
  exact .bind (.lift _) fun _ => .pure _

theorem readNumericEnterpriseMaterialized_shifted : Shifted a b (readNumericEnterpriseMaterialized row column)
    (readNumericEnterpriseMaterialized row' column) := by
  apply Shifted.bind (takeByte_shifted h ha hb)
  intro count
  apply Shifted.bind (takeByte_shifted h ha hb)
  intro marker
  apply Shifted.ite (.pure _)
  apply Shifted.bind (take_shifted h ha hb _)
  intro digits
  split
  · exact .lift _
  · exact .pure _

theorem decodeNumericValue_shifted (layout : NumericLayout) :
    Shifted a b (decodeNumericValue row column layout) (decodeNumericValue row' column layout) := by
  cases layout with
  | legacyForward => exact .bind (readNumericLegacy_shifted h ha hb) fun _ => .pure _
  | enterpriseMaterializedRaw => exact readNumericEnterpriseMaterialized_shifted h ha hb

theorem takeLength_shifted (definition : ColumnDef) (layout : VariableLengthLayout) :
    Shifted a b (takeLength row column definition layout) (takeLength row' column definition layout) := by
  have hshort : Shifted a b (takeShortLength row column) (takeShortLength row' column) :=
    .bind (takeByte_shifted h ha hb) fun _ => .pure _
  have hwide : Shifted a b (takeWideLength row column) (takeWideLength row' column) :=
    .bind (takeU16_shifted h ha hb) fun _ => .pure _
  cases layout with
  | u8 => exact hshort
  | u16Le => exact hwide
  | declaredWidth wideAtOrAbove => exact .ite hwide hshort

theorem decodeOverflow_shifted (layout : VariableOverflowLayout) :
    Shifted a b (decodeOverflow row column layout) (decodeOverflow row' column layout) := by
  rw [decodeOverflow.eq_def, decodeOverflow.eq_def]
  split
  · exact .lift _
  · exact .lift _
  · exact .bind (take_shifted h ha hb _) fun _ => .pure _

theorem decodeNonBoolean_shifted (definition : ColumnDef) : Shifted a b (decodeNonBoolean row column definition schema)
    (decodeNonBoolean row' column definition schema) := by
  rw [decodeNonBoolean.eq_def, decodeNonBoolean.eq_def]
  apply Shifted.ite
  · apply Shifted.bind (takeLength_shifted h ha hb definition _)
    rintro ⟨length, overflow⟩
    exact .ite (decodeOverflow_shifted h ha hb _) (.bind (take_shifted h ha hb length) fun _ => .pure _)
  · split
    · exact .bind (readSigned_shifted h ha hb _) fun _ => .pure _
    · exact .bind (readSigned_shifted h ha hb _) fun _ => .pure _
    · exact .bind (readSigned_shifted h ha hb _) fun _ => .pure _
    · exact .bind (readUnsigned_shifted h ha hb _) fun _ => .pure _
    · exact .bind (readUnsigned_shifted h ha hb _) fun _ => .pure _
    · exact .ite (.lift _) (.bind (takeSigned_shifted h ha hb 8) fun _ => .pure _)
    · exact decodeNumericValue_shifted h ha hb _
    · exact decodeEnum_shifted h ha hb _ _
    · exact .bind (takeSigned_shifted h ha hb 4) fun _ => .pure _
    · apply Shifted.bind (takeSigned_shifted h ha hb 4)
      intro minutes
      exact .bind (takeSigned_shifted h ha hb 4) fun _ => .pure _
    all_goals exact .lift _

end Fields

section Columns

variable {row row' : Bytes} {a b : Nat} (h : row.drop a = row'.drop b) (ha : a ≤ row.length) (hb : b ≤ row'.length)
variable {schema : RowSchema} {layout : HeaderLayout} {present : List Bool}

include h ha hb

theorem decodeColumn_shifted (st : RowState) (i : Nat) (column : ColumnDef) :
    Shifted a b (decodeColumn row schema present st i column)
      (decodeColumn row' (withHeader schema layout) present st i column) := by
  have hrun (tail : BooleanTailLayout) : Shifted a b
      (do
        if ← lift (continuesRun schema present i) then pure st
        else do
          let runEnd ← lift (inlineBooleanRunEnd schema present i)
          let count ← lift (subtract runEnd i)
          let bytes ← take row (byteCount count) i
          lift (storeRun tail bytes i count st))
      (do
        if ← lift (continuesRun schema present i) then pure st
        else do
          let runEnd ← lift (inlineBooleanRunEnd schema present i)
          let count ← lift (subtract runEnd i)
          let bytes ← take row' (byteCount count) i
          lift (storeRun tail bytes i count st)) := by
    apply Shifted.bind (.lift _)
    intro continues
    apply Shifted.ite (.pure _)
    apply Shifted.bind (.lift _)
    intro runEnd
    apply Shifted.bind (.lift _)
    intro count
    exact .bind (take_shifted h ha hb _) fun _ => .lift _
  have hfield : Shifted a b
      (do
        let value ← decodeNonBoolean row i column schema
        lift (st.store i value))
      (do
        let value ← decodeNonBoolean row' i column schema
        lift (st.store i value)) := .bind (decodeNonBoolean_shifted h ha hb column) fun _ => .lift _
  rw [decodeColumn, decodeColumn, booleanTail_withHeader]
  apply Shifted.bind (.lift _)
  intro here
  apply Shifted.ite (.pure _)
  refine Shifted.ite ?_ hfield
  cases schema.booleanTail with
  | inlineBytes =>
      apply Shifted.bind (takeByte_shifted h ha hb)
      intro byte
      exact .bind (.lift _) fun _ => .lift _
  | inlineU16Le =>
      apply Shifted.bind (take_shifted h ha hb 2)
      intro bytes
      exact .bind (.lift _) fun _ => .lift _
  | bytes => exact .pure _
  | packedMsbFirst => exact .pure _
  | inlinePackedRunsMsbFirst => exact hrun _
  | inlinePackedRunsLsbFirst => exact hrun _

theorem decodeColumns_shifted (columns : List ColumnDef) (start : Nat) (st : RowState) :
    Shifted a b (decodeColumns row schema present columns start st)
      (decodeColumns row' (withHeader schema layout) present columns start st) := by
  apply Shifted.foldlM
  intro st entry
  exact decodeColumn_shifted h ha hb st entry.2 entry.1

theorem decodePrefixColumn_shifted (through n : Nat) (st : PrefixState) (i : Nat) (column : ColumnDef) :
    Shifted a b (decodePrefixColumn row schema present through (a + n) st i column)
      (decodePrefixColumn row' (withHeader schema layout) present through (b + n) st i column) := by
  have hrun : Shifted a b
      (do
        if ← lift (continuesRun schema present i) then pure st
        else do
          let runEnd ← lift (inlineBooleanRunEnd schema present i)
          let count ← lift (subtract runEnd i)
          let bytes ← take row (byteCount count) i
          lift (pushRun schema bytes through i count st))
      (do
        if ← lift (continuesRun schema present i) then pure st
        else do
          let runEnd ← lift (inlineBooleanRunEnd schema present i)
          let count ← lift (subtract runEnd i)
          let bytes ← take row' (byteCount count) i
          lift (pushRun schema bytes through i count st)) := by
    apply Shifted.bind (.lift _)
    intro continues
    apply Shifted.ite (.pure _)
    apply Shifted.bind (.lift _)
    intro runEnd
    apply Shifted.bind (.lift _)
    intro count
    exact .bind (take_shifted h ha hb _) fun _ => .lift _
  rw [decodePrefixColumn, decodePrefixColumn, booleanTail_withHeader]
  apply Shifted.ite
  · apply Shifted.bind (.lift _)
    intro here
    apply Shifted.ite (.pure _)
    cases schema.booleanTail with
    | inlineBytes =>
        apply Shifted.bind (takeByte_shifted h ha hb)
        intro byte
        exact .bind (.lift _) fun _ => .pure _
    | inlineU16Le =>
        apply Shifted.bind (take_shifted h ha hb 2)
        intro bytes
        exact .bind (.lift _) fun _ => .pure _
    | bytes => exact .pure _
    | packedMsbFirst => exact .pure _
    | inlinePackedRunsMsbFirst => exact hrun
    | inlinePackedRunsLsbFirst => exact hrun
  · apply Shifted.bind (.lift _)
    intro here
    apply Shifted.ite (.pure _)
    apply Shifted.ite
    · exact .bind (decodeNonBoolean_shifted h ha hb column) fun _ => .pure _
    · apply Shifted.bind (decodeNonBoolean_shifted h ha hb column)
      intro value
      exact .bind (.guard n _) fun _ => .pure _

theorem decodePrefixColumns_shifted (through n : Nat) (columns : List ColumnDef) (start : Nat) (st : PrefixState) :
    Shifted a b (decodePrefixColumns row schema present through (a + n) columns start st)
      (decodePrefixColumns row' (withHeader schema layout) present through (b + n) columns start st) := by
  apply Shifted.foldlM
  intro st entry
  exact decodePrefixColumn_shifted h ha hb through n st entry.2 entry.1

end Columns

/-- A row of another size that was read behind a header of `b` bytes in place of `a`. -/
def movedRow (a b size : Nat) (r : DecodedRow) : DecodedRow :=
  { r with declaredSize := size, consumedSize := b + (r.consumedSize - a) }

def resized (size : Nat) (p : PartialDecodedRow) : PartialDecodedRow := { p with declaredSize := size }

section Rows

variable {row row' : Bytes} {schema : RowSchema} {layout : HeaderLayout}

/-- The rows hold the same columns behind their headers, and the headers say the same of them. -/
structure SameColumns (schema : RowSchema) (layout : HeaderLayout) (row row' : Bytes) : Prop where
  body : row.drop (headerLen schema) = row'.drop (headerLen (withHeader schema layout))
  fits : headerLen schema ≤ row.length
  fits' : headerLen (withHeader schema layout) ≤ row'.length
  present : presenceFlags (withHeader schema layout) (bitmapOf (withHeader schema layout) row') =
    presenceFlags schema (bitmapOf schema row)

variable (h : SameColumns schema layout row row')

include h

theorem SameColumns.length_body :
    row.length - headerLen schema = row'.length - headerLen (withHeader schema layout) := by
  rw [← List.length_drop, ← List.length_drop, h.body]

theorem readTail_moved (st : RowState) (n : Nat) :
    readTail (withHeader schema layout) (headerOf (withHeader schema layout) row') st
        (headerLen (withHeader schema layout) + n) =
      (readTail schema (headerOf schema row) st (headerLen schema + n)).map
        (movedRow (headerLen schema) (headerLen (withHeader schema layout)) row'.length) := by
  have hlength := h.length_body
  have hremaining : row.length - (headerLen schema + n) =
      row'.length - (headerLen (withHeader schema layout) + n) := by
    omega
  rw [readTail, readTail]
  by_cases hshort : row'.length - (headerLen (withHeader schema layout) + n) <
      requiredTail schema.booleanTail st.boolValues.length
  · refine (if_pos hshort).trans (Eq.symm ?_)
    rw [headerOf_row, hremaining, if_pos hshort]
    rfl
  · refine (if_neg hshort).trans (Eq.symm ?_)
    rw [headerOf_row, hremaining, if_neg hshort, headerOf_row, booleanTail_withHeader, Nat.add_assoc, Nat.add_assoc,
      ← slice_behind h.body h.fits h.fits' n (n + requiredTail schema.booleanTail st.boolValues.length)]
    cases (slice row (headerLen schema + n)
        (headerLen schema + (n + requiredTail schema.booleanTail st.boolValues.length)) : Outcome DecodeError Bytes) with
    | error fault => rfl
    | ok tail =>
        rw [ok_bind, ok_bind]
        cases decodeTail schema.booleanTail tail st.boolValues st.values with
        | error fault => rfl
        | ok values =>
            simp only [ok_bind, pure, Except.pure, Except.map, movedRow, Nat.add_sub_cancel_left]
            rfl

theorem decodeFrom_moved : decodeFrom (withHeader schema layout) (headerOf (withHeader schema layout) row') =
    (decodeFrom schema (headerOf schema row)).map
      (movedRow (headerLen schema) (headerLen (withHeader schema layout)) row'.length) := by
  have hruns := (@decodeColumns_shifted row row' _ _ h.body h.fits h.fits' schema layout
    (presenceFlags schema (bitmapOf schema row)) schema.columns 0 (startState schema)).runFrom 0
  rw [decodeFrom_eq_bind, decodeFrom_eq_bind]
  simp only [headerOf_row, headerOf_cursor, headerOf_present, h.present]
  rcases hruns with ⟨e, he, he'⟩ | ⟨st, n, hst, hst'⟩
  · rw [Nat.add_zero] at he he'
    rw [he]
    exact congrArg (· >>= _) he'
  · rw [Nat.add_zero] at hst hst'
    rw [hst, ok_bind, ← readTail_moved h]
    exact congrArg (· >>= _) hst'

theorem finishStage_moved {tailStart tailStart' : Nat} (n : Nat) (hn : tailStart = headerLen schema + n)
    (hn' : tailStart' = headerLen (withHeader schema layout) + n) (cols : List (ColumnDef × Nat)) (st : PrefixState) :
    finishStage (withHeader schema layout) row' tailStart' cols st = finishStage schema row tailStart cols st := by
  subst hn hn'
  have hlength := h.length_body
  have hfits := h.fits
  have hfits' := h.fits'
  have hend : row.length = headerLen schema + (row.length - headerLen schema) := by omega
  have hend' : row'.length = headerLen (withHeader schema layout) + (row.length - headerLen schema) := by omega
  have hslice : (slice row' (headerLen (withHeader schema layout) + n) row'.length : Outcome DecodeError Bytes) =
      slice row (headerLen schema + n) row.length := by
    rw [hend', hend, slice_behind h.body h.fits h.fits' n]
    simp only [Nat.add_sub_cancel_left]
  rw [finishStage, finishStage, booleanTail_withHeader, hslice]

theorem prefixFrom_moved (through : Nat) :
    prefixFrom (withHeader schema layout) through (headerOf (withHeader schema layout) row') =
      (prefixFrom schema through (headerOf schema row)).map (resized row'.length) := by
  have hlength := h.length_body
  have hfits := h.fits
  have hfits' := h.fits'
  obtain ⟨cols, hcols⟩ : ∃ cols, booleanColumns (presenceFlags schema (bitmapOf schema row)) schema.columns 0 = .ok cols :=
    ⟨_, booleanColumns_eq length_presenceFlags⟩
  rw [prefixFrom_eq rfl hcols rfl h.fits, prefixFrom_eq h.present.symm hcols rfl h.fits', booleanTail_withHeader,
    ← hlength]
  by_cases hshort : requiredTail schema.booleanTail cols.length > row.length - headerLen schema
  · rw [if_pos hshort, if_pos hshort]
    rfl
  rw [if_neg hshort, if_neg hshort]
  generalize requiredTail schema.booleanTail cols.length = needed at hshort
  obtain ⟨n, hn⟩ : ∃ n, row.length - needed = headerLen schema + n := ⟨row.length - needed - headerLen schema, by omega⟩
  have hn' : row'.length - needed = headerLen (withHeader schema layout) + n := by omega
  have hruns := (@decodePrefixColumns_shifted row row' _ _ h.body h.fits h.fits' schema layout
    (presenceFlags schema (bitmapOf schema row)) through n (schema.columns.take through) 0 ⟨[], []⟩).runFrom 0
  rw [hn, hn', columns_withHeader]
  rcases hruns with ⟨e, he, he'⟩ | ⟨st, m, hst, hst'⟩
  · rw [Nat.add_zero] at he he'
    rw [he, he']
    rfl
  · rw [Nat.add_zero] at hst hst'
    rw [hst, hst', ok_bind, ok_bind, closeStage, closeStage, finishStage_moved h n rfl rfl]
    cases finishStage schema row (headerLen schema + n) cols st with
    | error fault => rfl
    | ok st =>
        simp only [ok_bind, Nat.add_lt_add_iff_left, Nat.add_sub_add_left]
        by_cases hover : n < m
        · rw [if_pos hover, if_pos hover]
          rfl
        · rw [if_neg hover, if_neg hover]
          rfl

end Rows

end OpenSqlAny.RowShifts
