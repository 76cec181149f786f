import OpenSqlAny.RowShifts

namespace OpenSqlAny.HeaderRewriting

open Library.Faults Library.LittleEndian Library.PackedBits
open RowTypes RowDecoder RowGrammar RowHeader RowSoundness StagedSoundness RowShifts

def coveredFlags (schema : RowSchema) (present : List Bool) : List Bool :=
  match schema.nullBitmapCoverage with
  | .nullableColumns => ((schema.columns.zip present).filter (·.1.nullable)).map (·.2)
  | .allColumns => present

def writeBitmap (schema : RowSchema) (present : List Bool) : Bytes :=
  pack (nullBitOrder schema.nullBitmapLayout)
    ((coveredFlags schema present).map fun p => p == setMeansPresent schema.nullBitmapLayout)

/-- A row with its columns as they are, behind a header of another layout. -/
def rewriteRow (schema : RowSchema) (layout : HeaderLayout) (row : Bytes) : Bytes :=
  toLeBytes 2 (headerLen (withHeader schema layout) + (row.length - headerLen schema)) ++
    List.replicate (carrierLen layout.rowPrefixLayout) 0 ++
    writeBitmap (withHeader schema layout) (presenceFlags schema (bitmapOf schema row)) ++
    row.drop (headerLen schema)

section Bitmaps

variable {schema : RowSchema} {present : List Bool} {bitmap : Bytes} {i : Nat}

theorem getElem?_filter_countP {α : Type} {p : α → Bool} {xs : List α} {x : α} (h : xs[i]? = some x)
    (hp : p x = true) : (xs.filter p)[(xs.take i).countP p]? = some x := by
  obtain ⟨hi, rfl⟩ := List.getElem?_eq_some_iff.mp h
  have hsplit : xs.filter p = (xs.take i).filter p ++ xs[i] :: (xs.drop (i + 1)).filter p := by
    conv_lhs => rw [← List.take_append_drop i xs, List.drop_eq_getElem_cons hi]
    rw [List.filter_append, List.filter_cons_of_pos hp]
  rw [hsplit, List.countP_eq_length_filter, List.getElem?_append_right le_rfl, Nat.sub_self, List.getElem?_cons_zero]

theorem countP_zip (hlen : present.length = schema.columns.length) (i : Nat) :
    ((schema.columns.zip present).take i).countP (·.1.nullable) = (schema.columns.take i).countP (·.nullable) := by
  have hfst : (schema.columns.zip present).map Prod.fst = schema.columns := List.map_fst_zip hlen.ge
  conv_rhs => rw [← hfst, ← List.map_take, List.countP_map]
  rfl

theorem length_coveredFlags (hlen : present.length = schema.columns.length) :
    (coveredFlags schema present).length = schema.nullBitmapBitCount := by
  rw [coveredFlags, RowSchema.nullBitmapBitCount, RowSchema.nullableCount]
  cases schema.nullBitmapCoverage with
  | nullableColumns =>
      have hcount := countP_zip hlen schema.columns.length
      rw [List.take_of_length_le (by rw [List.length_zip, hlen, Nat.min_self]), List.take_length] at hcount
      rw [List.length_map, ← List.countP_eq_length_filter, hcount]
  | allColumns => exact hlen

theorem coveredFlags_bitmapIndex (hlen : present.length = schema.columns.length) {column : ColumnDef} {p : Bool}
    (hcolumn : schema.columns[i]? = some column) (hp : present[i]? = some p) (hnullable : column.nullable = true) :
    (coveredFlags schema present)[bitmapIndex schema i]? = some p := by
  rw [coveredFlags, bitmapIndex]
  cases schema.nullBitmapCoverage with
  | nullableColumns =>
      have hentry : (schema.columns.zip present)[i]? = some (column, p) := by
        rw [List.getElem?_zip_eq_some]
        exact ⟨hcolumn, hp⟩
      rw [List.getElem?_map, ← countP_zip hlen i]
      change ((List.filter _ _)[_]?).map Prod.snd = _
      rw [@getElem?_filter_countP i _ (fun entry => entry.1.nullable) _ _ hentry hnullable]
      rfl
  | allColumns => exact hp

theorem saysPresent_eq_beq (layout : NullBitmapLayout) (bitmap : Bytes) (i : Nat) :
    saysPresent layout bitmap i = (bitAt (nullBitOrder layout) bitmap i == setMeansPresent layout) := by
  cases layout with
  | msbPresent => exact (beq_true _).symm
  | lsbPresent => exact (beq_true _).symm
  | msbNull => exact (beq_false _).symm
  | lsbNull => exact (beq_false _).symm

theorem length_writeBitmap (hlen : present.length = schema.columns.length) :
    (writeBitmap schema present).length = byteCount schema.nullBitmapBitCount := by
  rw [writeBitmap, length_pack, List.length_map, length_coveredFlags hlen]

theorem presenceFlags_writeBitmap (hlen : present.length = schema.columns.length)
    (hrequired : ∀ i : Nat, ∀ column : ColumnDef, schema.columns[i]? = some column → column.nullable = false →
      present[i]? = some true) :
    presenceFlags schema (writeBitmap schema present) = present := by
  apply List.ext_getElem?
  intro i
  rw [presenceFlags, List.getElem?_map, List.getElem?_zipIdx, Nat.zero_add]
  cases hcolumn : schema.columns[i]? with
  | none =>
      have hout := List.getElem?_eq_none_iff.mp hcolumn
      exact (List.getElem?_eq_none_iff.mpr (hlen.le.trans hout)).symm
  | some column =>
      obtain ⟨hi, -⟩ := List.getElem?_eq_some_iff.mp hcolumn
      obtain ⟨p, hp⟩ : ∃ p, present[i]? = some p := ⟨_, List.getElem?_eq_getElem (hlen ▸ hi)⟩
      rw [hp, Option.map_some, Option.map_some, presenceFlag, Option.some.injEq]
      cases hnullable : column.nullable with
      | false =>
          have hpresent := hrequired i column hcolumn hnullable
          rw [hp, Option.some.injEq] at hpresent
          rw [hpresent]
          rfl
      | true =>
          have hflag := coveredFlags_bitmapIndex hlen hcolumn hp hnullable
          obtain ⟨hindex, hget⟩ := List.getElem?_eq_some_iff.mp hflag
          have hbit := (packs_pack (nullBitOrder schema.nullBitmapLayout)
            ((coveredFlags schema present).map fun p => p == setMeansPresent schema.nullBitmapLayout)).2
            (bitmapIndex schema i) (by rwa [List.length_map])
          rw [List.getElem_map, hget] at hbit
          rw [saysPresent_eq_beq, writeBitmap, hbit]
          cases p <;> cases setMeansPresent schema.nullBitmapLayout <;> rfl

theorem presenceFlags_required {column : ColumnDef} (hcolumn : schema.columns[i]? = some column)
    (hrequired : column.nullable = false) : (presenceFlags schema bitmap)[i]? = some true := by
  rw [presenceFlags, List.getElem?_map, List.getElem?_zipIdx, hcolumn, Option.map_some, Option.map_some, presenceFlag,
    hrequired]
  rfl

end Bitmaps

section Rewriting

variable {schema : RowSchema} {layout : HeaderLayout} {row rest : Bytes}

theorem length_rewriteRow : (rewriteRow schema layout row).length =
    headerLen (withHeader schema layout) + (row.length - headerLen schema) := by
  have hbitmap := @length_writeBitmap (withHeader schema layout) _ (@length_presenceFlags schema (bitmapOf schema row))
  simp only [rewriteRow, List.length_append, length_toLeBytes, List.length_replicate, hbitmap, List.length_drop]
  rfl

theorem sameColumns_rewriteRow (hfits : headerLen schema ≤ row.length) :
    SameColumns schema layout row (rewriteRow schema layout row) := by
  have hlen := @length_presenceFlags schema (bitmapOf schema row)
  have hbitmap := @length_writeBitmap (withHeader schema layout) _ hlen
  obtain ⟨hread, hbody⟩ := @header_append (withHeader schema layout)
    (toLeBytes 2 (headerLen (withHeader schema layout) + (row.length - headerLen schema)))
    (List.replicate (carrierLen layout.rowPrefixLayout) 0) _ (length_toLeBytes 2 _) List.length_replicate hbitmap
    (row.drop (headerLen schema))
  refine ⟨hbody.symm, hfits, ?_, ?_⟩
  · rw [length_rewriteRow]
    exact Nat.le_add_right _ _
  · refine (congrArg _ hread).trans ?_
    apply @presenceFlags_writeBitmap (withHeader schema layout) _ hlen
    intro i column hcolumn hrequired
    exact presenceFlags_required hcolumn hrequired

theorem headerValid_rewriteRow (hsize : (rewriteRow schema layout row).length < 2 ^ 13) :
    HeaderValid (withHeader schema layout) (rewriteRow schema layout row) (rewriteRow schema layout row).length := by
  have hfits : headerLen (withHeader schema layout) ≤ (rewriteRow schema layout row).length := by
    rw [length_rewriteRow]
    exact Nat.le_add_right _ _
  refine ⟨?_, le_rfl, hsize, ?_, hfits⟩
  · rw [headerLen] at hfits
    omega
  · rw [length_rewriteRow, rewriteRow, List.append_assoc, List.append_assoc]
    exact List.prefix_append _ _

theorem rowHeader_append (hrow : HeaderValid schema row row.length) :
    2 ≤ (row ++ rest).length ∧ rowHeaderAndPresence (row ++ rest) schema = .ok (headerOf schema row) := by
  have hlen : 2 ≤ (row ++ rest).length := by
    rw [List.length_append]
    exact hrow.le_size.trans (Nat.le_add_right _ _)
  refine ⟨hlen, (rowHeaderAndPresence_eq_ok_iff hlen).mpr ⟨row.length, ?_, ?_⟩⟩
  · refine ⟨hrow.le_size, ?_, hrow.size_lt, hrow.word.trans (List.prefix_append _ _), hrow.fits⟩
    rw [List.length_append]
    exact Nat.le_add_right _ _
  · rw [List.take_left' rfl]

theorem decodeRow_append (hrow : HeaderValid schema row row.length) :
    decodeRow (row ++ rest) schema = decodeFrom schema (headerOf schema row) := by
  obtain ⟨hlen, hheader⟩ := @rowHeader_append schema row rest hrow
  rw [decodeRow_eq hlen, hheader, ok_bind]

theorem decodeRowPrefix_append (hrow : HeaderValid schema row row.length) {through : Nat} (hpos : 0 < through)
    (hle : through ≤ schema.columns.length) :
    decodeRowPrefixAndBooleanTail (row ++ rest) schema through = prefixFrom schema through (headerOf schema row) := by
  obtain ⟨-, hheader⟩ := @rowHeader_append schema row rest hrow
  rw [decodeRowPrefixAndBooleanTail_eq hpos hle, hheader, ok_bind]

/-- A row reads the same behind the header of any other layout: the decoders return the same values from
it and the same errors, whatever follows it. -/
theorem rewriteRow_decodes (schema : RowSchema) (layout : HeaderLayout) (row rest rest' : Bytes)
    (hrow : HeaderValid schema row row.length) (hsize : (rewriteRow schema layout row).length < 2 ^ 13) :
    decodeRow (rewriteRow schema layout row ++ rest') (withHeader schema layout) =
        (decodeRow (row ++ rest) schema).map
          (movedRow (headerLen schema) (headerLen (withHeader schema layout)) (rewriteRow schema layout row).length) ∧
      ∀ through, decodeRowPrefixAndBooleanTail (rewriteRow schema layout row ++ rest') (withHeader schema layout) through =
        (decodeRowPrefixAndBooleanTail (row ++ rest) schema through).map
          (resized (rewriteRow schema layout row).length) := by
  have hrow' := headerValid_rewriteRow hsize
  have hsame := @sameColumns_rewriteRow schema layout row hrow.fits
  constructor
  · rw [decodeRow_append hrow, decodeRow_append hrow']
    exact decodeFrom_moved hsame
  · intro through
    by_cases hthrough : through = 0 ∨ through > schema.columns.length
    · rw [decodeRowPrefixAndBooleanTail, decodeRowPrefixAndBooleanTail, if_pos hthrough]
      exact if_pos hthrough
    · rw [decodeRowPrefix_append hrow (by omega) (by omega)]
      refine (decodeRowPrefix_append hrow' (by omega) (by rw [columns_withHeader]; omega)).trans ?_
      exact prefixFrom_moved hsame through

end Rewriting

def legacySchema : RowSchema where
  columns := [⟨1, .smallInt, 2, true⟩, ⟨2, .boolean, 1, false⟩, ⟨3, .char, 8, true⟩]

def carrierLayout : HeaderLayout := ⟨.lsbNull, .allColumns, .oneByteCarrier⟩

theorem rewriteRow_decodes_carrier :
    decodeRow [8, 0, 0, 4, 2, 1, 1, 9] (withHeader legacySchema carrierLayout) =
      .ok ⟨8, 7, 0, [.integer 258, .boolean true, .null]⟩ := by
  have h := (rewriteRow_decodes legacySchema carrierLayout [7, 0, 0x80, 2, 1, 1, 9] [] []
    ⟨by decide, by decide, by decide, by decide, by decide⟩ (by decide)).1
  exact h

end OpenSqlAny.HeaderRewriting
