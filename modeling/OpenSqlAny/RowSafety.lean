import OpenSqlAny.SegmentReading
import OpenSqlAny.StagedAgreement

namespace OpenSqlAny.RowSafety

open Library.Faults Library.CursorReader Library.LittleEndian
open RowTypes RowDecoder RowGrammar RowSegments RowFields RowLoop RowReading RowHeader RowSoundness
open StagedReading StagedSoundness StagedAgreement SegmentReading

variable {schema : RowSchema} {row input : Bytes} {present : List Bool}

theorem decodeColumns_safe (hlen : present.length = schema.columns.length) (k : Nat) :
    Safe row (decodeColumns row schema present (schema.columns.take k) 0 (startState schema))
      (fun st => st.values.length = schema.columns.length) := by
  apply visit_safe (List.take_prefix k _)
  · intro st i column hst hi hcolumn
    have hic := (List.getElem?_eq_some_iff.mp hcolumn).1
    exact (@decodeColumn_visits row schema present hlen).step_safe hlen hst hic hcolumn
  · simp [startState]

theorem decodePrefixColumn_inline {through : Nat} (hl : hasTail schema.booleanTail = false) (tailStart : Nat)
    (st : PrefixState) (i : Nat) (column : ColumnDef) :
    decodePrefixColumn row schema present through tailStart st i column =
      decodePrefixColumn row schema present through row.length st i column := by
  have hi : isInlineBooleanLayout schema.booleanTail = true := by rw [isInlineBooleanLayout_eq, hl]; rfl
  simp only [decodePrefixColumn, hi, ↓reduceIte]

theorem decodePrefixColumn_safe (hlen : present.length = schema.columns.length) {through tailStart : Nat}
    {st : PrefixState} {i : Nat} {column : ColumnDef} (hi : i < through)
    (hcolumn : schema.columns[i]? = some column) :
    Safe row (decodePrefixColumn row schema present through tailStart st i column) (fun _ => True) := by
  have hic := (List.getElem?_eq_some_iff.mp hcolumn).1
  cases hl : hasTail schema.booleanTail with
  | false =>
      rw [decodePrefixColumn_inline hl]
      exact (@decodePrefixColumn_visits row schema present through row.length hlen le_rfl (fun _ => rfl)).step_safe
        hlen trivial hi hcolumn
  | true =>
      have hinline : isInlineBooleanLayout schema.booleanTail = false := by rw [isInlineBooleanLayout_eq, hl]; rfl
      have hip : i < present.length := by omega
      rw [decodePrefixColumn, index_of_lt hip]
      by_cases hc : column.columnType = .boolean
      · rw [if_pos hc, lift_ok_bind]
        cases present[i] with
        | false => exact Safe.pure trivial
        | true =>
            cases hb : schema.booleanTail with
            | bytes | packedMsbFirst => exact Safe.pure trivial
            | inlineBytes | inlineU16Le | inlinePackedRunsMsbFirst | inlinePackedRunsLsbFirst =>
                rw [hb] at hl
                cases hl
      · rw [if_neg hc, lift_ok_bind]
        cases present[i] with
        | false => exact Safe.pure trivial
        | true =>
            simp only [Bool.not_true, Bool.false_eq_true, ↓reduceIte, hinline]
            apply Safe.bind (decodeNonBoolean_reads i column schema hc).safe
            intro v _
            apply Safe.bind (Safe.guard _ _)
            intro _ _
            exact Safe.pure trivial

theorem decodePrefixColumns_safe (hlen : present.length = schema.columns.length) {through tailStart k : Nat}
    (hk : k ≤ through) :
    Safe row (decodePrefixColumns row schema present through tailStart (schema.columns.take k) 0 ⟨[], []⟩)
      (fun _ => True) := by
  apply visit_safe (List.take_prefix k _)
  · intro st i column _ hi hcolumn
    rw [List.length_take] at hi
    exact decodePrefixColumn_safe hlen (by omega) hcolumn
  · trivial

theorem decodeRow_ne_panic : decodeRow input schema ≠ .error .panic := by
  by_cases hlen : 2 ≤ input.length
  · rw [decodeRow_eq hlen]
    apply bind_ne_panic (rowHeaderAndPresence_ne_panic hlen)
    intro header h
    obtain ⟨size, hv, rfl⟩ := (rowHeaderAndPresence_eq_ok_iff hlen).mp h
    apply (decodeFrom_spec schema _ _).1
    rw [hv.length_row]
    exact hv.fits
  · simp [decodeRow, show input.length < 2 by omega, fail]

theorem decodeRowExact_ne_panic : decodeRowExact input schema ≠ .error .panic := by
  rw [decodeRowExact]
  apply bind_ne_panic decodeRow_ne_panic
  intro r hr
  obtain ⟨-, hle, -⟩ := decodeRow_bounds hr
  rw [subtract_of_le hle]
  change (if r.declaredSize - r.consumedSize ≠ 0 then _ else _) ≠ _
  split
  · simp [fail]
  · simp [pure, Except.pure]

theorem decodeRowPrefix_ne_panic (through : Nat) :
    decodeRowPrefixAndBooleanTail input schema through ≠ .error .panic := by
  by_cases hrange : through = 0 ∨ through > schema.columns.length
  · rw [decodeRowPrefixAndBooleanTail, if_pos hrange]
    simp [fail]
  · rw [decodeRowPrefixAndBooleanTail_eq (by omega) (by omega)]
    by_cases hlen : 2 ≤ input.length
    · apply bind_ne_panic (rowHeaderAndPresence_ne_panic hlen)
      intro header h
      obtain ⟨size, hv, rfl⟩ := (rowHeaderAndPresence_eq_ok_iff hlen).mp h
      apply (prefixFrom_spec (by omega) _).1
      rw [hv.length_row]
      exact hv.fits
    · simp [rowHeaderAndPresence, show input.length < 2 by omega, fail, bind, Except.bind]

theorem decodeMaterializedRowRecordExact_ne_panic :
    decodeMaterializedRowRecordExact input schema ≠ .error .panic := by
  rw [decodeMaterializedRowRecordExact]
  apply bind_ne_panic (mapErr_ne_panic (parseRowSegment_ne_panic input))
  intro segment h
  obtain ⟨flags, next, payload, -, -, hbegins, rfl⟩ := parseRowSegment_eq_ok_iff.mp (mapErr_eq_ok_iff.mp h)
  have hle : (segmentOf flags next payload).declaredLen ≤ input.length := by
    have := hbegins.length_le
    rwa [length_segmentBytes] at this
  rw [subtract_of_le hle, payload_segmentOf]
  simp only [bind, Except.bind, fail]
  split_ifs
  all_goals first | exact decodeRowExact_ne_panic | simp

def declaredSizeOf (input : Bytes) : Nat := rawSize input &&& rowSizeMask

theorem rawSize_congr {input' : Bytes} {size : Nat} (hsize : 2 ≤ size)
    (h : input'.take size = input.take size) : rawSize input' = rawSize input := by
  have := congrArg (List.take 2) h
  rw [List.take_take, List.take_take, Nat.min_eq_left hsize] at this
  rw [rawSize, rawSize, this]

theorem rowHeaderAndPresence_congr {input' : Bytes} (hsize : 2 ≤ declaredSizeOf input)
    (hle : declaredSizeOf input ≤ input.length)
    (h : input'.take (declaredSizeOf input) = input.take (declaredSizeOf input)) :
    rowHeaderAndPresence input' schema = rowHeaderAndPresence input schema := by
  have hlen' : declaredSizeOf input ≤ input'.length := by
    have := congrArg List.length h
    rw [List.length_take, List.length_take] at this
    omega
  have hraw := rawSize_congr hsize h
  rw [rowHeaderAndPresence_eq (hsize.trans hle), rowHeaderAndPresence_eq (hsize.trans hlen'), hraw]
  rw [declaredSizeOf] at hsize hle hlen' h
  have hfits : ¬ (rawSize input &&& rowSizeMask < 2 ∨ rawSize input &&& rowSizeMask > input.length) := by omega
  have hfits' : ¬ (rawSize input &&& rowSizeMask < 2 ∨ rawSize input &&& rowSizeMask > input'.length) := by omega
  rw [if_neg hfits, if_neg hfits']
  split
  · rfl
  next hflags =>
    rw [sizeWord_size ((sizeWord_flags_iff (rawSize_lt input)).mp (not_not.mp hflags))] at h
    rw [h]

theorem decodeRow_congr {input' : Bytes} (hsize : 2 ≤ declaredSizeOf input)
    (hle : declaredSizeOf input ≤ input.length)
    (h : input'.take (declaredSizeOf input) = input.take (declaredSizeOf input)) :
    decodeRow input' schema = decodeRow input schema := by
  have hlen' : declaredSizeOf input ≤ input'.length := by
    have := congrArg List.length h
    rw [List.length_take, List.length_take] at this
    omega
  rw [decodeRow_eq (hsize.trans hle), decodeRow_eq (hsize.trans hlen'), rowHeaderAndPresence_congr hsize hle h]

theorem decodeRowPrefix_congr {input' : Bytes} (hsize : 2 ≤ declaredSizeOf input)
    (hle : declaredSizeOf input ≤ input.length)
    (h : input'.take (declaredSizeOf input) = input.take (declaredSizeOf input)) (through : Nat) :
    decodeRowPrefixAndBooleanTail input' schema through = decodeRowPrefixAndBooleanTail input schema through := by
  by_cases hrange : through = 0 ∨ through > schema.columns.length
  · rw [decodeRowPrefixAndBooleanTail, if_pos hrange, decodeRowPrefixAndBooleanTail, if_pos hrange]
  · rw [decodeRowPrefixAndBooleanTail_eq (by omega) (by omega), decodeRowPrefixAndBooleanTail_eq (by omega) (by omega),
      rowHeaderAndPresence_congr hsize hle h]

/-- The cursor stays inside the declared row after any number of columns,
whether they decode or fail. -/
def CursorInRow (schema : RowSchema) (header : RowHeaderAndPresence) : Prop :=
  header.cursor ≤ header.declaredSize ∧
  ∀ k, cursorOf (decodeColumns header.row schema header.present (schema.columns.take k) 0
      (startState schema) header.cursor) ≤ header.declaredSize ∧
    ∀ through tailStart, k ≤ through → cursorOf (decodePrefixColumns header.row schema header.present through tailStart
      (schema.columns.take k) 0 ⟨[], []⟩ header.cursor) ≤ header.declaredSize

theorem cursorInRow {header : RowHeaderAndPresence} (hlen : 2 ≤ input.length)
    (h : rowHeaderAndPresence input schema = .ok header) : CursorInRow schema header := by
  obtain ⟨size, hv, rfl⟩ := (rowHeaderAndPresence_eq_ok_iff hlen).mp h
  have hfits : headerLen schema ≤ (input.take size).length := hv.length_row.symm ▸ hv.fits
  refine ⟨hfits, fun k => ⟨?_, fun through tailStart hk => ?_⟩⟩
  · exact (decodeColumns_safe length_presenceFlags k).cursorOf_le hfits
  · exact (decodePrefixColumns_safe length_presenceFlags hk).cursorOf_le hfits

/-- Decoding a row never panics, never reads past the declared row, and does
not depend on what follows it. -/
theorem rowDecoding_safe (schema : RowSchema) :
    (∀ input, decodeRow input schema ≠ .error .panic ∧ decodeRowExact input schema ≠ .error .panic ∧
      (∀ through, decodeRowPrefixAndBooleanTail input schema through ≠ .error .panic) ∧
      decodeMaterializedRowRecordExact input schema ≠ .error .panic) ∧
    (∀ input header, rowHeaderAndPresence input schema = .ok header → CursorInRow schema header) ∧
    (∀ input input', 2 ≤ input.length → 2 ≤ declaredSizeOf input → declaredSizeOf input ≤ input.length →
      input'.take (declaredSizeOf input) = input.take (declaredSizeOf input) →
      decodeRow input' schema = decodeRow input schema ∧
      decodeRowExact input' schema = decodeRowExact input schema ∧
      ∀ through, decodeRowPrefixAndBooleanTail input' schema through =
        decodeRowPrefixAndBooleanTail input schema through) ∧
    ∀ input r, decodeRow input schema = .ok r →
      2 ≤ r.consumedSize ∧ r.consumedSize ≤ r.declaredSize ∧ r.declaredSize ≤ input.length := by
  refine ⟨fun input => ?_, fun input header h => ?_, fun input input' _ hsize hle h => ?_, fun input r => ?_⟩
  · exact ⟨decodeRow_ne_panic, decodeRowExact_ne_panic, decodeRowPrefix_ne_panic,
      decodeMaterializedRowRecordExact_ne_panic⟩
  · by_cases hlen : 2 ≤ input.length
    · exact cursorInRow hlen h
    · simp [rowHeaderAndPresence, show input.length < 2 by omega, fail] at h
  · have hrow : decodeRow input' schema = decodeRow input schema := decodeRow_congr hsize hle h
    exact ⟨hrow, by rw [decodeRowExact, decodeRowExact, hrow], decodeRowPrefix_congr hsize hle h⟩
  · exact decodeRow_bounds

theorem rowDecoding_safe_smallInt :
    decodeRow [5, 0, 0x80, 2, 1, 7, 7] smallIntSchema = decodeRow [5, 0, 0x80, 2, 1] smallIntSchema ∧
    ∃ r, decodeRow [5, 0, 0x80, 2, 1] smallIntSchema = .ok r ∧ r.consumedSize ≤ r.declaredSize :=
  ⟨((rowDecoding_safe smallIntSchema).2.2.1 [5, 0, 0x80, 2, 1] [5, 0, 0x80, 2, 1, 7, 7] (by decide) (by decide)
      (by decide) (by decide)).1,
    ⟨5, 5, 0, [.integer 258]⟩, by decide,
    ((rowDecoding_safe smallIntSchema).2.2.2 [5, 0, 0x80, 2, 1] ⟨5, 5, 0, [.integer 258]⟩ (by decide)).2.1⟩

end OpenSqlAny.RowSafety
