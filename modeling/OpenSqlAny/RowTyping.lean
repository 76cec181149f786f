import OpenSqlAny.MaterializedTables
import OpenSqlAny.RowCoefficients

namespace OpenSqlAny.RowTyping

open Library.Faults Library.LittleEndian RowTypes RowDecoder RowGrammar RowLoop RowTail RowHeader RowSoundness
open StagedSoundness StagedAgreement StagedStability RowCoefficients CarrierReading CarrierSizes MaterializedTables

def SignedRange (width : Nat) (x : Int) : Prop := -2 ^ (8 * width - 1) ≤ x ∧ x < 2 ^ (8 * width - 1)

/-- The decimals that legacy tokens stand for: small whole numbers with a sign, and numbers without one
that have an even scale or an even number of further zeros. -/
inductive LegacyForm : Decimal → Prop
  | short (negative : Bool) (n : Nat) (hle : n ≤ 128) (hsign : negative = true → 0 < n ∧ n < 128) :
      LegacyForm ⟨negative, Nat.toDigits 10 n, 0⟩
  | scaled (n k : Nat) (hlt : n < 100 ^ 255) (hle : k ≤ 192) : LegacyForm ⟨false, Nat.toDigits 10 n, 2 * k⟩
  | shifted (n k : Nat) (hlt : n < 100 ^ 255) (hle : k ≤ 63) :
      LegacyForm ⟨false, Nat.toDigits 10 n ++ List.replicate (2 * k) '0', 0⟩

/-- A value that has its column's type and fits its width and layouts. -/
def FitsColumn (schema : RowSchema) (column : ColumnDef) : Value → Prop
  | .null => column.nullable = true
  | .integer x => column.columnType ∈ [.smallInt, .integer, .integer2, .int64] ∧ IntegerWidth column.width ∧
      (column.columnType = .int64 → column.width = 8) ∧ SignedRange column.width x
  | .unsigned n => column.columnType ∈ [.uInt64, .uInt32] ∧ IntegerWidth column.width ∧ n < 2 ^ (8 * column.width)
  | .decimal d => column.columnType = .numeric ∧ schema.numericLayout = .legacyForward ∧ LegacyForm d
  | .enterpriseNumeric token => column.columnType = .numeric ∧ schema.numericLayout = .enterpriseMaterializedRaw ∧
      token.digits.length < 256 ∧ ∀ d ∈ token.digits, d ≤ 99
  | .enum n => column.columnType = .enum ∧ schema.enumLayout = .fixedWidthUnsigned ∧ IntegerWidth column.width ∧
      n < 2 ^ (8 * column.width)
  | .overflowPointer pointer => column.columnType.isVariable = true ∧ 0 < pointer.length ∧
      schema.variableOverflowLayout = .pointer pointer.length
  | .bytes data => column.columnType.isVariable = true ∧
      data.length < overflowMarker (lengthWidth column schema.variableLengthLayout)
  | .date d => column.columnType = .date ∧ SignedRange 4 d.rawMinutes
  | .dateTime d => column.columnType = .dateTime ∧ d.date.rawMinutes = d.minutesSinceSaEpoch ∧
      SignedRange 4 d.minutesSinceSaEpoch ∧ SignedRange 4 d.subminuteRaw
  | .boolean _ => column.columnType = .boolean

structure WellTyped (schema : RowSchema) (values : List Value) : Prop where
  length : values.length = schema.columns.length
  fits : ∀ (i : Nat) column value, schema.columns[i]? = some column → values[i]? = some value →
    FitsColumn schema column value

def EntryTyped (schema : RowSchema) (entry : PartialRowValue) : Prop :=
  ∃ column, schema.columns[entry.columnIndex]? = some column ∧ entry.columnId = column.id ∧
    FitsColumn schema column entry.value

structure StageTyped (schema : RowSchema) (through : Nat) (q : PartialDecodedRow) : Prop where
  prefixValues : ∀ entry ∈ q.prefixValues, EntryTyped schema entry ∧ entry.columnIndex < through
  booleanValues : ∀ entry ∈ q.booleanValues, EntryTyped schema entry ∧ ∃ b, entry.value = .boolean b
  prefixOrder : (q.prefixValues.map (·.columnIndex)).Pairwise (· < ·)
  booleanOrder : (q.booleanValues.map (·.columnIndex)).Pairwise (· < ·)

section Fields

variable {schema : RowSchema} {column : ColumnDef} {value : Value} {f : Bytes}

theorem base100_lt {digits : Bytes} (h : ∀ d ∈ digits, d ≤ 99) : base100 digits < 100 ^ digits.length := by
  induction digits using List.reverseRecOn with
  | nil => exact Nat.one_pos
  | append_singleton digits d ih =>
      have hd : d.toNat ≤ 99 := UInt8.le_iff_toNat_le.mp (h d (List.mem_append_right _ List.mem_cons_self))
      have hdigits := ih fun x hx => h x (List.mem_append_left _ hx)
      rw [base100] at hdigits
      rw [base100, List.foldl_append, List.length_append, List.foldl_cons, List.foldl_nil, List.length_singleton,
        Nat.pow_succ]
      omega

theorem legacyForm_of_token {marker : UInt8} {digits : Bytes} (h : NumericToken marker digits f) :
    LegacyForm (legacyDecimal marker digits) := by
  obtain ⟨hlength, hdigits, -⟩ := h
  have hmarker := marker.toNat_lt
  rw [legacyDecimal]
  split
  · refine .short _ _ (by omega) fun hnegative => ?_
    have hlt : 0x80 < marker.toNat := UInt8.lt_iff_toNat_lt.mp (of_decide_eq_true hnegative)
    omega
  · have hn : base100 digits < 100 ^ 255 :=
      lt_of_lt_of_le (base100_lt hdigits) (Nat.pow_le_pow_right (by decide) (by omega))
    by_cases hshift : 0xc0 ≤ marker.toNat
    · rw [Nat.sub_eq_zero_of_le hshift]
      exact .shifted _ _ hn (by omega)
    · rw [Nat.sub_eq_zero_of_le (Nat.le_of_not_le hshift), Nat.mul_zero, List.replicate_zero, List.append_nil]
      exact .scaled _ _ hn (by omega)

theorem isVariable_fits (hvariable : column.columnType.isVariable = true) (h : VariableRepr schema column value f) :
    FitsColumn schema column value := by
  cases h with
  | bytes data hlt => exact ⟨hvariable, hlt⟩
  | overflow pointer hpos hlayout => exact ⟨hvariable, hpos, hlayout⟩

theorem fieldRepr_fits (h : FieldRepr schema column value f) : FitsColumn schema column value := by
  have hsigned {x : Int} {width : Nat} {g : Bytes} (hx : SignedRepr width x g) : SignedRange width x := ⟨hx.1, hx.2.1⟩
  cases hc : column.columnType <;> simp only [FieldRepr, hc] at h
  case smallInt | integer | integer2 =>
    obtain ⟨hwidth, x, rfl, hx⟩ := h
    exact ⟨by simp [hc], hwidth, by simp [hc], hsigned hx⟩
  case int64 =>
    obtain ⟨hwidth, x, rfl, hx⟩ := h
    rw [← hwidth] at hx
    exact ⟨by simp [hc], .inr (.inr (.inr hwidth)), fun _ => hwidth, hsigned hx⟩
  case uInt64 | uInt32 =>
    obtain ⟨hwidth, n, rfl, hn⟩ := h
    exact ⟨by simp [hc], hwidth, hn.1⟩
  case enum =>
    obtain ⟨hlayout, hwidth, n, rfl, hn⟩ := h
    exact ⟨hc, hlayout, hwidth, hn.1⟩
  case numeric =>
    obtain ⟨marker, digits, htoken, hvalue⟩ := h
    cases hl : schema.numericLayout with
    | legacyForward =>
        rw [hl] at hvalue
        subst hvalue
        exact ⟨hc, hl, legacyForm_of_token htoken⟩
    | enterpriseMaterializedRaw =>
        rw [hl] at hvalue
        subst hvalue
        exact ⟨hc, hl, htoken.1, htoken.2.1⟩
  case date =>
    obtain ⟨m, rfl, hm⟩ := h
    exact ⟨hc, hsigned hm⟩
  case dateTime =>
    obtain ⟨m, s, g, g', rfl, hm, hs, -⟩ := h
    exact ⟨hc, rfl, hsigned hm, hsigned hs⟩
  case char | char2 | text | text2 =>
    exact isVariable_fits (by rw [hc]; rfl) h

theorem fieldsRepr_fits {n : Nat} {cells : List Cell} (h : FieldsRepr schema n cells f) :
    ∀ cell ∈ cells.take n, cell.2 ≠ .null → FitsColumn schema cell.1 cell.2 := by
  induction h with
  | stop cells => simp
  | null rest ih =>
      rw [List.take_succ_cons, List.forall_mem_cons]
      exact ⟨fun hnull => absurd rfl hnull, ih⟩
  | field head rest ih =>
      rw [List.take_succ_cons, List.forall_mem_cons]
      exact ⟨fun _ => fieldRepr_fits head, ih⟩
  | inline hcolumn head rest ih =>
      rw [List.take_succ_cons, List.forall_mem_cons]
      exact ⟨fun _ => hcolumn, ih⟩
  | @run n columns bools order cells g f horder hcolumns hlength hne hmax head rest ih =>
      intro cell hcell
      rw [List.take_append] at hcell
      rcases List.mem_append.mp hcell with hcell | hcell
      · obtain ⟨hc, hv⟩ := List.of_mem_zip (List.mem_of_mem_take hcell)
        obtain ⟨b, -, hb⟩ := List.mem_map.mp hv
        intro _
        rw [← hb]
        exact hcolumns _ hc
      · apply ih
        simpa [hlength] using hcell

end Fields

section Rows

variable {schema : RowSchema} {bitmap : Bytes} {vs fs : List Value} {bools : List Bool} {i : Nat} {column : ColumnDef}

theorem merged_getElem {columns : List ColumnDef} {ps : List Bool}
    (h : Merged schema.booleanTail columns ps vs bools fs) (hi : columns[i]? = some column) :
    ∃ p v w, ps[i]? = some p ∧ vs[i]? = some v ∧ fs[i]? = some w ∧ (w ≠ .null ↔ p = true) ∧
      (w = v ∨ column.columnType = .boolean ∧ ∃ b, w = .boolean b) := by
  induction h generalizing i with
  | nil => simp at hi
  | @sidecar c b _ _ _ _ _ _ hcolumn _ ih =>
      cases i with
      | zero =>
          obtain rfl : c = column := by simpa using hi
          exact ⟨true, .null, .boolean b, rfl, rfl, rfl, by simp, .inr ⟨hcolumn, b, rfl⟩⟩
      | succ i => exact ih hi
  | @body c p v _ _ _ _ _ _ hv _ ih =>
      cases i with
      | zero => exact ⟨p, v, v, rfl, rfl, rfl, hv, .inl rfl⟩
      | succ i => exact ih hi

theorem merged_fits (h : Merged schema.booleanTail schema.columns (presenceFlags schema bitmap) vs bools fs) {k : Nat}
    {f : Bytes} (hfields : FieldsRepr schema k (schema.columns.zip vs) f) (hi : i < k)
    (hcolumn : schema.columns[i]? = some column) {value : Value} (hvalue : fs[i]? = some value) :
    FitsColumn schema column value := by
  obtain ⟨p, v, w, hp, hv, hw, hnull, hcase⟩ := merged_getElem h hcolumn
  obtain rfl : w = value := by simpa [hvalue] using hw.symm
  by_cases hnone : w = .null
  · subst hnone
    have hflag : p = false := by simpa using hnull
    rw [presenceFlags, List.getElem?_map, List.getElem?_zipIdx, hcolumn, Option.map_some, Option.map_some,
      Option.some.injEq, hflag, presenceFlag] at hp
    change column.nullable = true
    cases hnullable : column.nullable with
    | true => rfl
    | false =>
        rw [hnullable] at hp
        cases hp
  · rcases hcase with rfl | ⟨htype, b, rfl⟩
    · have hcell : (schema.columns.zip vs)[i]? = some (column, w) := List.getElem?_zip_eq_some.mpr ⟨hcolumn, hv⟩
      have hmem : (column, w) ∈ (schema.columns.zip vs).take k :=
        List.mem_of_getElem? (by rw [List.getElem?_take, if_pos hi, hcell])
      exact fieldsRepr_fits hfields _ hmem hnone
    · exact htype

theorem decodeRow_typed {input : Bytes} {r : DecodedRow} (h : decodeRow input schema = .ok r) :
    WellTyped schema r.values := by
  obtain ⟨-, -, vs, bools, fields, tail, hm, hfields, -⟩ := decodeRow_eq_ok_iff_body.mp h
  constructor
  · have hlength := hm.agrees.length_eq
    rw [length_presenceFlags] at hlength
    exact hlength.symm
  · intro i column value hcolumn hvalue
    exact merged_fits hm hfields (List.getElem?_eq_some_iff.mp hcolumn).1 hcolumn hvalue

theorem indices_increase {α : Type} (xs : List α) (k : Nat) (p : α × Nat → Bool) :
    (((xs.zipIdx.take k).filter p).map (·.2)).Pairwise (· < ·) := by
  have hsublist : (((xs.zipIdx.take k).filter p).map (·.2)).Sublist (xs.zipIdx.map (·.2)) :=
    ((List.filter_sublist).trans (List.take_sublist k _)).map _
  refine List.Pairwise.sublist hsublist ?_
  have hrange : xs.zipIdx.map (·.2) = List.range' 0 xs.length := List.zipIdx_map_snd 0 xs
  rw [hrange]
  exact List.pairwise_lt_range'

theorem prefixColumns_typed {k : Nat} {f : Bytes}
    (h : Merged schema.booleanTail schema.columns (presenceFlags schema bitmap) vs bools fs)
    (hfields : FieldsRepr schema k (schema.columns.zip vs) f) :
    ∀ entry ∈ prefixColumns schema k fs, EntryTyped schema entry ∧ entry.columnIndex < k := by
  intro entry hentry
  simp only [prefixColumns, List.mem_map, List.mem_filter, mem_zipIdx_take] at hentry
  obtain ⟨⟨⟨column, value⟩, i⟩, ⟨⟨hi, hcell⟩, -⟩, rfl⟩ := hentry
  obtain ⟨hcolumn, hvalue⟩ := List.getElem?_zip_eq_some.mp hcell
  exact ⟨⟨column, hcolumn, rfl, merged_fits h hfields hi hcolumn hvalue⟩, hi⟩

theorem booleanValues_typed {k : Nat} {f : Bytes}
    (h : Merged schema.booleanTail schema.columns (presenceFlags schema bitmap) vs bools fs)
    (hfields : FieldsRepr schema k (schema.columns.zip vs) f) :
    ∀ entry ∈ booleanValues schema k fs, EntryTyped schema entry ∧ ∃ b, entry.value = .boolean b := by
  intro entry hentry
  obtain ⟨b, hb⟩ := booleanValues_boolean h hfields entry hentry
  refine ⟨?_, b, hb⟩
  simp only [booleanValues, List.mem_map, List.mem_filter] at hentry
  obtain ⟨⟨⟨column, value⟩, i⟩, ⟨hmem, hboolean⟩, rfl⟩ := hentry
  have hmem' : ((column, value), i) ∈ (schema.columns.zip fs).zipIdx := by
    split at hmem
    · exact hmem
    · exact List.mem_of_mem_take hmem
  have hcell : (schema.columns.zip fs)[i]? = some (column, value) := List.mem_zipIdx_iff_getElem?.mp hmem'
  obtain ⟨htype, -⟩ : column.columnType = .boolean ∧ value ≠ .null := of_decide_eq_true hboolean
  obtain rfl : value = .boolean b := hb
  exact ⟨column, (List.getElem?_zip_eq_some.mp hcell).1, rfl, htype⟩

theorem prefixColumns_order (k : Nat) : ((prefixColumns schema k fs).map (·.columnIndex)).Pairwise (· < ·) := by
  rw [prefixColumns, List.map_map]
  exact indices_increase _ k _

theorem booleanValues_order (k : Nat) : ((booleanValues schema k fs).map (·.columnIndex)).Pairwise (· < ·) := by
  rw [booleanValues, List.map_map]
  split
  · have h := indices_increase (schema.columns.zip fs) (schema.columns.zip fs).zipIdx.length isBooleanCell
    rwa [List.take_length] at h
  · exact indices_increase _ k _

theorem decodeRowPrefix_typed {input : Bytes} {through : Nat} {q : PartialDecodedRow}
    (h : decodeRowPrefixAndBooleanTail input schema through = .ok q) : StageTyped schema through q := by
  obtain ⟨hpos, hle⟩ := ordinal_of_ok h
  obtain ⟨-, size, hv, hq⟩ := (decodeRowPrefix_eq_ok_iff hpos hle).mp h
  have hheader : headerLen schema ≤ (input.take size).length := hv.length_row.symm ▸ hv.fits
  obtain ⟨-, -, -, vs, bools, fs, fields, tail, hm, hfields, -, -, -, -, hpre, hbool⟩ :=
    ((prefixFrom_spec hle hheader).2 q).mp hq
  constructor
  · rw [hpre]
    exact prefixColumns_typed hm hfields
  · rw [hbool]
    exact booleanValues_typed hm hfields
  · rw [hpre]
    exact prefixColumns_order through
  · rw [hbool]
    exact booleanValues_order through

end Rows

/-- Whatever the bytes are, a decoder returns one value for each column, of the column's type and within its
width, and NULL for columns only that may be NULL; a stage returns such values in the order of their columns. -/
theorem decoded_values_typed (schema : RowSchema) (input : Bytes) :
    (∀ r, decodeRow input schema = .ok r → WellTyped schema r.values) ∧
    (∀ r, decodeRowExact input schema = .ok r → WellTyped schema r.values) ∧
    (∀ r, decodeMaterializedRowRecordExact input schema = .ok r → WellTyped schema r.values) ∧
    ∀ through q, decodeRowPrefixAndBooleanTail input schema through = .ok q → StageTyped schema through q := by
  refine ⟨fun r h => decodeRow_typed h, ?_, ?_, fun through q h => decodeRowPrefix_typed h⟩
  · intro r h
    exact decodeRow_typed (decodeRowExact_eq_ok_iff.mp h).1
  · intro r h
    obtain ⟨payload, -, hfits, hrow⟩ := decodeMaterialized_eq_ok_iff.mp h
    have hexact := (decodeRowExact_envelope_iff hfits).mpr hrow
    exact decodeRow_typed (decodeRowExact_eq_ok_iff.mp hexact).1

theorem decoded_values_typed_smallInt : WellTyped smallIntSchema [.integer 258] :=
  (decoded_values_typed smallIntSchema [5, 0, 0x80, 2, 1]).1 ⟨5, 5, 0, [.integer 258]⟩ (by decide)

end OpenSqlAny.RowTyping
