import OpenSqlAny.RowDecimals
import OpenSqlAny.StagedStability

namespace OpenSqlAny.RowCoefficients

open Library.Faults Library.CursorReader Library.IndexedLists Library.LittleEndian Library.DecimalText
open RowTypes RowDecoder RowGrammar RowLoop RowTail RowHeader RowSoundness RowDecimals
open StagedReading StagedSoundness StagedAgreement StagedStability

variable {schema : RowSchema} {input : Bytes}

theorem base100_eq_zero_iff (digits : Bytes) : base100 digits = 0 ↔ ∀ d ∈ digits, d = 0 := by
  have hfold (n : Nat) : digits.foldl (fun n d => 100 * n + d.toNat) n = 0 ↔ n = 0 ∧ ∀ d ∈ digits, d = 0 := by
    induction digits generalizing n with
    | nil => simp
    | cons d digits ih =>
        have hd : d = 0 ↔ d.toNat = 0 := UInt8.toNat_inj.symm
        have hsum : 100 * n + d.toNat = 0 ↔ n = 0 ∧ d.toNat = 0 := by omega
        rw [List.foldl_cons, ih, List.forall_mem_cons, hsum, hd, and_assoc]
  exact (hfold 0).trans (and_iff_right rfl)

/-- The exponent appends its zeros to a zero as well. -/
theorem canonical_legacyDecimal_iff (exponent : UInt8) (digits : Bytes) :
    Canonical (legacyDecimal exponent digits).coefficient ↔
      ¬(digits ≠ [] ∧ (∀ d ∈ digits, d = 0) ∧ 0xc0 < exponent) := by
  by_cases hne : digits = []
  · simp only [legacyDecimal, hne, ↓reduceIte]
    exact iff_of_true (canonical_toDigits _) (by simp)
  · have hexponent : exponent.toNat - 0xc0 = 0 ↔ ¬0xc0 < exponent := by
      rw [UInt8.lt_iff_toNat_lt]
      exact Nat.sub_eq_zero_iff_le.trans not_lt.symm
    have hzero : Nat.toDigits 10 (base100 digits) = ['0'] ↔ ∀ d ∈ digits, d = 0 := by
      rw [← base100_eq_zero_iff, ← (canonical_toDigits _).value_eq_zero_iff, Nat.ofDigitChars_ten_toDigits]
    simp only [legacyDecimal, hne, ↓reduceIte]
    rw [(canonical_toDigits _).append_zeros_iff, ne_eq, hzero, Nat.mul_eq_zero, hexponent]
    constructor
    · rintro ((htwo | hlow) | hsome) ⟨-, hall, hhigh⟩
      · cases htwo
      · exact hlow hhigh
      · exact hsome hall
    · intro hnot
      by_cases hall : ∀ d ∈ digits, d = 0
      · exact .inl (.inr fun hhigh => hnot ⟨hne, hall, hhigh⟩)
      · exact .inr hall

def FieldAt (schema : RowSchema) (input : Bytes) (i : Nat) (f : Bytes) : Prop :=
  ∃ vs before, Linked schema.booleanTail schema.columns (presenceFlags schema (bitmapOf schema input)) vs ∧
    FieldsRepr schema i (schema.columns.zip vs) before ∧ before ++ f <+: input.drop (headerLen schema)

/-- A present numeric column has a field of at least one digit, all of them
zero, with an exponent byte above 0xc0. -/
def ShiftedZeroAt (schema : RowSchema) (input : Bytes) (i : Nat) : Prop :=
  (∃ column, schema.columns[i]? = some column ∧ column.columnType = .numeric) ∧
  (presenceFlags schema (bitmapOf schema input))[i]? = some true ∧
  ∃ (exponent : UInt8) (n : Nat), 0 < n ∧ n < 256 ∧ 0xc0 < exponent ∧
    FieldAt schema input i (UInt8.ofNat n :: exponent :: List.replicate n 0)

theorem prefix_behind {g' before g f : Bytes} (h : before ++ g <+: f) : (g' ++ before) ++ g <+: g' ++ f := by
  rw [List.append_assoc]
  exact (List.prefix_append_right_inj _).mpr h

theorem fieldsRepr_field {n : Nat} {cells : List Cell} {f : Bytes} (h : FieldsRepr schema n cells f) {i : Nat}
    (hi : i < n) {column : ColumnDef} {value : Value} (hcell : cells[i]? = some (column, value))
    (hcolumn : column.columnType ≠ .boolean) (hvalue : value ≠ .null) :
    ∃ before g, FieldsRepr schema i cells before ∧ FieldRepr schema column value g ∧ before ++ g <+: f := by
  induction h generalizing i with
  | stop cells => omega
  | null rest ih =>
      cases i with
      | zero =>
          obtain ⟨rfl, rfl⟩ : _ ∧ _ := by simpa using hcell
          exact absurd rfl hvalue
      | succ i =>
          obtain ⟨before, g, hbefore, hg, hpre⟩ := ih (Nat.lt_of_succ_lt_succ hi) hcell
          exact ⟨before, g, .null hbefore, hg, hpre⟩
  | @field n column' value' cells g' f head rest ih =>
      cases i with
      | zero =>
          obtain ⟨rfl, rfl⟩ : _ ∧ _ := by simpa using hcell
          exact ⟨[], g', .stop _, head, List.prefix_append _ _⟩
      | succ i =>
          obtain ⟨before, g, hbefore, hg, hpre⟩ := ih (Nat.lt_of_succ_lt_succ hi) hcell
          exact ⟨g' ++ before, g, .field head hbefore, hg, prefix_behind hpre⟩
  | @inline n column' b cells g' f hboolean head rest ih =>
      cases i with
      | zero =>
          obtain ⟨rfl, rfl⟩ : _ ∧ _ := by simpa using hcell
          exact absurd hboolean hcolumn
      | succ i =>
          obtain ⟨before, g, hbefore, hg, hpre⟩ := ih (Nat.lt_of_succ_lt_succ hi) hcell
          exact ⟨g' ++ before, g, .inline hboolean head hbefore, hg, prefix_behind hpre⟩
  | @run n columns bools order cells g' f horder hcolumns hlength hne hmax head rest ih =>
      have hzip : (columns.zip (bools.map Value.boolean)).length = bools.length := by simp [hlength]
      have hpos : 0 < bools.length := List.length_pos_iff.mpr hne
      by_cases hin : i < bools.length
      · rw [List.getElem?_append_left (hzip.symm ▸ hin)] at hcell
        exact absurd (hcolumns _ (List.of_mem_zip (List.mem_of_getElem? hcell)).1) hcolumn
      · rw [List.getElem?_append_right (by omega), hzip] at hcell
        obtain ⟨before, g, hbefore, hg, hpre⟩ := ih (by omega) hcell
        obtain ⟨i, rfl⟩ : ∃ j, i = j + 1 := ⟨i - 1, by omega⟩
        exact ⟨g' ++ before, g, .run horder hcolumns hlength hne hmax head hbefore, hg, prefix_behind hpre⟩

theorem fields_unique {i : Nat} (hi : i ≤ schema.columns.length) (hheader : headerLen schema ≤ input.length)
    {vs vs' : List Value} {f f' : Bytes}
    (hvs : Linked schema.booleanTail schema.columns (presenceFlags schema (bitmapOf schema input)) vs)
    (hvs' : Linked schema.booleanTail schema.columns (presenceFlags schema (bitmapOf schema input)) vs')
    (hf : FieldsRepr schema i (schema.columns.zip vs) f) (hf' : FieldsRepr schema i (schema.columns.zip vs') f')
    (hpre : f <+: input.drop (headerLen schema)) (hpre' : f' <+: input.drop (headerLen schema)) : f = f' := by
  have hlen := @length_presenceFlags schema (bitmapOf schema input)
  have hok := (@decodePrefixColumns_reads input schema _ i input.length hlen hi le_rfl fun _ => rfl).ok_iff hheader
  have hread := (hok _ _).mpr ⟨f, ⟨vs, hvs, hf, rfl⟩, hpre, rfl, prefix_end_le hheader hpre⟩
  have hread' := (hok _ _).mpr ⟨f', ⟨vs', hvs', hf', rfl⟩, hpre', rfl, prefix_end_le hheader hpre'⟩
  rw [hread] at hread'
  have hcursor := (EStateM.Result.ok.inj hread').2
  rw [List.prefix_iff_eq_take] at hpre hpre'
  rw [hpre, hpre', show f.length = f'.length by omega]

theorem token_unique {marker marker' : UInt8} {digits digits' f f' xs : Bytes} (h : NumericToken marker digits f)
    (h' : NumericToken marker' digits' f') (hf : f <+: xs) (hf' : f' <+: xs) :
    marker = marker' ∧ digits = digits' := by
  obtain ⟨hlt, -, rfl⟩ := h
  obtain ⟨hlt', -, rfl⟩ := h'
  obtain ⟨rest, rfl⟩ := hf
  obtain ⟨hcount, hmarker, hdigits⟩ : _ ∧ _ ∧ digits' <+: digits ++ rest := by
    simpa only [List.cons_append, List.cons_prefix_cons] using hf'
  have hlength := congrArg UInt8.toNat hcount
  rw [UInt8.toNat_ofNat', UInt8.toNat_ofNat', Nat.mod_eq_of_lt hlt, Nat.mod_eq_of_lt hlt'] at hlength
  refine ⟨hmarker.symm, ?_⟩
  rw [List.prefix_iff_eq_take.mp hdigits, hlength, List.take_left]

theorem linked_getElem {columns : List ColumnDef} {ps : List Bool} {vs : List Value}
    (h : Linked schema.booleanTail columns ps vs) {i : Nat} {column : ColumnDef} (hi : columns[i]? = some column) :
    ∃ p v, ps[i]? = some p ∧ vs[i]? = some v ∧ (v ≠ .null ↔ inBody schema.booleanTail column p = true) := by
  induction h generalizing i with
  | nil => simp at hi
  | cons head tail ih =>
      cases i with
      | zero =>
          obtain rfl : _ = column := by simpa using hi
          exact ⟨_, _, rfl, rfl, head⟩
      | succ i => exact ih hi

theorem fieldRepr_decimal {column : ColumnDef} {d : Decimal} {g : Bytes}
    (h : FieldRepr schema column (.decimal d) g) :
    column.columnType = .numeric ∧ ∃ marker digits, NumericToken marker digits g ∧ d = legacyDecimal marker digits := by
  cases hc : column.columnType <;> simp only [FieldRepr, hc] at h
  case numeric =>
    obtain ⟨marker, digits, htoken, hvalue⟩ := h
    cases hl : schema.numericLayout with
    | legacyForward =>
        rw [hl] at hvalue
        exact ⟨rfl, marker, digits, htoken, Value.decimal.inj hvalue⟩
    | enterpriseMaterializedRaw =>
        rw [hl] at hvalue
        cases hvalue
  case char | char2 | text | text2 => cases h
  all_goals simp at h

theorem decimal_column {k i : Nat} {vs : List Value} {fields : Bytes} {column : ColumnDef} {d : Decimal}
    (hfields : FieldsRepr schema k (schema.columns.zip vs) fields) (hi : i < k)
    (hcolumn : schema.columns[i]? = some column) (hd : vs[i]? = some (.decimal d)) : column.columnType ≠ .boolean := by
  intro htype
  have hcell : (schema.columns.zip vs)[i]? = some (column, .decimal d) :=
    List.getElem?_zip_eq_some.mpr ⟨hcolumn, hd⟩
  have hmem : (column, .decimal d) ∈ (schema.columns.zip vs).take k :=
    List.mem_of_getElem? (by rw [List.getElem?_take, if_pos hi, hcell])
  obtain hnone | ⟨b, hb⟩ := fieldsRepr_booleanTyped hfields _ hmem htype
  · cases hnone
  · cases hb

/-- The columns that a stage has read, and the bytes of their fields. -/
structure Staged (schema : RowSchema) (input : Bytes) (k : Nat) (vs : List Value) (fields : Bytes) : Prop where
  le_columns : k ≤ schema.columns.length
  header_fits : headerLen schema ≤ input.length
  linked : Linked schema.booleanTail schema.columns (presenceFlags schema (bitmapOf schema input)) vs
  repr : FieldsRepr schema k (schema.columns.zip vs) fields
  begins : fields <+: input.drop (headerLen schema)

section Stages

variable {k i : Nat} {vs : List Value} {fields : Bytes} {column : ColumnDef}

theorem Staged.field (h : Staged schema input k vs fields) (hi : i < k) {v : Value}
    (hcolumn : schema.columns[i]? = some column) (hv : vs[i]? = some v) (hboolean : column.columnType ≠ .boolean)
    (hnull : v ≠ .null) : ∃ before g, FieldsRepr schema i (schema.columns.zip vs) before ∧
      FieldRepr schema column v g ∧ before ++ g <+: input.drop (headerLen schema) := by
  have hcell : (schema.columns.zip vs)[i]? = some (column, v) := List.getElem?_zip_eq_some.mpr ⟨hcolumn, hv⟩
  obtain ⟨before, g, hbefore, hg, hpre⟩ := fieldsRepr_field h.repr hi hcell hboolean hnull
  exact ⟨before, g, hbefore, hg, hpre.trans h.begins⟩

theorem zeros_token {exponent : UInt8} {n : Nat} (h : n < 256) :
    NumericToken exponent (List.replicate n 0) (UInt8.ofNat n :: exponent :: List.replicate n 0) := by
  refine ⟨by rwa [List.length_replicate], ?_, by rw [List.length_replicate]⟩
  intro d hd
  rw [List.eq_of_mem_replicate hd]
  decide

theorem Staged.numeric (h : Staged schema input k vs fields) (hlayout : schema.numericLayout = .legacyForward)
    (hi : i < k) (hcolumn : schema.columns[i]? = some column) (htype : column.columnType = .numeric)
    (hpresent : (presenceFlags schema (bitmapOf schema input))[i]? = some true) {exponent : UInt8} {n : Nat}
    (hn : n < 256) (hat : FieldAt schema input i (UInt8.ofNat n :: exponent :: List.replicate n 0)) :
    vs[i]? = some (.decimal (legacyDecimal exponent (List.replicate n 0))) := by
  obtain ⟨vs', before', hvs', hbefore', hat⟩ := hat
  obtain ⟨p, v, hp, hv, hnull⟩ := linked_getElem h.linked hcolumn
  obtain rfl : p = true := by simpa [hpresent] using hp.symm
  have hboolean : column.columnType ≠ .boolean := by simp [htype]
  obtain ⟨before, g, hbefore, hg, hpre⟩ := h.field hi hcolumn hv hboolean (hnull.mpr (by simp [inBody, htype]))
  rw [prefix_append_iff] at hpre hat
  obtain rfl := fields_unique (hi.le.trans h.le_columns) h.header_fits h.linked hvs' hbefore hbefore' hpre.1 hat.1
  obtain ⟨marker, digits, htoken, hvalue⟩ : NumericRepr schema.numericLayout v g := by
    simpa only [FieldRepr, htype] using hg
  rw [hlayout] at hvalue
  obtain ⟨rfl, rfl⟩ := token_unique htoken (zeros_token hn) hpre.2 hat.2
  rw [hv, hvalue]

theorem Staged.decimal (h : Staged schema input k vs fields) (hi : i < k) {d : Decimal}
    (hd : vs[i]? = some (.decimal d)) :
    (∃ column, schema.columns[i]? = some column ∧ column.columnType = .numeric) ∧
      (presenceFlags schema (bitmapOf schema input))[i]? = some true ∧
      ∃ exponent digits, digits.length < 256 ∧ d = legacyDecimal exponent digits ∧
        FieldAt schema input i (UInt8.ofNat digits.length :: exponent :: digits) := by
  obtain ⟨column, hcolumn⟩ : ∃ column, schema.columns[i]? = some column :=
    ⟨_, List.getElem?_eq_getElem (hi.trans_le h.le_columns)⟩
  obtain ⟨p, v, hp, hv, hnull⟩ := linked_getElem h.linked hcolumn
  obtain rfl : v = .decimal d := by simpa [hd] using hv.symm
  have hbody : inBody schema.booleanTail column p = true := hnull.mp (by simp)
  obtain rfl : p = true := by
    rw [inBody, Bool.and_eq_true] at hbody
    exact hbody.1
  obtain ⟨before, g, hbefore, hg, hpre⟩ := h.field hi hcolumn hd (decimal_column h.repr hi hcolumn hd) (by simp)
  obtain ⟨htype, marker, digits, ⟨hlt, -, rfl⟩, rfl⟩ := fieldRepr_decimal hg
  exact ⟨⟨column, hcolumn, htype⟩, hp, marker, digits, hlt, rfl, vs, before, h.linked, hbefore, hpre⟩

theorem Staged.canonical_iff (h : Staged schema input k vs fields) (hlayout : schema.numericLayout = .legacyForward) :
    (∀ i < k, ∀ d, vs[i]? = some (.decimal d) → Canonical d.coefficient) ↔ ∀ i < k, ¬ShiftedZeroAt schema input i := by
  constructor
  · rintro hall i hi ⟨⟨column, hcolumn, htype⟩, hpresent, exponent, n, hpos, hlt, hexponent, hat⟩
    have hd := h.numeric hlayout hi hcolumn htype hpresent hlt hat
    refine (canonical_legacyDecimal_iff _ _).mp (hall i hi _ hd) ⟨?_, ?_, hexponent⟩
    · exact List.ne_nil_of_length_pos (by rwa [List.length_replicate])
    · exact fun d hd => List.eq_of_mem_replicate hd
  · intro hall i hi d hd
    obtain ⟨hcolumn, hpresent, exponent, digits, hlt, rfl, hat⟩ := h.decimal hi hd
    rw [canonical_legacyDecimal_iff]
    rintro ⟨hne, hzero, hexponent⟩
    have hdigits : digits = List.replicate digits.length 0 := List.eq_replicate_of_mem hzero
    refine hall i hi ⟨hcolumn, hpresent, exponent, digits.length, List.length_pos_iff.mpr hne, hlt, hexponent, ?_⟩
    rw [← hdigits]
    exact hat

end Stages

theorem merged_decimal_iff {layout : BooleanTailLayout} {columns : List ColumnDef} {ps bools : List Bool}
    {vs fs : List Value} (h : Merged layout columns ps vs bools fs) (i : Nat) (d : Decimal) :
    fs[i]? = some (.decimal d) ↔ vs[i]? = some (.decimal d) := by
  induction h generalizing i with
  | nil => rfl
  | sidecar _ _ _ ih =>
      cases i with
      | zero => simp
      | succ i => exact ih i
  | body _ _ _ ih =>
      cases i with
      | zero => rfl
      | succ i => exact ih i

theorem bitmapOf_take {size : Nat} (h : headerLen schema ≤ size) :
    bitmapOf schema (input.take size) = bitmapOf schema input := by
  rw [bitmapOf, bitmapOf, List.take_take, Nat.min_eq_left h]

theorem decodeRow_canonical_iff (hlayout : schema.numericLayout = .legacyForward) {r : DecodedRow}
    (h : decodeRow input schema = .ok r) :
    (∀ d, .decimal d ∈ r.values → Canonical d.coefficient) ↔ ∀ i, ¬ShiftedZeroAt schema input i := by
  obtain ⟨hv, -, vs, bools, fields, tail, hm, hfields, -, hbegins, -⟩ := decodeRow_eq_ok_iff_body.mp h
  rw [bitmapOf_take hv.fits] at hm
  have hbefore : fields <+: input.drop (headerLen schema) := by
    have hdrop : (input.take r.declaredSize).drop (headerLen schema) <+: input.drop (headerLen schema) := by
      rw [List.drop_take]
      exact List.take_prefix _ _
    exact (List.prefix_append fields tail).trans (hbegins.trans hdrop)
  have hstaged : Staged schema input schema.columns.length vs fields :=
    ⟨le_rfl, hv.fits.trans hv.size_le, hm.linked, hfields, hbefore⟩
  have hiff := hstaged.canonical_iff hlayout
  have hcolumns : ∀ i, ShiftedZeroAt schema input i → i < schema.columns.length := by
    rintro i ⟨⟨column, hcolumn, -⟩, -⟩
    exact (List.getElem?_eq_some_iff.mp hcolumn).1
  constructor
  · intro hall i hi
    refine hiff.mp ?_ i (hcolumns i hi) hi
    intro j _ d hd
    exact hall d (List.mem_of_getElem? ((merged_decimal_iff hm j d).mpr hd))
  · intro hnone d hd
    obtain ⟨i, hi⟩ := List.getElem?_of_mem hd
    have hlt : i < schema.columns.length := by
      have hlength := hm.agrees.length_eq
      rw [length_presenceFlags] at hlength
      rw [hlength]
      exact (List.getElem?_eq_some_iff.mp hi).1
    exact hiff.mpr (fun j _ => hnone j) i hlt d ((merged_decimal_iff hm i d).mp hi)

theorem mem_zipIdx_take {α : Type} {xs : List α} {k : Nat} {entry : α × Nat} :
    entry ∈ xs.zipIdx.take k ↔ entry.2 < k ∧ xs[entry.2]? = some entry.1 := by
  rw [take_zipIdx, List.mem_zipIdx_iff_getElem?, List.getElem?_take]
  split
  next h => simp [h]
  next h => simp [h]

theorem mem_prefixColumns_iff {k : Nat} {fs : List Value} {v : Value} :
    (∃ entry ∈ prefixColumns schema k fs, entry.value = v) ↔
      ∃ i < k, ∃ column, schema.columns[i]? = some column ∧ column.columnType ≠ .boolean ∧ fs[i]? = some v := by
  simp only [prefixColumns, List.mem_map, List.mem_filter, mem_zipIdx_take, isFieldCell, decide_eq_true_eq]
  constructor
  · rintro ⟨_, ⟨⟨⟨column, value⟩, i⟩, ⟨⟨hi, hcell⟩, htype⟩, rfl⟩, rfl⟩
    obtain ⟨hcolumn, hvalue⟩ := List.getElem?_zip_eq_some.mp hcell
    exact ⟨i, hi, column, hcolumn, htype, hvalue⟩
  · rintro ⟨i, hi, column, hcolumn, htype, hvalue⟩
    exact ⟨_, ⟨((column, v), i), ⟨⟨hi, List.getElem?_zip_eq_some.mpr ⟨hcolumn, hvalue⟩⟩, htype⟩, rfl⟩, rfl⟩

theorem booleanValues_boolean {k : Nat} {ps bools : List Bool} {vs fs : List Value} {fields : Bytes}
    (hm : Merged schema.booleanTail schema.columns ps vs bools fs)
    (hfields : FieldsRepr schema k (schema.columns.zip vs) fields) :
    ∀ entry ∈ booleanValues schema k fs, ∃ b, entry.value = .boolean b := by
  intro entry hentry
  simp only [booleanValues, List.mem_map, List.mem_filter] at hentry
  obtain ⟨⟨cell, i⟩, ⟨hmem, hboolean⟩, rfl⟩ := hentry
  have hpresent : isPresentBoolean cell = true := hboolean
  cases hl : hasTail schema.booleanTail with
  | true =>
      rw [if_pos hl] at hmem
      have hcell := List.mem_of_getElem? (List.mem_zipIdx_iff_getElem?.mp hmem)
      have hvalue : cell.2 ∈ presentBooleans (schema.columns.zip fs) :=
        List.mem_map.mpr ⟨cell, List.mem_filter.mpr ⟨hcell, hpresent⟩, rfl⟩
      have hbooleans := hm.booleans
      rw [if_pos hl] at hbooleans
      rw [hbooleans] at hvalue
      obtain ⟨b, -, hb⟩ := List.mem_map.mp hvalue
      exact ⟨b, hb.symm⟩
  | false =>
      rw [if_neg (by simp [hl]), ← merged_eq_of_inline hm hl] at hmem
      obtain ⟨htype, hne⟩ : cell.1.columnType = .boolean ∧ cell.2 ≠ .null := of_decide_eq_true hpresent
      obtain ⟨hi, hcell⟩ := mem_zipIdx_take.mp hmem
      have htake : cell ∈ (schema.columns.zip vs).take k :=
        List.mem_of_getElem? (by rw [List.getElem?_take, if_pos hi, hcell])
      exact (fieldsRepr_booleanTyped hfields cell htake htype).resolve_left hne

theorem decodeRowPrefix_canonical_iff (hlayout : schema.numericLayout = .legacyForward) {through : Nat}
    {q : PartialDecodedRow} (h : decodeRowPrefixAndBooleanTail input schema through = .ok q) :
    (∀ entry ∈ q.prefixValues ++ q.booleanValues, ∀ d, entry.value = .decimal d → Canonical d.coefficient) ↔
      ∀ i < through, ¬ShiftedZeroAt schema input i := by
  obtain ⟨hpos, hle⟩ := ordinal_of_ok h
  obtain ⟨-, size, hv, hq⟩ := (decodeRowPrefix_eq_ok_iff hpos hle).mp h
  have hheader : headerLen schema ≤ (input.take size).length := hv.length_row.symm ▸ hv.fits
  obtain ⟨-, -, -, vs, bools, fs, fields, tail, hm, hfields, -, hbegins, -, -, hpre, hbool⟩ :=
    ((prefixFrom_spec hle hheader).2 q).mp hq
  rw [bitmapOf_take hv.fits] at hm
  have hbefore : fields <+: input.drop (headerLen schema) := by
    refine hbegins.trans ?_
    rw [List.drop_take]
    exact List.take_prefix _ _
  have hstaged : Staged schema input through vs fields :=
    ⟨hle, hv.fits.trans hv.size_le, hm.linked, hfields, hbefore⟩
  rw [← hstaged.canonical_iff hlayout, hpre, hbool]
  constructor
  · intro hall i hi d hd
    have hcolumn := List.getElem?_eq_getElem (hi.trans_le hle)
    obtain ⟨entry, hentry, hvalue⟩ := mem_prefixColumns_iff.mpr
      ⟨i, hi, _, hcolumn, decimal_column hfields hi hcolumn hd, (merged_decimal_iff hm i d).mpr hd⟩
    exact hall entry (List.mem_append_left _ hentry) d hvalue
  · intro hall entry hentry d hd
    obtain hentry | hentry := List.mem_append.mp hentry
    · obtain ⟨i, hi, -, -, -, hvalue⟩ := mem_prefixColumns_iff.mp ⟨entry, hentry, hd⟩
      exact hall i hi d ((merged_decimal_iff hm i d).mp hvalue)
    · obtain ⟨b, hb⟩ := booleanValues_boolean hm hfields entry hentry
      rw [hd] at hb
      cases hb

/-- The coefficients that the decoders return are canonical except where a
zero with digits is shifted left. -/
theorem decoded_coefficients_canonical_iff (schema : RowSchema) (hlayout : schema.numericLayout = .legacyForward)
    (input : Bytes) :
    (∀ r, decodeRow input schema = .ok r →
      ((∀ d, .decimal d ∈ r.values → Canonical d.coefficient) ↔ ∀ i, ¬ShiftedZeroAt schema input i)) ∧
    (∀ r, decodeRowExact input schema = .ok r →
      ((∀ d, .decimal d ∈ r.values → Canonical d.coefficient) ↔ ∀ i, ¬ShiftedZeroAt schema input i)) ∧
    ∀ through q, decodeRowPrefixAndBooleanTail input schema through = .ok q →
      ((∀ entry ∈ q.prefixValues ++ q.booleanValues, ∀ d, entry.value = .decimal d → Canonical d.coefficient) ↔
        ∀ i < through, ¬ShiftedZeroAt schema input i) :=
  ⟨fun _ h => decodeRow_canonical_iff hlayout h,
    fun _ h => decodeRow_canonical_iff hlayout (decodeRowExact_eq_ok_iff.mp h).1,
    fun _ _ h => decodeRowPrefix_canonical_iff hlayout h⟩

def numericSchema : RowSchema := { columns := [⟨1, .numeric, 10, false⟩] }

theorem not_canonical_zeros : ¬Canonical ['0', '0', '0'] := by
  intro h
  obtain hzero | hlead := h.leading
  · cases hzero
  · exact hlead rfl

theorem canonical_zero : Canonical ['0'] := ⟨by decide, by decide, .inl rfl⟩

theorem decoded_coefficients_canonical_iff_zero :
    (¬∀ i, ¬ShiftedZeroAt numericSchema [5, 0, 1, 0xc1, 0] i) ∧
      (∀ i, ¬ShiftedZeroAt numericSchema [5, 0, 1, 0xc0, 0] i) ∧
      ∀ i < 1, ¬ShiftedZeroAt numericSchema [5, 0, 1, 0xc0, 0] i := by
  refine ⟨?_, ?_, ?_⟩
  · rw [← (decoded_coefficients_canonical_iff numericSchema rfl [5, 0, 1, 0xc1, 0]).1
      ⟨5, 5, 0, [.decimal ⟨false, ['0', '0', '0'], 0⟩]⟩ (by decide)]
    exact fun hall => not_canonical_zeros (hall ⟨false, ['0', '0', '0'], 0⟩ (by simp))
  · rw [← (decoded_coefficients_canonical_iff numericSchema rfl [5, 0, 1, 0xc0, 0]).2.1
      ⟨5, 5, 0, [.decimal ⟨false, ['0'], 0⟩]⟩ (by decide)]
    intro d hd
    obtain rfl : d = ⟨false, ['0'], 0⟩ := by simpa using hd
    exact canonical_zero
  · rw [← (decoded_coefficients_canonical_iff numericSchema rfl [5, 0, 1, 0xc0, 0]).2.2 1
      ⟨5, 0, 1, [⟨0, 1, .decimal ⟨false, ['0'], 0⟩⟩], [], 0⟩ (by decide)]
    intro entry hentry d hd
    obtain rfl : entry = ⟨0, 1, .decimal ⟨false, ['0'], 0⟩⟩ := by simpa using hentry
    obtain rfl := Value.decimal.inj hd
    exact canonical_zero

/-- A zero digit with the exponent byte 0xc1 is decoded as `000`. -/
theorem decodeRow_shiftedZero :
    ¬∀ (schema : RowSchema) (input : Bytes) (r : DecodedRow), schema.numericLayout = .legacyForward →
      decodeRow input schema = .ok r → ∀ d, .decimal d ∈ r.values → Canonical d.coefficient := by
  intro hall
  exact not_canonical_zeros (hall numericSchema [5, 0, 1, 0xc1, 0]
    ⟨5, 5, 0, [.decimal ⟨false, ['0', '0', '0'], 0⟩]⟩ rfl (by decide) ⟨false, ['0', '0', '0'], 0⟩ (by simp))

end OpenSqlAny.RowCoefficients
