import OpenSqlAny.RowSoundness

namespace OpenSqlAny.RowLayouts

open Library.Faults Library.LittleEndian Library.PackedBits
open RowTypes RowDecoder RowGrammar RowFields RowLoop RowTail RowHeader RowSoundness

def under (schema : RowSchema) (layout : BooleanTailLayout) : RowSchema := { schema with booleanTail := layout }

/-- All Boolean columns follow all others. -/
def BooleansLast (columns : List ColumnDef) : Prop :=
  columns.Pairwise fun before after => before.columnType = .boolean → after.columnType = .boolean

instance (columns : List ColumnDef) : Decidable (BooleansLast columns) :=
  inferInstanceAs (Decidable (List.Pairwise _ columns))

/-- The present Boolean columns are those of an interval. -/
def Consecutive (schema : RowSchema) (present : List Bool) : Prop :=
  ∃ a b, ∀ i, IsBoolean schema present i ↔ a ≤ i ∧ i < b

section Cells

variable {schema : RowSchema} {layout tailed inlined : BooleanTailLayout} {cells : List Cell} {f : Bytes}

theorem fieldRepr_under {column : ColumnDef} {value : Value} :
    FieldRepr (under schema layout) column value f ↔ FieldRepr schema column value f := by
  constructor
  · exact SameFields.fieldRepr ⟨rfl, rfl, rfl, rfl⟩
  · exact SameFields.fieldRepr ⟨rfl, rfl, rfl, rfl⟩

theorem cellRepr_null_iff {column : ColumnDef} : CellRepr schema column .null f ↔ f = [] := by
  constructor
  · intro h
    rcases h with ⟨-, rfl⟩ | h | ⟨-, b, h, -⟩
    · rfl
    · exact absurd rfl (fieldRepr_ne_null h)
    · cases h
  · intro h
    exact .inl ⟨rfl, h⟩

theorem cellRepr_boolean_iff {column : ColumnDef} {value : Value} (hcolumn : column.columnType = .boolean)
    (hvalue : value ≠ .null) :
    CellRepr schema column value f ↔ ∃ b, value = .boolean b ∧ inlineBoolean schema.booleanTail b = some f := by
  constructor
  · intro h
    rcases h with ⟨h, -⟩ | h | ⟨-, h⟩
    · exact absurd h hvalue
    · exact absurd hcolumn (fieldRepr_not_boolean h)
    · exact h
  · intro h
    exact .inr (.inr ⟨hcolumn, h⟩)

theorem cellRepr_field_iff {column : ColumnDef} {value : Value} (hcolumn : column.columnType ≠ .boolean) :
    CellRepr (under schema layout) column value f ↔ CellRepr schema column value f := by
  rw [CellRepr, CellRepr, fieldRepr_under]
  simp [hcolumn]

theorem fieldsRepr_null_iff {n : Nat} {column : ColumnDef} :
    FieldsRepr schema (n + 1) ((column, .null) :: cells) f ↔ FieldsRepr schema n cells f := by
  rw [fieldsRepr_cell_iff (.inr (.inr rfl))]
  simp [cellRepr_null_iff]

theorem fieldsRepr_nulls_iff (h : ∀ cell ∈ cells, cell.2 = .null) :
    FieldsRepr schema cells.length cells f ↔ f = [] := by
  induction cells generalizing f with
  | nil => exact fieldsRepr_zero_iff
  | cons cell cells ih =>
      obtain ⟨column, value⟩ := cell
      obtain ⟨rfl, hcells⟩ := List.forall_mem_cons.mp h
      rw [List.length_cons, fieldsRepr_null_iff, ih hcells]

theorem bodyCells_inline (h : hasTail layout = false) : bodyCells layout cells = cells := by
  rw [bodyCells]
  have hvalue : ∀ cell : Cell, (cell.1, bodyValue layout cell) = cell := by
    intro cell
    rw [bodyValue, if_neg (by simp [h])]
  simp only [hvalue, List.map_id']

theorem isPresentBoolean_of {column : ColumnDef} {value : Value} (hcolumn : column.columnType = .boolean)
    (hvalue : value ≠ .null) : isPresentBoolean (column, value) = true := by
  simp [isPresentBoolean, hcolumn, hvalue]

theorem isPresentBoolean_null (column : ColumnDef) : isPresentBoolean (column, .null) = false := by
  simp [isPresentBoolean]

theorem presentBooleans_cons_of_neg {cell : Cell} (h : isPresentBoolean cell = false) :
    presentBooleans (cell :: cells) = presentBooleans cells := by
  rw [presentBooleans, List.filter_cons_of_neg (by simp [h]), presentBooleans]

theorem presentBooleans_cons_of_pos {cell : Cell} (h : isPresentBoolean cell = true) :
    presentBooleans (cell :: cells) = cell.2 :: presentBooleans cells := by
  rw [presentBooleans, List.filter_cons_of_pos h, List.map_cons, presentBooleans]

theorem tailRepr_cons_of_neg {cell : Cell} (h : isPresentBoolean cell = false) :
    TailRepr layout (cell :: cells) f ↔ TailRepr layout cells f := by
  cases layout with
  | bytes | packedMsbFirst => rw [TailRepr, TailRepr, presentBooleans_cons_of_neg h]
  | _ => exact Iff.rfl

theorem packs_nil_iff {order : BitOrder} : Packs order [] f ↔ f = [] := by
  rw [Packs]
  constructor
  · intro h
    exact List.length_eq_zero_iff.mp h.1
  · intro h
    rw [h]
    exact ⟨rfl, fun i hi => absurd hi (Nat.not_lt_zero i)⟩

theorem tailRepr_nil_iff : TailRepr layout [] f ↔ f = [] := by
  have hnone : ∀ bools : List Bool, presentBooleans [] = bools.map Value.boolean ↔ bools = [] := by
    intro bools
    rw [presentBooleans, List.filter_nil, List.map_nil, eq_comm, List.map_eq_nil_iff]
  cases layout with
  | bytes => simp [TailRepr, hnone]
  | packedMsbFirst => simp [TailRepr, hnone, packs_nil_iff]
  | inlineBytes | inlineU16Le | inlinePackedRunsMsbFirst | inlinePackedRunsLsbFirst => exact Iff.rfl

def BodyRepr (schema : RowSchema) (cells : List Cell) (f : Bytes) : Prop :=
  ∃ fields tail, f = fields ++ tail ∧
    FieldsRepr schema cells.length (bodyCells schema.booleanTail cells) fields ∧
    TailRepr schema.booleanTail cells tail

theorem bodyRepr_inline_iff (h : hasTail inlined = false) :
    BodyRepr (under schema inlined) cells f ↔ FieldsRepr (under schema inlined) cells.length cells f := by
  simp only [BodyRepr, under, tailRepr_inline_iff h, bodyCells_inline h]
  simp

theorem bodyRepr_booleans_iff (htailed : hasTail tailed = true) (h : ∀ cell ∈ cells, cell.1.columnType = .boolean) :
    BodyRepr (under schema tailed) cells f ↔ TailRepr tailed cells f := by
  have hnull : ∀ cell ∈ bodyCells tailed cells, cell.2 = .null := by
    intro _ hmem
    obtain ⟨cell, hcell, rfl⟩ := List.mem_map.mp hmem
    exact if_pos ⟨htailed, h cell hcell⟩
  have hfields : ∀ g, FieldsRepr (under schema tailed) cells.length (bodyCells tailed cells) g ↔ g = [] := by
    intro g
    rw [← fieldsRepr_nulls_iff hnull, bodyCells, List.length_map]
  simp only [BodyRepr, under] at hfields ⊢
  simp [hfields]

theorem bodyRepr_field_iff {column : ColumnDef} {value : Value} (hcolumn : column.columnType ≠ .boolean) :
    BodyRepr (under schema layout) ((column, value) :: cells) f ↔
      ∃ g k, CellRepr schema column value g ∧ BodyRepr (under schema layout) cells k ∧ f = g ++ k := by
  have hcell : bodyCells layout ((column, value) :: cells) = (column, value) :: bodyCells layout cells := by
    rw [bodyCells, List.map_cons, bodyValue, if_neg (by simp [hcolumn]), bodyCells]
  have htail : ∀ tail, TailRepr layout ((column, value) :: cells) tail ↔ TailRepr layout cells tail := by
    intro tail
    exact tailRepr_cons_of_neg (by simp [isPresentBoolean, hcolumn])
  have hfields : ∀ g, FieldsRepr (under schema layout) (cells.length + 1) ((column, value) :: bodyCells layout cells) g ↔
      ∃ h k, CellRepr schema column value h ∧ FieldsRepr (under schema layout) cells.length (bodyCells layout cells) k ∧
        g = h ++ k := by
    intro g
    rw [fieldsRepr_cell_iff (.inr (.inl hcolumn))]
    simp only [cellRepr_field_iff hcolumn]
  constructor
  · intro h
    obtain ⟨fields, tail, hf, hbody, ht⟩ := h
    obtain ⟨g, k, hg, hk, rfl⟩ := (hfields _).mp (hcell ▸ hbody)
    exact ⟨g, k ++ tail, hg, ⟨k, tail, rfl, hk, (htail tail).mp ht⟩, by rw [hf, List.append_assoc]⟩
  · intro h
    obtain ⟨g, _, hg, ⟨k, tail, rfl, hk, ht⟩, hf⟩ := h
    refine ⟨g ++ k, tail, by rw [hf, List.append_assoc], ?_, (htail tail).mpr ht⟩
    change FieldsRepr (under schema layout) _ (bodyCells layout _) _
    rw [hcell]
    exact (hfields _).mpr ⟨g, k, hg, hk, rfl⟩

/-- Two layouts agree on a row when they agree on its Boolean columns, which are its last. -/
theorem bodyRepr_iff (htailed : hasTail tailed = true) (hinlined : hasTail inlined = false)
    (hlast : BooleansLast (cells.map (·.1)))
    (hbooleans : ∀ suffix, suffix <:+ cells → (∀ cell ∈ suffix, cell.1.columnType = .boolean) →
      ∀ f, TailRepr tailed suffix f ↔ FieldsRepr (under schema inlined) suffix.length suffix f) :
    BodyRepr (under schema tailed) cells f ↔ BodyRepr (under schema inlined) cells f := by
  have hall : ∀ (cells : List Cell) (f : Bytes), (∀ cell ∈ cells, cell.1.columnType = .boolean) →
      (TailRepr tailed cells f ↔ FieldsRepr (under schema inlined) cells.length cells f) →
      (BodyRepr (under schema tailed) cells f ↔ BodyRepr (under schema inlined) cells f) := by
    intro cells f h hsame
    rw [bodyRepr_booleans_iff htailed h, bodyRepr_inline_iff hinlined, hsame]
  induction cells generalizing f with
  | nil => exact hall [] f (List.forall_mem_nil _) (hbooleans [] List.suffix_rfl (List.forall_mem_nil _) f)
  | cons cell cells ih =>
      obtain ⟨column, value⟩ := cell
      obtain ⟨hcolumn, hrest⟩ := List.pairwise_cons.mp hlast
      by_cases hboolean : column.columnType = .boolean
      · have hcells : ∀ cell ∈ (column, value) :: cells, cell.1.columnType = .boolean := by
          intro cell hcell
          rcases List.mem_cons.mp hcell with rfl | hcell
          · exact hboolean
          · exact hcolumn cell.1 (List.mem_map_of_mem hcell) hboolean
        exact hall _ f hcells (hbooleans _ List.suffix_rfl hcells f)
      · have hnext : ∀ k, BodyRepr (under schema tailed) cells k ↔ BodyRepr (under schema inlined) cells k :=
          fun k => ih hrest fun suffix hsuffix => hbooleans suffix (hsuffix.trans (List.suffix_cons _ _))
        rw [bodyRepr_field_iff hboolean, bodyRepr_field_iff hboolean]
        simp only [hnext]

theorem tailRepr_bytes_iff (h : ∀ cell ∈ cells, cell.1.columnType = .boolean) :
    TailRepr .bytes cells f ↔ FieldsRepr (under schema .inlineBytes) cells.length cells f := by
  induction cells generalizing f with
  | nil => rw [List.length_nil, fieldsRepr_zero_iff, tailRepr_nil_iff]
  | cons cell cells ih =>
      obtain ⟨column, value⟩ := cell
      obtain ⟨hcolumn, hcells⟩ := List.forall_mem_cons.mp h
      by_cases hvalue : value = .null
      · subst hvalue
        rw [List.length_cons, fieldsRepr_null_iff, tailRepr_cons_of_neg (isPresentBoolean_null column), ih hcells]
      · rw [List.length_cons, fieldsRepr_cell_iff (.inl rfl)]
        simp only [cellRepr_boolean_iff hcolumn hvalue, ← ih hcells]
        constructor
        · intro h
          obtain ⟨bools, hbools, hf⟩ := h
          rw [presentBooleans_cons_of_pos (isPresentBoolean_of hcolumn hvalue)] at hbools
          obtain ⟨b, bools, rfl, rfl, hrest⟩ := List.map_eq_cons_iff.mp hbools.symm
          exact ⟨[booleanByte b], _, ⟨b, rfl, rfl⟩, ⟨bools, hrest.symm, rfl⟩, hf⟩
        · intro h
          obtain ⟨g, k, ⟨b, hb, hg⟩, ⟨bools, hbools, hk⟩, hf⟩ := h
          subst hb
          refine ⟨b :: bools, ?_, ?_⟩
          · rw [presentBooleans_cons_of_pos (isPresentBoolean_of hcolumn hvalue), hbools, List.map_cons]
          · cases hg
            rw [hf, hk, List.map_cons]
            rfl

def ConsecutiveCells (cells : List Cell) : Prop :=
  ∃ a b : Nat, ∀ i : Nat, (∃ cell, cells[i]? = some cell ∧ isPresentBoolean cell = true) ↔ a ≤ i ∧ i < b

theorem ConsecutiveCells.tail {cell : Cell} (h : ConsecutiveCells (cell :: cells)) : ConsecutiveCells cells := by
  obtain ⟨a, b, h⟩ := h
  refine ⟨a - 1, b - 1, fun i => ?_⟩
  have hi := h (i + 1)
  rw [List.getElem?_cons_succ] at hi
  rw [hi]
  omega

theorem ConsecutiveCells.suffix {suffix : List Cell} (h : ConsecutiveCells cells) (hsuffix : suffix <:+ cells) :
    ConsecutiveCells suffix := by
  obtain ⟨before, rfl⟩ := hsuffix
  induction before with
  | nil => exact h
  | cons cell before ih => exact ih h.tail

theorem ConsecutiveCells.run {cell : Cell} (h : ConsecutiveCells (cell :: cells)) (hcell : isPresentBoolean cell = true) :
    ∃ block rest, cell :: cells = block ++ rest ∧ block ≠ [] ∧ (∀ cell ∈ block, isPresentBoolean cell = true) ∧
      ∀ cell ∈ rest, isPresentBoolean cell = false := by
  obtain ⟨a, b, h⟩ := h
  obtain ⟨ha, hb⟩ := (h 0).mp ⟨cell, rfl, hcell⟩
  refine ⟨(cell :: cells).take b, (cell :: cells).drop b, (List.take_append_drop _ _).symm, ?_, ?_, ?_⟩
  · rw [← List.length_pos_iff_ne_nil, List.length_take, List.length_cons]
    omega
  · intro c hc
    obtain ⟨i, hi, hget⟩ := List.mem_take_iff_getElem.mp hc
    obtain ⟨c', hget', hc'⟩ := (h i).mpr ⟨by omega, by omega⟩
    have hlt : i < (cell :: cells).length := by omega
    rw [List.getElem?_eq_getElem hlt, hget] at hget'
    rwa [Option.some.inj hget']
  · intro c hc
    obtain ⟨i, hi⟩ := List.mem_iff_getElem?.mp hc
    rw [List.getElem?_drop] at hi
    rw [← Bool.not_eq_true]
    intro hpresent
    have := ((h _).mp ⟨c, hi, hpresent⟩).2
    omega

theorem presentBooleans_append_nulls {block rest : List Cell} (hblock : ∀ cell ∈ block, isPresentBoolean cell = true)
    (hrest : ∀ cell ∈ rest, isPresentBoolean cell = false) :
    presentBooleans (block ++ rest) = block.map (·.2) := by
  have hnone : rest.filter isPresentBoolean = [] := by
    rw [List.filter_eq_nil_iff]
    intro cell hcell
    rw [hrest cell hcell]
    exact Bool.false_ne_true
  rw [presentBooleans, List.filter_append, List.filter_eq_self.mpr hblock, hnone, List.append_nil]

/-- One run of present Booleans is packed alike in the sidecar and among the fields. -/
theorem tailRepr_packed_iff (h : ∀ cell ∈ cells, cell.1.columnType = .boolean) (hconsecutive : ConsecutiveCells cells) :
    TailRepr .packedMsbFirst cells f ↔
      FieldsRepr (under schema .inlinePackedRunsMsbFirst) cells.length cells f := by
  induction cells generalizing f with
  | nil => rw [List.length_nil, fieldsRepr_zero_iff, tailRepr_nil_iff]
  | cons cell cells ih =>
      obtain ⟨column, value⟩ := cell
      obtain ⟨hcolumn, hcells⟩ := List.forall_mem_cons.mp h
      by_cases hvalue : value = .null
      · subst hvalue
        rw [List.length_cons, fieldsRepr_null_iff, tailRepr_cons_of_neg (isPresentBoolean_null column),
          ih hcells hconsecutive.tail]
      · obtain ⟨block, rest, hsplit, hne, hblock, hrest⟩ := hconsecutive.run (isPresentBoolean_of hcolumn hvalue)
        have hnulls : ∀ cell ∈ rest, cell.2 = .null := by
          intro cell hcell
          by_contra hcontra
          have hboolean : cell.1.columnType = .boolean := h cell (hsplit ▸ List.mem_append_right _ hcell)
          exact Bool.false_ne_true ((hrest cell hcell).symm.trans (isPresentBoolean_of hboolean hcontra))
        have hlength : cells.length + 1 - block.length = rest.length := by
          have := congrArg List.length hsplit
          rw [List.length_cons, List.length_append] at this
          omega
        rw [List.length_cons, hsplit, fieldsRepr_run_iff rfl hne hblock fun c hc => hrest c (List.mem_of_mem_head? hc),
          hlength, TailRepr, presentBooleans_append_nulls hblock hrest]
        simp [fieldsRepr_nulls_iff hnulls]

end Cells

section Rows

variable {schema : RowSchema} {layout tailed inlined : BooleanTailLayout} {input f : Bytes} {size : Nat}
  {values : List Value} {present : List Bool} {r : DecodedRow}

theorem serializes_under_iff : Serializes (under schema layout) size values f ↔
    values.length = schema.columns.length ∧ ∃ carrier bitmap body,
      f = toLeBytes 2 size ++ carrier ++ bitmap ++ body ∧ carrier.length = carrierLen schema.rowPrefixLayout ∧
      BitmapRepr schema values bitmap ∧ BodyRepr (under schema layout) (schema.columns.zip values) body := by
  refine and_congr_right fun hlength => ?_
  have hcells : (schema.columns.zip values).length = schema.columns.length := by
    rw [List.length_zip, show values.length = schema.columns.length from hlength, Nat.min_self]
  constructor
  · intro h
    obtain ⟨carrier, bitmap, fields, tail, hf, hcarrier, hbitmap, hfields, ht⟩ := h
    refine ⟨carrier, bitmap, fields ++ tail, by rw [hf, List.append_assoc], hcarrier, hbitmap, fields, tail, rfl, ?_, ht⟩
    rw [hcells]
    exact hfields
  · intro h
    obtain ⟨carrier, bitmap, body, hf, hcarrier, hbitmap, fields, tail, hbody, hfields, ht⟩ := h
    rw [hcells] at hfields
    exact ⟨carrier, bitmap, fields, tail, by rw [hf, hbody, ← List.append_assoc], hcarrier, hbitmap, hfields, ht⟩

theorem rowRepr_under_iff (hbody : r.values.length = schema.columns.length → ∀ f,
      BodyRepr (under schema tailed) (schema.columns.zip r.values) f ↔
        BodyRepr (under schema inlined) (schema.columns.zip r.values) f) :
    RowRepr (under schema tailed) input r ↔ RowRepr (under schema inlined) input r := by
  have hsame : Serializes (under schema tailed) r.declaredSize r.values (input.take r.consumedSize) ↔
      Serializes (under schema inlined) r.declaredSize r.values (input.take r.consumedSize) := by
    rw [serializes_under_iff, serializes_under_iff]
    refine and_congr_right fun hlength => ?_
    simp only [hbody hlength]
  constructor
  · intro h
    exact ⟨h.le_size, h.size_le, h.size_lt, h.flags, h.consumed, hsame.mp h.body⟩
  · intro h
    exact ⟨h.le_size, h.size_le, h.size_lt, h.flags, h.consumed, hsame.mpr h.body⟩

theorem Agrees.getElem?_iff (h : Agrees present values) (i : Nat) :
    (∃ v, values[i]? = some v ∧ v ≠ .null) ↔ present[i]? = some true := by
  induction h generalizing i with
  | nil => simp
  | cons head _ ih =>
      cases i with
      | zero => simpa using head
      | succ i => exact ih i

theorem ConsecutiveCells.of_agrees (h : Consecutive schema present) (hagrees : Agrees present values) :
    ConsecutiveCells (schema.columns.zip values) := by
  obtain ⟨a, b, h⟩ := h
  refine ⟨a, b, fun i => ?_⟩
  rw [← h i, IsBoolean]
  simp only [List.getElem?_zip_eq_some, ← Agrees.getElem?_iff hagrees]
  constructor
  · intro h
    obtain ⟨cell, ⟨hcolumn, hvalue⟩, hcell⟩ := h
    obtain ⟨hboolean, hne⟩ := of_decide_eq_true hcell
    exact ⟨cell.1, hcolumn, hboolean, cell.2, hvalue, hne⟩
  · intro h
    obtain ⟨column, hcolumn, hboolean, v, hvalue, hne⟩ := h
    exact ⟨(column, v), ⟨hcolumn, hvalue⟩, isPresentBoolean_of hboolean hne⟩

theorem decodeRow_agrees (h : decodeRow input (under schema layout) = .ok r) :
    ∃ header, rowHeaderAndPresence input schema = .ok header ∧ Agrees header.present r.values := by
  obtain ⟨hv, -, vs, bools, fields, tail, hm, -⟩ := decodeRow_eq_ok_iff_body.mp h
  have hvalid : HeaderValid schema input r.declaredSize := ⟨hv.le_size, hv.size_le, hv.size_lt, hv.word, hv.fits⟩
  refine ⟨_, (rowHeaderAndPresence_eq_ok_iff (hv.le_size.trans hv.size_le)).mpr ⟨_, hvalid, rfl⟩, ?_⟩
  exact hm.agrees

/-- A sidecar layout and the inline layout of the same Booleans decode the same rows, where the Booleans come last. -/
theorem decodeRow_layouts (schema : RowSchema) (input : Bytes) (hlast : BooleansLast schema.columns) :
    (∀ r, decodeRow input (under schema .bytes) = .ok r ↔ decodeRow input (under schema .inlineBytes) = .ok r) ∧
    ((∀ header, rowHeaderAndPresence input schema = .ok header → Consecutive schema header.present) →
      ∀ r, decodeRow input (under schema .packedMsbFirst) = .ok r ↔
        decodeRow input (under schema .inlinePackedRunsMsbFirst) = .ok r) := by
  have hcells : ∀ values : List Value, values.length = schema.columns.length →
      BooleansLast ((schema.columns.zip values).map (·.1)) := by
    intro values hlength
    rw [List.map_fst_zip hlength.ge]
    exact hlast
  constructor
  · intro r
    rw [decodeRow_eq_ok_iff_rowRepr, decodeRow_eq_ok_iff_rowRepr]
    apply rowRepr_under_iff
    intro hlength f
    apply bodyRepr_iff rfl rfl (hcells _ hlength)
    intro suffix _ hboolean f
    exact tailRepr_bytes_iff hboolean
  · intro hconsecutive r
    -- whichever layout decodes the row, its values show which Booleans are present
    have hsame : ∀ {layout}, decodeRow input (under schema layout) = .ok r →
        (RowRepr (under schema .packedMsbFirst) input r ↔
          RowRepr (under schema .inlinePackedRunsMsbFirst) input r) := by
      intro layout hdecoded
      obtain ⟨header, hheader, hagrees⟩ := decodeRow_agrees hdecoded
      have hrun := ConsecutiveCells.of_agrees (hconsecutive header hheader) hagrees
      apply rowRepr_under_iff
      intro hlength f
      apply bodyRepr_iff rfl rfl (hcells _ hlength)
      intro suffix hsuffix hboolean f
      exact tailRepr_packed_iff hboolean (hrun.suffix hsuffix)
    constructor
    · intro h
      exact decodeRow_eq_ok_iff_rowRepr.mpr ((hsame h).mp (decodeRow_eq_ok_iff_rowRepr.mp h))
    · intro h
      exact decodeRow_eq_ok_iff_rowRepr.mpr ((hsame h).mpr (decodeRow_eq_ok_iff_rowRepr.mp h))

def flagSchema : RowSchema where
  columns := [⟨1, .smallInt, 2, false⟩, ⟨2, .boolean, 1, true⟩, ⟨3, .boolean, 1, true⟩, ⟨4, .boolean, 1, true⟩]

theorem consecutive_flagSchema : Consecutive flagSchema [true, true, true, false] := by
  refine ⟨1, 3, fun i => ?_⟩
  match i with
  | 0 | 1 | 2 | 3 => simp [IsBoolean, flagSchema]
  | i + 4 => simp [IsBoolean, flagSchema]

theorem decodeRow_layouts_flags :
    decodeRow [7, 0, 0xC0, 5, 0, 1, 0] (under flagSchema .inlineBytes) =
        .ok ⟨7, 7, 0, [.integer 5, .boolean true, .boolean false, .null]⟩ ∧
      decodeRow [6, 0, 0xC0, 5, 0, 0x80] (under flagSchema .inlinePackedRunsMsbFirst) =
        .ok ⟨6, 6, 0, [.integer 5, .boolean true, .boolean false, .null]⟩ := by
  constructor
  · exact ((decodeRow_layouts flagSchema _ (by decide)).1 _).mp (by decide)
  · refine ((decodeRow_layouts flagSchema _ (by decide)).2 ?_ _).mp (by decide)
    intro header hheader
    have hpresent : rowHeaderAndPresence [6, 0, 0xC0, 5, 0, 0x80] flagSchema =
        .ok ⟨[6, 0, 0xC0, 5, 0, 0x80], 6, 0, [0xC0], 3, [true, true, true, false]⟩ := by decide
    cases hpresent.symm.trans hheader
    exact consecutive_flagSchema

end Rows

end OpenSqlAny.RowLayouts
