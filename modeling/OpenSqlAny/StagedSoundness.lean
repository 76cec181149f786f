import OpenSqlAny.Library.IndexedLists
import OpenSqlAny.StagedReading

namespace OpenSqlAny.StagedSoundness

open Library.Faults Library.CursorReader Library.IndexedLists Library.LittleEndian Library.PackedBits
open RowTypes RowDecoder RowGrammar RowLoop RowTail RowHeader RowSoundness StagedReading

variable {layout : BooleanTailLayout} {columns : List ColumnDef} {ps bools : List Bool} {vs fs : List Value}

def partialValue (entry : Cell × Nat) : PartialRowValue := ⟨entry.2, entry.1.1.id, entry.1.2⟩

def isFieldCell (entry : Cell × Nat) : Bool := decide (entry.1.1.columnType ≠ .boolean)

def isBooleanCell (entry : Cell × Nat) : Bool := isPresentBoolean entry.1

def prefixColumns (schema : RowSchema) (through : Nat) (values : List Value) : List PartialRowValue :=
  (((schema.columns.zip values).zipIdx.take through).filter isFieldCell).map partialValue

/-- The present Booleans: all of them with a sidecar, else those up to an ordinal. -/
def booleanValues (schema : RowSchema) (through : Nat) (values : List Value) : List PartialRowValue :=
  ((if hasTail schema.booleanTail then (schema.columns.zip values).zipIdx
    else (schema.columns.zip values).zipIdx.take through).filter isBooleanCell).map partialValue

def BooleanTyped (cell : Cell) : Prop :=
  cell.1.columnType = .boolean → cell.2 = .null ∨ ∃ b, cell.2 = .boolean b

theorem fieldsRepr_booleanTyped {schema : RowSchema} {n : Nat} {cells : List Cell} {f : Bytes}
    (h : FieldsRepr schema n cells f) : ∀ cell ∈ cells.take n, BooleanTyped cell := by
  induction h with
  | stop cells => simp
  | null rest ih =>
      rw [List.take_succ_cons, List.forall_mem_cons]
      exact ⟨fun _ => .inl rfl, ih⟩
  | field head rest ih =>
      rw [List.take_succ_cons, List.forall_mem_cons]
      exact ⟨fun hc => absurd hc (fieldRepr_not_boolean head), ih⟩
  | inline hcolumn head rest ih =>
      rw [List.take_succ_cons, List.forall_mem_cons]
      exact ⟨fun _ => .inr ⟨_, rfl⟩, ih⟩
  | @run n columns bools order cells g f horder hcolumns hlength hne hmax head rest ih =>
      intro cell hcell
      rw [List.take_append] at hcell
      rcases List.mem_append.mp hcell with hcell | hcell
      · obtain ⟨-, hv⟩ := List.of_mem_zip (List.mem_of_mem_take hcell)
        obtain ⟨b, -, hb⟩ := List.mem_map.mp hv
        exact fun _ => .inr ⟨b, hb.symm⟩
      · apply ih
        simpa [hlength] using hcell

theorem fieldsRepr_take {schema : RowSchema} {n : Nat} {cells : List Cell} {f : Bytes}
    (h : FieldsRepr schema n cells f) {k : Nat} (hk : k ≤ n) : ∃ g, FieldsRepr schema k cells g ∧ g <+: f := by
  induction h generalizing k with
  | stop cells =>
      obtain rfl := Nat.le_zero.mp hk
      exact ⟨[], .stop cells, List.nil_prefix⟩
  | null rest ih =>
      cases k with
      | zero => exact ⟨[], .stop _, List.nil_prefix⟩
      | succ k =>
          obtain ⟨g, hg, hgf⟩ := ih (Nat.le_of_succ_le_succ hk)
          exact ⟨g, .null hg, hgf⟩
  | field head rest ih =>
      cases k with
      | zero => exact ⟨[], .stop _, List.nil_prefix⟩
      | succ k =>
          obtain ⟨g, hg, hgf⟩ := ih (Nat.le_of_succ_le_succ hk)
          exact ⟨_, .field head hg, (List.prefix_append_right_inj _).mpr hgf⟩
  | inline hcolumn head rest ih =>
      cases k with
      | zero => exact ⟨[], .stop _, List.nil_prefix⟩
      | succ k =>
          obtain ⟨g, hg, hgf⟩ := ih (Nat.le_of_succ_le_succ hk)
          exact ⟨_, .inline hcolumn head hg, (List.prefix_append_right_inj _).mpr hgf⟩
  | run horder hcolumns hlength hne hmax head rest ih =>
      cases k with
      | zero => exact ⟨[], .stop _, List.nil_prefix⟩
      | succ k =>
          obtain ⟨g, hg, hgf⟩ := ih (Nat.sub_le_sub_right hk _)
          exact ⟨_, .run horder hcolumns hlength hne hmax head hg, (List.prefix_append_right_inj _).mpr hgf⟩

theorem applyCells_prefixEffect {cells : List Cell} (h : ∀ cell ∈ cells, BooleanTyped cell) (st : PrefixState)
    (i : Nat) : applyCells prefixEffect st i cells =
      ⟨st.prefixValues ++ ((cells.zipIdx i).filter isFieldCell).map partialValue,
        st.booleanValues ++ ((cells.zipIdx i).filter isBooleanCell).map partialValue⟩ := by
  induction cells generalizing st i with
  | nil => simp [applyCells]
  | cons cell cells ih =>
      obtain ⟨hcell, hcells⟩ := List.forall_mem_cons.mp h
      obtain ⟨column, value⟩ := cell
      rw [applyCells, ih hcells, List.zipIdx_cons]
      by_cases hc : column.columnType = .boolean
      · rcases hcell hc with hnull | ⟨b, hb⟩
        · obtain rfl : value = .null := hnull
          simp [prefixEffect, hc, isFieldCell, isBooleanCell, isPresentBoolean]
        · obtain rfl : value = .boolean b := hb
          simp [prefixEffect, hc, isFieldCell, isBooleanCell, isPresentBoolean, PrefixState.pushBoolean, partialValue]
      · simp [prefixEffect, hc, isFieldCell, isBooleanCell, isPresentBoolean, PrefixState.pushValue, partialValue]

theorem merged_eq_of_inline (h : Merged layout columns ps vs bools fs) (hl : hasTail layout = false) : vs = fs := by
  induction h with
  | nil => rfl
  | sidecar hlayout _ _ _ => rw [hl] at hlayout; cases hlayout
  | body _ _ _ ih => rw [ih]

theorem merged_fieldCells (h : Merged layout columns ps vs bools fs) (i k : Nat) :
    ((((columns.zip vs).zipIdx i).take k).filter isFieldCell).map partialValue =
      ((((columns.zip fs).zipIdx i).take k).filter isFieldCell).map partialValue := by
  induction h generalizing i k with
  | nil => rfl
  | sidecar _ hcolumn _ ih =>
      cases k with
      | zero => rfl
      | succ k =>
          simp only [List.zip_cons_cons, List.zipIdx_cons, List.take_succ_cons]
          simpa [isFieldCell, hcolumn] using ih (i + 1) k
  | @body column p v _ _ _ _ _ _ _ _ ih =>
      cases k with
      | zero => rfl
      | succ k =>
          simp only [List.zip_cons_cons, List.zipIdx_cons, List.take_succ_cons, List.filter_cons]
          split
          · simp only [List.map_cons, ih (i + 1) k]
          · exact ih (i + 1) k

theorem merged_no_booleanCells (h : Merged layout columns ps vs bools fs) (hl : hasTail layout = true) (i k : Nat) :
    (((columns.zip vs).zipIdx i).take k).filter isBooleanCell = [] := by
  induction h generalizing i k with
  | nil => simp
  | sidecar _ hcolumn _ ih =>
      cases k with
      | zero => rfl
      | succ k =>
          simp only [List.zip_cons_cons, List.zipIdx_cons, List.take_succ_cons]
          simpa [isBooleanCell, isPresentBoolean] using ih (i + 1) k
  | @body column p v _ _ _ _ _ h hv _ ih =>
      cases k with
      | zero => rfl
      | succ k =>
          simp only [List.zip_cons_cons, List.zipIdx_cons, List.take_succ_cons]
          have : isBooleanCell ((column, v), i) = false := by
            by_contra hb
            obtain ⟨hc, hne⟩ : column.columnType = .boolean ∧ v ≠ .null := by
              simpa [isBooleanCell, isPresentBoolean] using hb
            exact inBody_eq_iff.mp h ⟨hl, hc, hv.mp hne⟩
          simpa [this] using ih (i + 1) k

theorem merged_push_eq (h : Merged layout columns ps vs bools fs) (hl : hasTail layout = true) (i : Nat)
    (st : PrefixState) :
    ((tailColumns layout columns ps i).zip bools).foldl (fun s e => s.pushBoolean e.1.2 e.1.1 e.2) st =
      { st with booleanValues := st.booleanValues ++
          (((columns.zip fs).zipIdx i).filter isBooleanCell).map partialValue } := by
  induction h generalizing i st with
  | nil => simp [tailColumns]
  | sidecar hlayout hcolumn _ ih =>
      simp only [tailColumns, hlayout, hcolumn, and_self, ↓reduceIte, List.zip_cons_cons, List.foldl_cons,
        List.zipIdx_cons]
      rw [ih]
      simp [PrefixState.pushBoolean, isBooleanCell, isPresentBoolean, hcolumn, partialValue]
  | @body column p v _ _ _ _ _ h hv _ ih =>
      have : isBooleanCell ((column, v), i) = false := by
        by_contra hb
        obtain ⟨hc, hne⟩ : column.columnType = .boolean ∧ v ≠ .null := by
          simpa [isBooleanCell, isPresentBoolean] using hb
        exact inBody_eq_iff.mp h ⟨hl, hc, hv.mp hne⟩
      rw [tailColumns, if_neg (inBody_eq_iff.mp h), ih]
      simp [this]

variable {schema : RowSchema} {row : Bytes} {present : List Bool}

theorem booleanColumns_eq (hlen : present.length = columns.length) : booleanColumns present columns 0 =
    .ok (columns.zipIdx.filter fun e => decide (e.1.columnType = .boolean ∧ present[e.2]? = some true)) := by
  apply filterM_eq_ok
  rintro ⟨column, j⟩ he
  have hj : j < present.length := by
    have := (List.mem_zipIdx he).2.1
    omega
  by_cases hc : column.columnType = .boolean
  · cases hp : present[j] with
    | false => simp [hc, index_of_lt hj, List.getElem?_eq_getElem hj, hp]
    | true => simp [hc, index_of_lt hj, List.getElem?_eq_getElem hj, hp]
  · simp [hc, pure, Except.pure]

theorem tailColumns_eq_filter (hl : hasTail layout = true) (i : Nat) (hps : present.drop i = ps)
    (hlen : ps.length = columns.length) : tailColumns layout columns ps i =
      (columns.zipIdx i).filter fun e => decide (e.1.columnType = .boolean ∧ present[e.2]? = some true) := by
  induction columns generalizing ps i with
  | nil => simp [tailColumns]
  | cons column columns ih =>
      cases ps with
      | nil => simp at hlen
      | cons p ps =>
          have hhead : present[i]? = some p := by rw [← List.head?_drop, hps, List.head?_cons]
          have hrest : present.drop (i + 1) = ps := by rw [← List.tail_drop, hps, List.tail_cons]
          rw [tailColumns, ih (i + 1) hrest (by simpa using hlen), List.zipIdx_cons, List.filter_cons]
          simp [hl, hhead]

theorem requiredTail_inline (hl : hasTail layout = false) (n : Nat) : requiredTail layout n = 0 := by
  cases layout with
  | bytes | packedMsbFirst => cases hl
  | inlineBytes | inlineU16Le | inlinePackedRunsMsbFirst | inlinePackedRunsLsbFirst => rfl

theorem requiredTail_eq (hlen : present.length = schema.columns.length) {cols : List (ColumnDef × Nat)}
    (hcols : booleanColumns present schema.columns 0 = .ok cols) :
    requiredTail schema.booleanTail cols.length =
      requiredTail schema.booleanTail (tailColumns schema.booleanTail schema.columns present 0).length ∧
    (hasTail schema.booleanTail = true → cols = tailColumns schema.booleanTail schema.columns present 0) := by
  rw [booleanColumns_eq hlen] at hcols
  have heq (hl : hasTail schema.booleanTail = true) :
      cols = tailColumns schema.booleanTail schema.columns present 0 := by
    rw [tailColumns_eq_filter hl 0 List.drop_zero hlen]
    exact (Except.ok.inj hcols).symm
  refine ⟨?_, heq⟩
  cases hl : hasTail schema.booleanTail with
  | true => rw [heq hl]
  | false => rw [requiredTail_inline hl, requiredTail_inline hl]

theorem pushTail_spec (hl : hasTail layout = true) {tail : Bytes} (h : Linked layout columns ps vs)
    (hlen : tail.length = requiredTail layout (tailColumns layout columns ps 0).length) (st : PrefixState) :
    pushTail layout tail (tailColumns layout columns ps 0) st ≠ .error .panic ∧
    ∀ st', pushTail layout tail (tailColumns layout columns ps 0) st = .ok st' ↔
      ∃ bools fs, Merged layout columns ps vs bools fs ∧ HoldsFrom layout tail 0 bools ∧
        st' = { st with booleanValues := st.booleanValues ++
          ((columns.zip fs).zipIdx.filter isBooleanCell).map partialValue } := by
  obtain ⟨hne, hok⟩ := tailLoop_spec (fun _ : PrefixState => True)
    (fun st c b => st.pushBoolean c.2 c.1 b) (tailColumns layout columns ps 0) 0 (fun _ _ _ _ => trivial)
    (fun st c j _ _ => rfl) (fun j c _ hj => tailBits_ne_panic hlen j c hj) trivial
  refine ⟨hne, fun st' => (hok st').trans ?_⟩
  constructor
  · rintro ⟨bools, hbools, hh, rfl⟩
    obtain ⟨fs, hm⟩ := merged_of_linked h 0 hbools
    exact ⟨bools, fs, hm, hh, merged_push_eq hm hl 0 st⟩
  · rintro ⟨bools, fs, hm, hh, rfl⟩
    exact ⟨bools, (hm.length_bools 0).symm, hh, (merged_push_eq hm hl 0 st).symm⟩

def finishStage (schema : RowSchema) (row : Bytes) (tailStart : Nat) (cols : List (ColumnDef × Nat))
    (st : PrefixState) : Outcome DecodeError PrefixState :=
  if isInlineBooleanLayout schema.booleanTail then pure st
  else do
    let tail ← slice row tailStart row.length
    pushTail schema.booleanTail tail cols st

def prefixFrom (schema : RowSchema) (through : Nat) (header : RowHeaderAndPresence) :
    Outcome DecodeError PartialDecodedRow := do
  let booleans ← booleanColumns header.present schema.columns 0
  let needed := requiredTail schema.booleanTail booleans.length
  if header.row.length < header.cursor then fail (.truncatedBooleanTail needed 0)
  else if needed > header.row.length - header.cursor then
    fail (.truncatedBooleanTail needed (header.row.length - header.cursor))
  else do
    let tailStart ← subtract header.row.length needed
    let (st, cursor) ←
      runFrom (decodePrefixColumns header.row schema header.present through tailStart
        (schema.columns.take through) 0 ⟨[], []⟩) header.cursor
    let st ← finishStage schema header.row tailStart booleans st
    if tailStart < cursor then fail (.prefixOverlapsBooleanTail (through - 1))
    else pure ⟨header.declaredSize, header.flags, through, st.prefixValues, st.booleanValues, tailStart - cursor⟩

theorem decodeRowPrefixAndBooleanTail_eq {input : Bytes} {through : Nat} (hpos : 0 < through)
    (hle : through ≤ schema.columns.length) : decodeRowPrefixAndBooleanTail input schema through =
      rowHeaderAndPresence input schema >>= prefixFrom schema through := by
  rw [decodeRowPrefixAndBooleanTail, if_neg (by omega)]
  apply congrArg
  funext header
  rw [prefixFrom]
  cases hi : isInlineBooleanLayout schema.booleanTail with
  | false => simp only [finishStage, hi, Bool.false_eq_true, ↓reduceIte, bind_assoc]
  | true => simp only [finishStage, hi, ↓reduceIte, pure_bind]

theorem finishStage_spec {n : Nat} {tailStart : Nat} (hle : tailStart ≤ row.length)
    (hn : n = (tailColumns schema.booleanTail schema.columns present 0).length)
    (hlen : row.length - tailStart = requiredTail schema.booleanTail n) {cols : List (ColumnDef × Nat)}
    (hcols : hasTail schema.booleanTail = true → cols = tailColumns schema.booleanTail schema.columns present 0)
    (hvs : Linked schema.booleanTail schema.columns present vs) (st : PrefixState) :
    finishStage schema row tailStart cols st ≠ .error .panic ∧
    ∀ st', finishStage schema row tailStart cols st = .ok st' ↔
      ∃ bools fs, Merged schema.booleanTail schema.columns present vs bools fs ∧
        TailRepr schema.booleanTail (schema.columns.zip fs) (row.drop tailStart) ∧
        st' = if hasTail schema.booleanTail then { st with booleanValues := st.booleanValues ++
          ((schema.columns.zip fs).zipIdx.filter isBooleanCell).map partialValue } else st := by
  subst hn
  have htail : (row.drop tailStart).length =
      requiredTail schema.booleanTail (tailColumns schema.booleanTail schema.columns present 0).length := by
    rw [List.length_drop, hlen]
  rw [finishStage, isInlineBooleanLayout_eq]
  cases hl : hasTail schema.booleanTail with
  | false =>
      refine ⟨by simp [pure, Except.pure], fun st' => ?_⟩
      have hnone : tailColumns schema.booleanTail schema.columns present 0 = [] := by
        apply List.eq_nil_iff_forall_not_mem.mpr
        intro c hc
        have := (hasTail_of_mem_tailColumns hc).1
        simp [hl] at this
      have hempty : row.drop tailStart = [] := by
        apply List.length_eq_zero_iff.mp
        rw [htail, hnone]
        exact requiredTail_inline hl _
      obtain ⟨fs, hm⟩ := @merged_of_linked _ _ _ [] _ hvs 0 (by rw [hnone]; rfl)
      have ht : TailRepr schema.booleanTail (schema.columns.zip fs) (row.drop tailStart) := by
        rw [hempty]
        exact (tailRepr_inline_iff hl).mpr rfl
      simp only [Bool.not_false, ↓reduceIte, pure, Except.pure, Except.ok.injEq, Bool.false_eq_true]
      exact ⟨fun h => ⟨[], fs, hm, ht, h.symm⟩, fun ⟨_, _, _, _, h⟩ => h.symm⟩
  | true =>
      obtain ⟨hne, hok⟩ := pushTail_spec hl hvs htail st
      rw [hcols hl, slice_of_le hle le_rfl, List.take_length]
      refine ⟨hne, fun st' => (hok st').trans ?_⟩
      constructor
      · rintro ⟨bools, fs, hm, hh, rfl⟩
        exact ⟨bools, fs, hm, hm.tailRepr_iff.mpr ⟨htail.trans (by rw [hm.length_bools]), hh⟩, rfl⟩
      · rintro ⟨bools, fs, hm, ht, rfl⟩
        exact ⟨bools, fs, hm, (hm.tailRepr_iff.mp ht).2, rfl⟩

theorem staged_values {k : Nat} {f : Bytes}
    (hm : Merged schema.booleanTail schema.columns present vs bools fs)
    (hf : FieldsRepr schema k (schema.columns.zip vs) f) {st : PrefixState}
    (hst : st = applyCells prefixEffect ⟨[], []⟩ 0 ((schema.columns.zip vs).take k)) {st' : PrefixState}
    (hst' : st' = if hasTail schema.booleanTail then { st with booleanValues := st.booleanValues ++
      ((schema.columns.zip fs).zipIdx.filter isBooleanCell).map partialValue } else st) :
    st' = ⟨prefixColumns schema k fs, booleanValues schema k fs⟩ := by
  rw [applyCells_prefixEffect (fieldsRepr_booleanTyped hf), ← take_zipIdx] at hst
  have hfields := merged_fieldCells hm 0 k
  subst hst
  cases hl : hasTail schema.booleanTail with
  | false =>
      obtain rfl := merged_eq_of_inline hm hl
      simp [hst', hl, prefixColumns, booleanValues]
  | true =>
      have hnone := merged_no_booleanCells hm hl 0 k
      simp [hst', hl, prefixColumns, booleanValues, hnone, hfields]

/-- The staged decoder past the fields that it reads, which end at the cursor. -/
def closeStage (schema : RowSchema) (row : Bytes) (tailStart through : Nat) (cols : List (ColumnDef × Nat))
    (st : PrefixState) (cursor : Nat) : Outcome DecodeError PartialDecodedRow :=
  finishStage schema row tailStart cols st >>= fun st =>
    if tailStart < cursor then fail (.prefixOverlapsBooleanTail (through - 1))
    else pure ⟨row.length, 0, through, st.prefixValues, st.booleanValues, tailStart - cursor⟩

theorem closeStage_ne_panic {through tailStart cursor : Nat} {cols : List (ColumnDef × Nat)} {st : PrefixState}
    (h : finishStage schema row tailStart cols st ≠ .error .panic) :
    closeStage schema row tailStart through cols st cursor ≠ .error .panic := by
  apply bind_ne_panic h
  intro st _
  split <;> simp [fail, pure, Except.pure]

theorem closeStage_eq_ok_iff {through tailStart cursor : Nat} {cols : List (ColumnDef × Nat)} {st : PrefixState}
    {q : PartialDecodedRow} : closeStage schema row tailStart through cols st cursor = .ok q ↔
      cursor ≤ tailStart ∧ ∃ st', finishStage schema row tailStart cols st = .ok st' ∧
        q = ⟨row.length, 0, through, st'.prefixValues, st'.booleanValues, tailStart - cursor⟩ := by
  rw [closeStage, Library.Faults.bind_eq_ok_iff]
  by_cases h : cursor ≤ tailStart
  · simp [Nat.not_lt.mpr h, h, pure, Except.pure, eq_comm]
  · simp [Nat.lt_of_not_le h, h, fail]

theorem prefixFrom_eq {through : Nat} {cols : List (ColumnDef × Nat)} {needed : Nat}
    (hpresent : present = presenceFlags schema (bitmapOf schema row))
    (hcols : booleanColumns present schema.columns 0 = .ok cols)
    (hneeded : needed = requiredTail schema.booleanTail cols.length) (hheader : headerLen schema ≤ row.length) :
    prefixFrom schema through (headerOf schema row) =
      if needed > row.length - headerLen schema then
        fail (.truncatedBooleanTail needed (row.length - headerLen schema))
      else runFrom (decodePrefixColumns row schema present through (row.length - needed)
          (schema.columns.take through) 0 ⟨[], []⟩) (headerLen schema) >>= fun s =>
        closeStage schema row (row.length - needed) through cols s.1 s.2 := by
  subst hneeded hpresent
  rw [prefixFrom, headerOf_present, hcols]
  change (if row.length < headerLen schema then _ else _) = _
  rw [if_neg (by omega)]
  split
  next hshort => exact (if_pos hshort).symm
  next hroom =>
    refine Eq.trans ?_ (if_neg hroom).symm
    simp only [headerOf_row, headerOf_cursor] at hroom
    rw [headerOf_row, subtract_of_le (by omega)]
    rfl

/-- The staged decoder finds the fields up to the ordinal at the front of the
row, the sidecar at its very end, and leaves the bytes between alone. -/
theorem prefixFrom_spec {through : Nat} (hle : through ≤ schema.columns.length) (hheader : headerLen schema ≤ row.length) :
    prefixFrom schema through (headerOf schema row) ≠ .error .panic ∧
    ∀ q, prefixFrom schema through (headerOf schema row) = .ok q ↔
      q.declaredSize = row.length ∧ q.flags = 0 ∧ q.throughOrdinal = through ∧ ∃ vs bools fs fields tail,
        Merged schema.booleanTail schema.columns (presenceFlags schema (bitmapOf schema row)) vs bools fs ∧
        FieldsRepr schema through (schema.columns.zip vs) fields ∧
        TailRepr schema.booleanTail (schema.columns.zip fs) tail ∧
        fields <+: row.drop (headerLen schema) ∧ tail <:+ row ∧
        headerLen schema + fields.length + q.opaqueMiddleLen + tail.length = row.length ∧
        q.prefixValues = prefixColumns schema through fs ∧ q.booleanValues = booleanValues schema through fs := by
  set present := presenceFlags schema (bitmapOf schema row) with hpresent
  have hlen : present.length = schema.columns.length := length_presenceFlags
  obtain ⟨cols, hcols⟩ : ∃ cols, booleanColumns present schema.columns 0 = .ok cols := ⟨_, booleanColumns_eq hlen⟩
  obtain ⟨hneeded, hsame⟩ := requiredTail_eq hlen hcols
  rw [prefixFrom_eq hpresent hcols rfl hheader]
  generalize requiredTail schema.booleanTail cols.length = needed at *
  have htail {bools : List Bool} {fs : List Value} {vs : List Value} {tail : Bytes}
      (hm : Merged schema.booleanTail schema.columns present vs bools fs)
      (ht : TailRepr schema.booleanTail (schema.columns.zip fs) tail) : tail.length = needed := by
    rw [hm.length_tail ht, hneeded]
  split
  next hshort =>
    refine ⟨by simp [fail], fun q => iff_of_false (by simp [fail]) ?_⟩
    rintro ⟨-, -, -, vs, bools, fs, fields, tail, hm, -, ht, -, -, hsum, -⟩
    have := htail hm ht
    omega
  next hroom =>
    have hinline (hl : hasTail schema.booleanTail = false) : row.length - needed = row.length := by
      rw [hneeded, requiredTail_inline hl, Nat.sub_zero]
    have hlimit : headerLen schema ≤ row.length - needed := by omega
    have hreads := @decodePrefixColumns_reads row schema present through (row.length - needed) hlen hle
      (Nat.sub_le _ _) hinline
    have hok := hreads.ok_iff hlimit
    have hfinish {vs : List Value} (hvs : Linked schema.booleanTail schema.columns present vs) :=
      @finishStage_spec vs schema row present _ _ (Nat.sub_le row.length needed) rfl (by omega) cols hsame hvs
    refine ⟨bind_ne_panic (hreads.runFrom_ne_panic hlimit) fun s hs => ?_, fun q => ?_⟩
    · obtain ⟨fields, ⟨vs, hvs, -⟩, -⟩ := (hok _ _).mp (runFrom_eq_ok_iff.mp hs)
      exact closeStage_ne_panic (hfinish hvs s.1).1
    rw [Library.Faults.bind_eq_ok_iff]
    constructor
    · rintro ⟨⟨st, cursor⟩, hrun, hrest⟩
      obtain ⟨fields, ⟨vs, hvs, hfields, hst⟩, hbegins, rfl, hcursor⟩ := (hok _ _).mp (runFrom_eq_ok_iff.mp hrun)
      obtain ⟨-, st', hst', rfl⟩ := closeStage_eq_ok_iff.mp hrest
      obtain ⟨bools, fs, hm, ht, heq⟩ := ((hfinish hvs st).2 st').mp hst'
      obtain rfl := staged_values hm hfields hst heq
      refine ⟨rfl, rfl, rfl, vs, bools, fs, fields, _, hm, hfields, ht, hbegins, List.drop_suffix _ _, ?_, rfl, rfl⟩
      simp only [List.length_drop]
      omega
    · rintro ⟨hsize, hflags, hthrough, vs, bools, fs, fields, tail, hm, hfields, ht, hbegins, hends, hsum, hpre, hbool⟩
      have htl := htail hm ht
      have hdrop : row.drop (row.length - needed) = tail := by
        rw [← htl]
        exact (List.suffix_iff_eq_drop.mp hends).symm
      refine ⟨(_, headerLen schema + fields.length), runFrom_eq_ok_iff.mpr ((hok _ _).mpr
        ⟨fields, ⟨vs, hm.linked, hfields, rfl⟩, hbegins, rfl, by omega⟩), ?_⟩
      refine closeStage_eq_ok_iff.mpr ⟨by simp only; omega, _, ((hfinish hm.linked _).2 _).mpr
        ⟨bools, fs, hm, hdrop ▸ ht, rfl⟩, ?_⟩
      rw [staged_values hm hfields rfl rfl]
      have hmiddle : row.length - needed - (headerLen schema + fields.length) = q.opaqueMiddleLen := by omega
      rw [hmiddle, ← hsize, ← hflags, ← hpre, ← hbool, ← hthrough]

theorem prefixFrom_of_fields {through : Nat} {fields tail : Bytes} (hle : through ≤ schema.columns.length)
    (hheader : headerLen schema ≤ row.length)
    (hm : Merged schema.booleanTail schema.columns (presenceFlags schema (bitmapOf schema row)) vs bools fs)
    (hfields : FieldsRepr schema through (schema.columns.zip vs) fields)
    (ht : TailRepr schema.booleanTail (schema.columns.zip fs) tail)
    (hbegins : fields <+: row.drop (headerLen schema)) (hends : tail <:+ row)
    (hroom : headerLen schema + fields.length + tail.length ≤ row.length) :
    prefixFrom schema through (headerOf schema row) = .ok ⟨row.length, 0, through, prefixColumns schema through fs,
      booleanValues schema through fs, row.length - tail.length - (headerLen schema + fields.length)⟩ := by
  refine ((prefixFrom_spec hle hheader).2 _).mpr ⟨rfl, rfl, rfl, vs, bools, fs, fields, tail, hm, hfields, ht, hbegins,
    hends, ?_, rfl, rfl⟩
  simp only
  omega

end OpenSqlAny.StagedSoundness
