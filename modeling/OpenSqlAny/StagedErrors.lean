import OpenSqlAny.Library.ReaderTwins
import OpenSqlAny.RowErrors
import OpenSqlAny.RowSafety

namespace OpenSqlAny.StagedErrors

open Library.Faults Library.CursorReader Library.ErrorClasses Library.ReaderTwins Library.LittleEndian
open RowTypes RowDecoder RowGrammar RowReading RowHeader RowSoundness RowErrors
open StagedReading StagedSoundness StagedAgreement RowSafety

variable {row : Bytes} {schema : RowSchema} {present : List Bool} {through : Nat}

theorem storeRun_no_error (layout : BooleanTailLayout) (bytes : Bytes) (i count : Nat) (st : RowState) :
    Raises (fun _ => False) (storeRun layout bytes i count st) := storeRun_raises layout bytes i count st

theorem pushRun_no_error (bytes : Bytes) (i count : Nat) (st : PrefixState) :
    Raises (fun _ => False) (pushRun schema bytes through i count st) := by
  apply Raises.foldlM
  intro st j _
  apply Raises.bind (.index schema.columns _)
  intro column _
  exact .bind (inlinePackedBooleanBit_raises _ bytes j) fun _ _ => .ok _

/-- Both loops read a column alike when no Booleans are left for a sidecar. -/
theorem decodeColumn_twins (hinline : hasTail schema.booleanTail = false) (st : RowState) (st' : PrefixState)
    (i : Nat) (column : ColumnDef) : Twins (decodeColumn row schema present st i column)
      (decodePrefixColumn row schema present through row.length st' i column) := by
  have hrun (layout : BooleanTailLayout) : Twins
      (do
        if ← lift (continuesRun schema present i) then pure st
        else do
          let runEnd ← lift (inlineBooleanRunEnd schema present i)
          let count ← lift (subtract runEnd i)
          let bytes ← take row (Library.PackedBits.byteCount count) i
          lift (storeRun layout bytes i count st))
      (do
        if ← lift (continuesRun schema present i) then pure st'
        else do
          let runEnd ← lift (inlineBooleanRunEnd schema present i)
          let count ← lift (subtract runEnd i)
          let bytes ← take row (Library.PackedBits.byteCount count) i
          lift (pushRun schema bytes through i count st')) := by
    apply Twins.bind_same
    intro continues
    cases continues with
    | true => exact .pure _ _
    | false =>
        apply Twins.bind_same
        intro runEnd
        apply Twins.bind_same
        intro count
        apply Twins.bind_same
        intro bytes
        exact .lift (storeRun_no_error layout bytes i count st) (pushRun_no_error bytes i count st')
  have hlayout : isInlineBooleanLayout schema.booleanTail = true := by rw [isInlineBooleanLayout_eq, hinline]; rfl
  rw [decodeColumn, decodePrefixColumn]
  by_cases hboolean : column.columnType = .boolean
  · simp only [if_pos hboolean]
    apply Twins.bind_same
    intro there
    cases there with
    | false => exact .pure _ _
    | true =>
        cases hl : schema.booleanTail with
        | bytes | packedMsbFirst => rw [hl] at hinline; cases hinline
        | inlineBytes =>
            apply Twins.bind_same
            intro byte
            apply Twins.bind_same
            intro value
            exact .lift_pure (store_raises st i _) _
        | inlineU16Le =>
            apply Twins.bind_same
            intro bytes
            apply Twins.bind_same
            intro value
            exact .lift_pure (store_raises st i _) _
        | inlinePackedRunsMsbFirst | inlinePackedRunsLsbFirst => exact hrun _
  · simp only [if_neg hboolean, hlayout, ↓reduceIte]
    apply Twins.bind_same
    intro there
    cases there with
    | false => exact .pure _ _
    | true =>
        apply Twins.bind_same
        intro value
        exact .lift_pure (store_raises st i value) _

theorem decodeColumns_twins (hinline : hasTail schema.booleanTail = false) (columns : List ColumnDef) (start : Nat)
    (st : RowState) (st' : PrefixState) : Twins (decodeColumns row schema present columns start st)
      (decodePrefixColumns row schema present through row.length columns start st') :=
  .foldlM (fun st st' entry _ => decodeColumn_twins hinline st st' entry.2 entry.1) st st'

theorem decodeColumns_split (columns : List ColumnDef) (k : Nat) (st : RowState) :
    decodeColumns row schema present columns 0 st =
      decodeColumns row schema present (columns.take k) 0 st >>= fun st =>
        decodeColumns row schema present (columns.drop k) (min k columns.length) st := by
  have hzip : columns.zipIdx 0 = (columns.take k).zipIdx 0 ++ (columns.drop k).zipIdx (min k columns.length) := by
    conv_lhs => rw [← List.take_append_drop k columns]
    rw [List.zipIdx_append, Nat.zero_add, List.length_take]
  rw [decodeColumns, hzip, List.foldlM_append]
  rfl

theorem decodeColumns_raises (columns : List ColumnDef) (start : Nat) (st : RowState) :
    ReaderRaises (fun e => ∃ c, columnOf e = some c ∧ start ≤ c ∧ c < start + columns.length)
      (decodeColumns row schema present columns start st) := by
  apply ReaderRaises.foldlM
  intro st entry hentry
  obtain ⟨hle, hlt, -⟩ := List.mem_zipIdx hentry
  exact (decodeColumn_raises st entry.1).mono fun e he => ⟨entry.2, he, hle, by omega⟩

theorem bind_fail_iff {α β : Type} {x : Outcome DecodeError α} {f : α → Outcome DecodeError β} {e : DecodeError}
    (hf : ∀ a, x = .ok a → f a ≠ fail e) : x >>= f = fail e ↔ x = fail e := by
  cases x with
  | error fault => simp [bind, Except.bind, fail]
  | ok a =>
      rw [ok_bind]
      exact iff_of_false (hf a rfl) (by simp [fail])

theorem runFrom_take_fail_iff (columns : List ColumnDef) {k : Nat} (hk : k ≤ columns.length) (st : RowState) (c : Nat)
    (e : DecodeError) : runFrom (decodeColumns row schema present (columns.take k) 0 st) c = fail e ↔
      runFrom (decodeColumns row schema present columns 0 st) c = fail e ∧
        ∃ column, columnOf e = some column ∧ column < k := by
  have htaken := ((@decodeColumns_raises row schema present (columns.take k) 0 st).runFrom c).error e
  rw [List.length_take, Nat.min_eq_left hk, Nat.zero_add] at htaken
  rw [decodeColumns_split columns k st, runFrom_bind, Nat.min_eq_left hk]
  constructor
  · intro h
    obtain ⟨column, hcolumn, -, hlt⟩ := htaken h
    rw [h]
    exact ⟨rfl, column, hcolumn, hlt⟩
  · rintro ⟨h, column, hcolumn, hlt⟩
    refine (bind_fail_iff fun s _ hs => ?_).mp h
    obtain ⟨column', hcolumn', hle, -⟩ :=
      ((@decodeColumns_raises row schema present (columns.drop k) k s.1).runFrom s.2).error e hs
    rw [hcolumn] at hcolumn'
    obtain rfl : column = column' := Option.some.inj hcolumn'
    omega

variable {input : Bytes}

theorem decodeFrom_fail_iff (hinline : hasTail schema.booleanTail = false) (header : RowHeaderAndPresence)
    (e : DecodeError) : decodeFrom schema header = fail e ↔
      runFrom (decodeColumns header.row schema header.present schema.columns 0 (startState schema)) header.cursor =
        fail e := by
  rw [decodeFrom_eq_bind]
  apply bind_fail_iff
  rintro ⟨st, cursor⟩ -
  have hraises : Raises (fun _ => False) (readTail schema header st cursor) := by
    rw [readTail]
    simp only [requiredTail_inline hinline]
    refine .ite (fun hlt => absurd hlt (Nat.not_lt_zero _)) fun _ => ?_
    apply Raises.bind (.slice header.row cursor _)
    intro tail _
    refine Raises.bind ?_ fun _ _ => .ok _
    apply Raises.foldlM
    intro values entry _
    refine Raises.bind ?_ fun _ _ => .assign _ _ _
    cases hl : schema.booleanTail with
    | bytes | packedMsbFirst => rw [hl] at hinline; cases hinline
    | inlineBytes | inlinePackedRunsMsbFirst | inlinePackedRunsLsbFirst | inlineU16Le => exact .panicked
  exact fun h => hraises.error e h

theorem prefixFrom_fail_iff (hinline : hasTail schema.booleanTail = false)
    (hheader : headerLen schema ≤ row.length) (e : DecodeError) :
    prefixFrom schema through (headerOf schema row) = fail e ↔
      runFrom (decodePrefixColumns row schema (presenceFlags schema (bitmapOf schema row)) through row.length
        (schema.columns.take through) 0 ⟨[], []⟩) (headerLen schema) = fail e := by
  have hlen : (presenceFlags schema (bitmapOf schema row)).length = schema.columns.length := length_presenceFlags
  rw [prefixFrom_eq rfl (booleanColumns_eq hlen) (requiredTail_inline hinline _).symm hheader,
    if_neg (Nat.not_lt_zero _), Nat.sub_zero]
  apply bind_fail_iff
  rintro ⟨st, cursor⟩ hrun
  have hcursor : cursor ≤ row.length :=
    ((decodePrefixColumns_safe hlen le_rfl).ok hheader (runFrom_eq_ok_iff.mp hrun)).2.1
  have hfinish (cols : List (ColumnDef × Nat)) : finishStage schema row row.length cols st = pure st := by
    rw [finishStage, isInlineBooleanLayout_eq, hinline]
    rfl
  simp only [closeStage, hfinish]
  change (if row.length < cursor then _ else _) ≠ _
  rw [if_neg (Nat.not_lt.mpr hcursor)]
  simp [fail, pure, Except.pure]

theorem stage_fail_iff (hinline : hasTail schema.booleanTail = false) (hle : through ≤ schema.columns.length)
    (hheader : headerLen schema ≤ row.length) (e : DecodeError) :
    prefixFrom schema through (headerOf schema row) = fail e ↔
      decodeFrom schema (headerOf schema row) = fail e ∧ ∃ column, columnOf e = some column ∧ column < through := by
  have hlen : (presenceFlags schema (bitmapOf schema row)).length = schema.columns.length := length_presenceFlags
  rw [prefixFrom_fail_iff hinline hheader, decodeFrom_fail_iff hinline, headerOf_row, headerOf_cursor,
    headerOf_present, ← runFrom_take_fail_iff schema.columns hle]
  refine ((decodeColumns_twins hinline (schema.columns.take through) 0 (startState schema) ⟨[], []⟩).runFrom_fail_iff
    ?_ ?_ e).symm
  · exact (decodeColumns_safe hlen through).runFrom_ne_panic hheader
  · exact (decodePrefixColumns_safe hlen le_rfl).runFrom_ne_panic hheader

theorem decodeFrom_names (hinline : hasTail schema.booleanTail = false) {header : RowHeaderAndPresence}
    {e : DecodeError} (h : decodeFrom schema header = fail e) : ∃ column, columnOf e = some column := by
  rw [decodeFrom_fail_iff hinline] at h
  obtain ⟨column, hcolumn, -⟩ := ((decodeColumns_raises schema.columns 0 (startState schema)).runFrom _).error e h
  exact ⟨column, hcolumn⟩

theorem rowHeaderAndPresence_names {e : DecodeError} (hlen : 2 ≤ input.length)
    (h : rowHeaderAndPresence input schema = fail e) {column : Nat} (hcolumn : columnOf e = some column) :
    column = 0 := by
  rw [rowHeaderAndPresence_eq hlen] at h
  split at h
  · cases h
    cases hcolumn
  split at h
  · cases h
    cases hcolumn
  split at h
  · cases h
    exact (Option.some.inj hcolumn).symm
  · cases h

theorem decodeRowPrefix_fail_iff (hinline : hasTail schema.booleanTail = false) (hpos : 0 < through)
    (hle : through ≤ schema.columns.length) (e : DecodeError) :
    decodeRowPrefixAndBooleanTail input schema through = fail e ↔
      decodeRow input schema = fail e ∧ ∀ column, columnOf e = some column → column < through := by
  by_cases hlen : 2 ≤ input.length
  case neg =>
    have hshort : rowHeaderAndPresence input schema = fail .missingRowHeader := if_pos (Nat.lt_of_not_le hlen)
    rw [decodeRowPrefixAndBooleanTail_eq hpos hle, hshort, decodeRow, if_pos (Nat.lt_of_not_le hlen)]
    change fail .missingRowHeader = fail e ↔ _
    constructor
    · intro h
      cases h
      refine ⟨rfl, ?_⟩
      intro column hcolumn
      cases hcolumn
    · rintro ⟨h, -⟩
      cases h
      rfl
  rw [decodeRowPrefixAndBooleanTail_eq hpos hle, decodeRow_eq hlen]
  cases hheader : rowHeaderAndPresence input schema with
  | error fault =>
      change Except.error fault = _ ↔ Except.error fault = _ ∧ _
      constructor
      · intro h
        cases h
        exact ⟨rfl, fun column hcolumn => (rowHeaderAndPresence_names hlen hheader hcolumn).symm ▸ hpos⟩
      · rintro ⟨h, -⟩
        cases h
        rfl
  | ok header =>
      obtain ⟨size, hv, rfl⟩ := (rowHeaderAndPresence_eq_ok_iff hlen).mp hheader
      rw [ok_bind, ok_bind, stage_fail_iff hinline hle (hv.length_row.symm ▸ hv.fits)]
      refine and_congr_right fun h => ?_
      obtain ⟨column, hcolumn⟩ := decodeFrom_names hinline h
      simp only [hcolumn, Option.some.injEq, exists_eq_left', forall_eq']

/-- Without a sidecar a stage fails just where the whole row fails on a column that the stage
goes through, and with the same error; a column further on does not stop it. -/
theorem stage_errors_agree (input : Bytes) (schema : RowSchema) (through : Nat)
    (hinline : hasTail schema.booleanTail = false) (hpos : 0 < through) (hle : through ≤ schema.columns.length) :
    (∀ e, decodeRowPrefixAndBooleanTail input schema through = fail e ↔
      decodeRow input schema = fail e ∧ ∀ column, columnOf e = some column → column < through) ∧
    ((∃ q, decodeRowPrefixAndBooleanTail input schema through = .ok q) ↔
      (∃ r, decodeRow input schema = .ok r) ∨
        ∃ e column, decodeRow input schema = fail e ∧ columnOf e = some column ∧ through ≤ column) := by
  have hfails := @decodeRowPrefix_fail_iff schema through input hinline hpos hle
  refine ⟨hfails, ?_⟩
  have hstage := @decodeRowPrefix_ne_panic schema input through
  have hwhole := @decodeRow_ne_panic schema input
  constructor
  · rintro ⟨q, hq⟩
    rcases hrow : decodeRow input schema with (e | _) | r
    · right
      by_contra hnone
      have hfail : decodeRowPrefixAndBooleanTail input schema through = fail e := by
        refine (hfails e).mpr ⟨hrow, fun column hcolumn => ?_⟩
        by_contra hfar
        exact hnone ⟨e, column, rfl, hcolumn, Nat.le_of_not_lt hfar⟩
      rw [hq] at hfail
      cases hfail
    · exact absurd hrow hwhole
    · exact .inl ⟨r, rfl⟩
  · intro h
    rcases hprefix : decodeRowPrefixAndBooleanTail input schema through with (e | _) | q
    · obtain ⟨hrow, hnear⟩ := (hfails e).mp hprefix
      rw [hrow] at h
      rcases h with ⟨r, hr⟩ | ⟨e', column, he, hcolumn, hfar⟩
      · cases hr
      · cases he
        exact absurd (hnear column hcolumn) (Nat.not_lt.mpr hfar)
    · exact absurd hprefix hstage
    · exact ⟨q, rfl⟩

def inlineByteSchema : RowSchema where
  columns := [⟨1, .smallInt, 2, false⟩, ⟨2, .boolean, 1, false⟩]
  booleanTail := .inlineBytes

theorem stage_errors_agree_secondColumn :
    ∃ q, decodeRowPrefixAndBooleanTail [5, 0, 1, 0, 7] inlineByteSchema 1 = .ok q :=
  (stage_errors_agree [5, 0, 1, 0, 7] inlineByteSchema 1 rfl (by decide) (by decide)).2.mpr
    (.inr ⟨.invalidBooleanByte 1 7, 1, by decide, rfl, le_rfl⟩)

end OpenSqlAny.StagedErrors
