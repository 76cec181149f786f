import OpenSqlAny.RowLoop

namespace OpenSqlAny.RowReading

open Library.Faults Library.CursorReader Library.LittleEndian Library.PackedBits
open RowTypes RowDecoder RowGrammar RowFields RowLoop

variable {row : Bytes} {schema : RowSchema}

theorem decodeBooleanByte_eq_ok_iff {column : Nat} {byte : UInt8} {b : Bool} :
    decodeBooleanByte column byte = .ok b ↔ byte = booleanByte b := by
  rw [decodeBooleanByte, booleanByte, fail]
  split
  · cases b <;> simp_all
  · split <;> cases b <;> simp_all

theorem decodeBooleanByte_ne_panic (column : Nat) (byte : UInt8) :
    decodeBooleanByte column byte ≠ .error .panic := by
  rw [decodeBooleanByte, fail]
  split_ifs <;> simp

theorem booleanWord_iff {bytes : Bytes} (hlen : bytes.length = 2) (b : Bool) :
    fromLeBytes bytes = (if b then 1 else 0) ↔ bytes = [booleanByte b, 0] := by
  rw [fromLeBytes_eq_iff, hlen]
  cases b <;> simp [booleanByte, toLeBytes]

theorem decodeBooleanU16_cases {column : Nat} {bytes : Bytes} (hlen : bytes.length = 2) :
    decodeBooleanU16 column bytes ≠ .error .panic ∧
      ∀ b, decodeBooleanU16 column bytes = .ok b ↔ bytes = [booleanByte b, 0] := by
  obtain ⟨x, y, rfl⟩ := List.length_eq_two.mp hlen
  have heq : decodeBooleanU16 column [x, y] = if fromLeBytes [x, y] = 0 then .ok false
      else if fromLeBytes [x, y] = 1 then .ok true
      else fail (.invalidBooleanU16 column (fromLeBytes [x, y])) := rfl
  rw [heq]
  rw [fail]
  refine ⟨by split_ifs <;> simp, fun b => ?_⟩
  rw [← booleanWord_iff hlen]
  split_ifs <;> cases b <;> simp_all

theorem inlineByte_reads {α : Type} (columnIndex : Nat) (F : Bool → α) :
    Reads row row.length (takeByte row columnIndex >>= fun byte =>
      lift (decodeBooleanByte columnIndex byte) >>= fun b => lift (.ok (F b)))
      (fun v f => ∃ b, f = [booleanByte b] ∧ v = F b) := by
  refine ((takeByte_reads columnIndex).bind fun byte _ _ =>
    (Reads.lift le_rfl (decodeBooleanByte_ne_panic columnIndex byte)).bind fun b _ _ =>
      Reads.lift_of_eq rfl).congr fun v f => ?_
  simp only [decodeBooleanByte_eq_ok_iff]
  constructor
  · rintro ⟨_, _, _, rfl, ⟨b, _, _, ⟨rfl, rfl⟩, ⟨rfl, rfl⟩, rfl⟩, rfl⟩
    exact ⟨b, rfl, rfl⟩
  · rintro ⟨b, rfl, rfl⟩
    exact ⟨_, _, [], rfl, ⟨b, [], [], ⟨rfl, rfl⟩, ⟨rfl, rfl⟩, rfl⟩, rfl⟩

theorem inlineU16_reads {α : Type} (columnIndex : Nat) (F : Bool → α) :
    Reads row row.length (take row 2 columnIndex >>= fun bytes =>
      lift (decodeBooleanU16 columnIndex bytes) >>= fun b => lift (.ok (F b)))
      (fun v f => ∃ b, f = [booleanByte b, 0] ∧ v = F b) := by
  refine ((take_reads 2 columnIndex).bind fun bytes _ ⟨_, hlen⟩ =>
    (Reads.lift le_rfl (decodeBooleanU16_cases hlen).1).bind fun b _ _ =>
      Reads.lift_of_eq rfl).congr fun v f => ?_
  constructor
  · rintro ⟨bytes, _, _, ⟨rfl, hlen⟩, ⟨b, _, _, ⟨hb, rfl⟩, ⟨rfl, rfl⟩, rfl⟩, rfl⟩
    exact ⟨b, by simpa using ((decodeBooleanU16_cases hlen).2 b).mp hb, rfl⟩
  · rintro ⟨b, rfl, rfl⟩
    exact ⟨_, _, [], ⟨rfl, rfl⟩, ⟨b, [], [], ⟨((decodeBooleanU16_cases rfl).2 b).mpr rfl, rfl⟩, ⟨rfl, rfl⟩, rfl⟩,
      rfl⟩

theorem field_reads {σ : Type} {limit : Nat} {column : ColumnDef} {p : Reader DecodeError Value}
    {x : Value → Outcome DecodeError σ} {k : Value → σ} (hcolumn : column.columnType ≠ .boolean)
    (hp : Reads row limit p (FieldRepr schema column)) (hx : ∀ v, v ≠ .null → x v = .ok (k v)) :
    Reads row limit (p >>= fun v => lift (x v)) (CellRead schema column true k) := by
  apply (hp.bind fun v f hv => Reads.lift_of_eq (hx v (fieldRepr_ne_null hv))).congr
  intro s f
  rw [cellRead_field_iff hcolumn]
  constructor
  · rintro ⟨v, g, h, hv, ⟨rfl, rfl⟩, rfl⟩
    exact ⟨v, by simpa using hv, rfl⟩
  · rintro ⟨v, hv, rfl⟩
    exact ⟨v, f, [], hv, ⟨rfl, rfl⟩, (List.append_nil f).symm⟩

theorem inlinePackedBooleanBit_eq {order : BitOrder} (horder : runOrder schema.booleanTail = some order)
    {bytes : Bytes} {i : Nat} (hi : i / 8 < bytes.length) :
    inlinePackedBooleanBit schema.booleanTail bytes i = .ok (bitAt order bytes i) := by
  have hmask : inlinePackedBooleanBit schema.booleanTail bytes i = (do
      let byte ← index bytes (i / 8)
      pure (byte &&& mask order (i % 8) != 0)) := by
    cases hl : schema.booleanTail <;> rw [hl] at horder <;> cases horder <;> rfl
  rw [hmask, index_of_lt hi, bitAt_of_getElem? (List.getElem?_eq_getElem hi)]
  exact congrArg _ (and_mask_ne_zero order _ (Nat.mod_lt _ (by decide)))

variable {σ : Type} {effect : σ → Nat → Cell → σ} {Inv : σ → Prop}

theorem foldlM_run {step : σ → Nat → Outcome DecodeError σ} {i : Nat} {bools : List Bool}
    (hinv : ∀ s j cell, Inv s → Inv (effect s j cell))
    (hstep : ∀ s j column b, Inv s → schema.columns[i + j]? = some column → bools[j]? = some b →
      step s j = .ok (effect s (i + j) (column, .boolean b)))
    {s : σ} (hs : Inv s) {n : Nat} (hn : n ≤ bools.length) (hi : i + bools.length ≤ schema.columns.length) :
    (List.range n).foldlM step s =
      .ok (applyCells effect s i (((schema.columns.drop i).zip (bools.map .boolean)).take n)) := by
  induction n with
  | zero => rfl
  | succ n ih =>
      have hb : n < bools.length := by omega
      have hc : i + n < schema.columns.length := by omega
      rw [List.range_succ, List.foldlM_append, ih (by omega)]
      have hzip : ((schema.columns.drop i).zip (bools.map Value.boolean)).take (n + 1) =
          ((schema.columns.drop i).zip (bools.map Value.boolean)).take n ++
            [(schema.columns[i + n], Value.boolean bools[n])] := by
        rw [List.take_succ_eq_append_getElem (by simp; omega)]
        simp
      rw [hzip, applyCells_append]
      have hlen : (((schema.columns.drop i).zip (bools.map Value.boolean)).take n).length = n := by
        simp; omega
      have hnext := hstep _ n _ _ (applyCells_inv hinv hs i
        (((schema.columns.drop i).zip (bools.map Value.boolean)).take n))
        (List.getElem?_eq_getElem hc) (List.getElem?_eq_getElem hb)
      rw [hlen, applyCells, applyCells, ← hnext]
      change step _ n >>= pure = _
      rw [bind_pure]

theorem run_reads {order : BitOrder} {r column : Nat} {store : Bytes → Outcome DecodeError σ}
    {F : List Bool → σ}
    (hstore : ∀ bools bytes, bools.length = r → Packs order bools bytes → store bytes = .ok (F bools)) :
    Reads row row.length (take row (byteCount r) column >>= fun bytes => lift (store bytes))
      (fun v f => ∃ bools, bools.length = r ∧ Packs order bools f ∧ v = F bools) := by
  have hpacks (bytes : Bytes) (hlen : bytes.length = byteCount r) :
      Packs order ((List.range r).map (bitAt order bytes)) bytes := ⟨by simpa using hlen, by simp⟩
  refine ((take_reads (byteCount r) column).bind
    (H := fun bytes v f => v = F ((List.range r).map (bitAt order bytes)) ∧ f = []) fun bytes _ ⟨_, hlen⟩ =>
      Reads.lift_of_eq (hstore _ bytes (by simp) (hpacks bytes hlen))).congr fun v f => ?_
  constructor
  · rintro ⟨_, bytes, _, ⟨rfl, hlen⟩, ⟨rfl, rfl⟩, rfl⟩
    refine ⟨_, by simp, ?_, rfl⟩
    simpa using hpacks bytes hlen
  · rintro ⟨bools, rfl, hbools, rfl⟩
    refine ⟨f, f, [], ⟨rfl, hbools.1⟩, ⟨?_, rfl⟩, (List.append_nil f).symm⟩
    congr 1
    apply List.ext_getElem (by simp)
    intro j hj _
    simp [hbools.2 j hj]

theorem lift_ok_bind {α β : Type} (a : α) (q : α → Reader DecodeError β) : lift (.ok a) >>= q = q a := rfl

/-- What the loop does for a cell: it stores a value that stands among the
fields, and notes a present Boolean of the sidecar. -/
def rowEffect (layout : BooleanTailLayout) (present : List Bool) (st : RowState) (i : Nat) (cell : Cell) :
    RowState where
  values := if cell.2 = .null then st.values else st.values.set i cell.2
  boolValues :=
    if hasTail layout ∧ cell.1.columnType = .boolean ∧ present[i]? = some true then st.boolValues ++ [i]
    else st.boolValues

theorem store_eq {layout : BooleanTailLayout} {present : List Bool} {st : RowState} {i : Nat} {column : ColumnDef}
    {v : Value} (hv : v ≠ .null) (hi : i < st.values.length)
    (h : hasTail layout = false ∨ column.columnType ≠ .boolean) :
    st.store i v = .ok (rowEffect layout present st i (column, v)) := by
  have hb : ¬ (hasTail layout = true ∧ column.columnType = .boolean ∧ present[i]? = some true) := by
    rcases h with h | h <;> simp [h]
  simp [RowState.store, assign_of_lt hi, rowEffect, hv, hb, bind, Except.bind, pure, Except.pure]

variable {present : List Bool}

theorem decodeColumn_boolean_reads {st : RowState} {i : Nat} (hi : i < st.values.length) {column : ColumnDef}
    (hc : column.columnType = .boolean) (hp : present[i]? = some true)
    (hrun : runOrder schema.booleanTail = none) :
    Reads row row.length (decodeColumn row schema present st i column)
      (CellRead schema column true fun v => rowEffect schema.booleanTail present st i (column, v)) := by
  have hstore (hl : hasTail schema.booleanTail = false) (b : Bool) :
      st.store i (.boolean b) = .ok (rowEffect schema.booleanTail present st i (column, .boolean b)) :=
    store_eq (by simp) hi (.inl hl)
  rw [decodeColumn, index_eq_ok_iff.mpr hp, lift_ok_bind]
  simp only [Bool.not_true, Bool.false_eq_true, ↓reduceIte, hc]
  cases hl : schema.booleanTail with
  | inlineBytes =>
      rw [hl] at hstore
      simp only [hstore rfl]
      apply (inlineByte_reads i _).congr
      intro s f
      rw [cellRead_boolean_iff hc (by rw [hl]; rfl)]
      simp [inlineBoolean, hl, eq_comm]
  | inlineU16Le =>
      rw [hl] at hstore
      simp only [hstore rfl]
      apply (inlineU16_reads i _).congr
      intro s f
      rw [cellRead_boolean_iff hc (by rw [hl]; rfl)]
      simp [inlineBoolean, hl, eq_comm]
  | bytes | packedMsbFirst =>
      apply (Reads.pure _).congr
      intro s f
      rw [cellRead_null_iff (by simp [inBody, hl, hasTail, hc])]
      simp [rowEffect, hc, hp, hasTail]
  | inlinePackedRunsMsbFirst | inlinePackedRunsLsbFirst => simp [hl, runOrder] at hrun

theorem decodeColumn_reads {st : RowState} (hst : st.values.length = schema.columns.length) {i : Nat}
    {column : ColumnDef} {p : Bool} (hcolumn : schema.columns[i]? = some column) (hp : present[i]? = some p)
    (hrun : runOrder schema.booleanTail = none ∨ column.columnType ≠ .boolean ∨ p = false) :
    Reads row row.length (decodeColumn row schema present st i column)
      (CellRead schema column p fun v => rowEffect schema.booleanTail present st i (column, v)) := by
  have hi : i < st.values.length := hst ▸ (List.getElem?_eq_some_iff.mp hcolumn).1
  cases p with
  | false =>
      rw [decodeColumn, index_eq_ok_iff.mpr hp, lift_ok_bind]
      apply (Reads.pure st).congr
      intro s f
      rw [cellRead_null_iff (by simp [inBody])]
      simp [rowEffect, hp]
  | true =>
      by_cases hc : column.columnType = .boolean
      · exact decodeColumn_boolean_reads hi hc hp (by simpa [hc] using hrun)
      · rw [decodeColumn, index_eq_ok_iff.mpr hp, lift_ok_bind]
        simp only [Bool.not_true, Bool.false_eq_true, ↓reduceIte, hc]
        exact field_reads hc (decodeNonBoolean_reads i column schema hc) fun v hv => store_eq hv hi (.inr hc)

theorem storeRun_eq {order : BitOrder} (horder : runOrder schema.booleanTail = some order) {st : RowState}
    (hst : st.values.length = schema.columns.length) {i r : Nat} (hi : i + r ≤ schema.columns.length)
    {bools : List Bool} {bytes : Bytes} (hlen : bools.length = r) (hbools : Packs order bools bytes) :
    storeRun schema.booleanTail bytes i r st = .ok (applyCells (rowEffect schema.booleanTail present) st i
      (((schema.columns.drop i).zip (bools.map .boolean)).take (schema.columns.length - i))) := by
  subst hlen
  have hstep (s : RowState) (j : Nat) (column : ColumnDef) (b : Bool)
      (hs : s.values.length = schema.columns.length) (hc : schema.columns[i + j]? = some column)
      (hb : bools[j]? = some b) :
      (inlinePackedBooleanBit schema.booleanTail bytes j >>= fun bit => s.store (i + j) (.boolean bit)) =
        .ok (rowEffect schema.booleanTail present s (i + j) (column, .boolean b)) := by
    obtain ⟨hj, rfl⟩ := List.getElem?_eq_some_iff.mp hb
    have hbit := hbools.2 j hj
    have hbyte : j / 8 < bytes.length := hbools.1 ▸ lt_byteCount hj
    rw [inlinePackedBooleanBit_eq horder hbyte, hbit]
    exact store_eq (by simp) (hs ▸ (List.getElem?_eq_some_iff.mp hc).1) (.inl (hasTail_of_runOrder horder))
  have hinv (s : RowState) (j : Nat) (cell : Cell) (hs : s.values.length = schema.columns.length) :
      (rowEffect schema.booleanTail present s j cell).values.length = schema.columns.length := by
    rw [rowEffect]
    split <;> simpa using hs
  have hrun := foldlM_run hinv hstep hst le_rfl hi
  rw [List.take_of_length_le (by simp)] at hrun
  rw [List.take_of_length_le (by simp)]
  exact hrun

/-- One iteration reads one cell, or a whole run at its first column. -/
theorem decodeColumn_visits (hlen : present.length = schema.columns.length) :
    Visits row row.length schema.columns.length schema present (decodeColumn row schema present)
      (rowEffect schema.booleanTail present) (fun st => st.values.length = schema.columns.length) where
  inv s i cell hs := by
    rw [rowEffect]
    split <;> simpa using hs
  single hs _ hc hp hrun := decodeColumn_reads hs hc hp hrun
  run {s i column order} hs _ hcolumn horder hboolean hfresh := by
    obtain ⟨c, hc, hb, hp⟩ := hboolean
    obtain rfl : column = c := by simpa [hcolumn] using hc
    obtain ⟨hle, -⟩ := runLength_le (schema.columns.drop i) (present.drop i)
    rw [List.length_drop] at hle
    have hi := (List.getElem?_eq_some_iff.mp hcolumn).1
    have heq : decodeColumn row schema present s i column =
        take row (byteCount (runLength (schema.columns.drop i) (present.drop i))) i >>= fun bytes =>
          lift (storeRun schema.booleanTail bytes i (runLength (schema.columns.drop i) (present.drop i)) s) := by
      rw [decodeColumn, index_eq_ok_iff.mpr hp, lift_ok_bind, hfresh, lift_ok_bind, inlineBooleanRunEnd_eq hlen,
        lift_ok_bind, subtract_of_le (Nat.le_add_right _ _), lift_ok_bind, Nat.add_sub_cancel_left]
      cases hl : schema.booleanTail <;> rw [hl] at horder <;> cases horder <;> simp [hb]
    rw [heq]
    exact run_reads fun bools bytes hbl hpacks => storeRun_eq horder hs (by omega) hbl hpacks
  interior {s i column order} hcolumn horder hboolean hruns := by
    obtain ⟨c, hc, hb, hp⟩ := hboolean
    obtain rfl : column = c := by simpa [hcolumn] using hc
    rw [decodeColumn, index_eq_ok_iff.mpr hp, lift_ok_bind, hruns, lift_ok_bind]
    cases hl : schema.booleanTail <;> rw [hl] at horder <;> cases horder <;> simp [hb]

end OpenSqlAny.RowReading
