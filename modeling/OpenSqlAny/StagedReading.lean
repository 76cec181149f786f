import OpenSqlAny.RowSoundness

namespace OpenSqlAny.StagedReading

open Library.Faults Library.CursorReader Library.LittleEndian Library.PackedBits
open RowTypes RowDecoder RowGrammar RowFields RowLoop RowReading RowTail

variable {row : Bytes} {schema : RowSchema} {present : List Bool} {through tailStart : Nat}

theorem isInlineBooleanLayout_eq (layout : BooleanTailLayout) : isInlineBooleanLayout layout = !hasTail layout := by
  cases layout <;> rfl

def prefixEffect (st : PrefixState) (i : Nat) (cell : Cell) : PrefixState :=
  if cell.1.columnType = .boolean then
    match cell.2 with
    | .boolean b => st.pushBoolean i cell.1 b
    | _ => st
  else st.pushValue i cell.1 cell.2

theorem prefixEffect_boolean {st : PrefixState} {i : Nat} {column : ColumnDef} (hc : column.columnType = .boolean)
    (b : Bool) : prefixEffect st i (column, .boolean b) = st.pushBoolean i column b := by
  simp [prefixEffect, hc]

theorem decodePrefixColumn_boolean_reads
    (hinline : hasTail schema.booleanTail = false → tailStart = row.length) {st : PrefixState} {i : Nat}
    {column : ColumnDef} (hc : column.columnType = .boolean) {p : Bool} (hp : present[i]? = some p)
    (hrun : runOrder schema.booleanTail = none ∨ p = false) :
    Reads row tailStart (decodePrefixColumn row schema present through tailStart st i column)
      (CellRead schema column p fun v => prefixEffect st i (column, v)) := by
  rw [decodePrefixColumn, index_eq_ok_iff.mpr hp, if_pos hc, lift_ok_bind]
  cases p with
  | false =>
      apply (Reads.pure st).congr
      intro s f
      rw [cellRead_null_iff (by simp [inBody])]
      simp [prefixEffect, hc]
  | true =>
      simp only [Bool.not_true, Bool.false_eq_true, ↓reduceIte]
      cases hl : schema.booleanTail with
      | inlineBytes =>
          obtain rfl := hinline (by rw [hl]; rfl)
          apply (inlineByte_reads i fun b => st.pushBoolean i column b).congr
          intro s f
          rw [cellRead_boolean_iff hc (by rw [hl]; rfl)]
          simp [inlineBoolean, hl, eq_comm, prefixEffect_boolean hc]
      | inlineU16Le =>
          obtain rfl := hinline (by rw [hl]; rfl)
          apply (inlineU16_reads i fun b => st.pushBoolean i column b).congr
          intro s f
          rw [cellRead_boolean_iff hc (by rw [hl]; rfl)]
          simp [inlineBoolean, hl, eq_comm, prefixEffect_boolean hc]
      | bytes | packedMsbFirst =>
          apply (Reads.pure st).congr
          intro s f
          rw [cellRead_null_iff (by simp [inBody, hl, hasTail, hc])]
          simp [prefixEffect, hc]
      | inlinePackedRunsMsbFirst | inlinePackedRunsLsbFirst => simp [hl, runOrder] at hrun

theorem decodePrefixColumn_field_reads (hlimit : tailStart ≤ row.length)
    (hinline : hasTail schema.booleanTail = false → tailStart = row.length) {st : PrefixState} {i : Nat}
    {column : ColumnDef} (hc : column.columnType ≠ .boolean) {p : Bool} (hp : present[i]? = some p) :
    Reads row tailStart (decodePrefixColumn row schema present through tailStart st i column)
      (CellRead schema column p fun v => prefixEffect st i (column, v)) := by
  have heffect (v : Value) : prefixEffect st i (column, v) = st.pushValue i column v := by
    simp [prefixEffect, hc]
  rw [decodePrefixColumn, index_eq_ok_iff.mpr hp, if_neg hc, lift_ok_bind]
  simp only [heffect]
  cases p with
  | false =>
      apply (Reads.pure _).congr
      intro s f
      rw [cellRead_null_iff (by simp [inBody])]
  | true =>
      have hfield := @decodeNonBoolean_reads row i column schema hc
      simp only [Bool.not_true, Bool.false_eq_true, ↓reduceIte, isInlineBooleanLayout_eq]
      cases hl : hasTail schema.booleanTail with
      | false =>
          obtain rfl := hinline hl
          exact field_reads hc hfield fun v _ => rfl
      | true =>
          -- the field has to end before the sidecar
          have h := field_reads (x := fun v => .ok (st.pushValue i column v)) hc
            (Reads.guarded hlimit hfield (.prefixOverlapsBooleanTail i)) fun v _ => rfl
          simp only [bind_assoc] at h
          exact h

theorem takeWhile_range (n t i : Nat) :
    (List.range n).takeWhile (fun o => decide (i + o < t)) = List.range (min n (t - i)) := by
  induction n with
  | zero => simp
  | succ n ih =>
      by_cases h : n < t - i
      · rw [Nat.min_eq_left (by omega), List.takeWhile_eq_self_iff]
        intro o ho
        have := List.mem_range.mp ho
        simp only [decide_eq_true_eq]
        omega
      · rw [List.range_succ, List.takeWhile_append, ih, Nat.min_eq_right (by omega),
          Nat.min_eq_right (a := n + 1) (by omega)]
        split
        next hlen =>
          obtain rfl : t - i = n := by simpa using hlen
          simp [show ¬ i + (t - i) < t by omega]
        next => rfl

theorem pushRun_eq {order : BitOrder} (horder : runOrder schema.booleanTail = some order) {st : PrefixState}
    {i r : Nat} (hi : i + r ≤ schema.columns.length) (hcolumns : ∀ j < r, IsBoolean schema present (i + j))
    {bools : List Bool} {bytes : Bytes} (hlen : bools.length = r) (hbools : Packs order bools bytes) :
    pushRun schema bytes through i r st = .ok (applyCells prefixEffect st i
      (((schema.columns.drop i).zip (bools.map .boolean)).take (through - i))) := by
  subst hlen
  have hstep (s : PrefixState) (j : Nat) (column : ColumnDef) (b : Bool) (_ : True)
      (hc : schema.columns[i + j]? = some column) (hb : bools[j]? = some b) :
      (do
        let column ← index schema.columns (i + j)
        let bit ← inlinePackedBooleanBit schema.booleanTail bytes j
        pure (s.pushBoolean (i + j) column bit) : Outcome DecodeError PrefixState) =
          .ok (prefixEffect s (i + j) (column, .boolean b)) := by
    obtain ⟨hj, rfl⟩ := List.getElem?_eq_some_iff.mp hb
    have hbyte : j / 8 < bytes.length := hbools.1 ▸ lt_byteCount hj
    obtain ⟨c, hc', hbool, -⟩ := hcolumns j hj
    obtain rfl : column = c := by simpa [hc] using hc'
    rw [index_eq_ok_iff.mpr hc, inlinePackedBooleanBit_eq horder hbyte, hbools.2 j hj, prefixEffect_boolean hbool]
    rfl
  rw [pushRun, takeWhile_range]
  have hrun := foldlM_run (fun _ _ _ _ => trivial) hstep (s := st) trivial (n := min bools.length (through - i))
    (by omega) hi
  rw [hrun, Nat.min_comm, ← List.take_take, List.take_of_length_le (i := bools.length) (by simp)]

theorem decodePrefixColumn_visits (hlen : present.length = schema.columns.length) (hlimit : tailStart ≤ row.length)
    (hinline : hasTail schema.booleanTail = false → tailStart = row.length) :
    Visits row tailStart through schema present (decodePrefixColumn row schema present through tailStart)
      prefixEffect (fun _ => True) where
  inv _ _ _ _ := trivial
  single {s i column p} _ _ _ hp hrun := by
    by_cases hc : column.columnType = .boolean
    · exact decodePrefixColumn_boolean_reads hinline hc hp (by simpa [hc] using hrun)
    · exact decodePrefixColumn_field_reads hlimit hinline hc hp
  run {s i column order} _ _ hcolumn horder hboolean hfresh := by
    obtain ⟨c, hc, hb, hp⟩ := hboolean
    obtain rfl : column = c := by simpa [hcolumn] using hc
    obtain rfl := hinline (hasTail_of_runOrder horder)
    obtain ⟨hle, -⟩ := runLength_le (schema.columns.drop i) (present.drop i)
    rw [List.length_drop] at hle
    have hi := (List.getElem?_eq_some_iff.mp hcolumn).1
    have heq : decodePrefixColumn row schema present through row.length s i column =
        take row (byteCount (runLength (schema.columns.drop i) (present.drop i))) i >>= fun bytes =>
          lift (pushRun schema bytes through i (runLength (schema.columns.drop i) (present.drop i)) s) := by
      rw [decodePrefixColumn]
      rw [if_pos hb, index_eq_ok_iff.mpr hp, lift_ok_bind, hfresh, lift_ok_bind, inlineBooleanRunEnd_eq hlen,
        lift_ok_bind, subtract_of_le (Nat.le_add_right _ _), lift_ok_bind, Nat.add_sub_cancel_left]
      cases hl : schema.booleanTail <;> rw [hl] at horder <;> cases horder <;> simp
    rw [heq]
    exact run_reads fun bools bytes hbl hpacks =>
      pushRun_eq horder (by omega) (fun j hj => isBoolean_of_lt_runLength hlen hj) hbl hpacks
  interior {s i column order} hcolumn horder hboolean hruns := by
    obtain ⟨c, hc, hb, hp⟩ := hboolean
    obtain rfl : column = c := by simpa [hcolumn] using hc
    rw [decodePrefixColumn, if_pos hb, index_eq_ok_iff.mpr hp, lift_ok_bind, hruns, lift_ok_bind]
    cases hl : schema.booleanTail <;> rw [hl] at horder <;> cases horder <;> simp

/-- The staged loop reads exactly the fields up to the ordinal, within its limit. -/
theorem decodePrefixColumns_reads (hlen : present.length = schema.columns.length)
    (hthrough : through ≤ schema.columns.length) (hlimit : tailStart ≤ row.length)
    (hinline : hasTail schema.booleanTail = false → tailStart = row.length) :
    Reads row tailStart
      (decodePrefixColumns row schema present through tailStart (schema.columns.take through) 0 ⟨[], []⟩)
      (fun st f => ∃ vs, Linked schema.booleanTail schema.columns present vs ∧
        FieldsRepr schema through (schema.columns.zip vs) f ∧
        st = applyCells prefixEffect ⟨[], []⟩ 0 ((schema.columns.zip vs).take through)) := by
  have h := (@decodePrefixColumn_visits row schema present through tailStart hlen hlimit hinline).reads hlen hthrough
    schema.columns.length 0 ⟨[], []⟩ (by omega) (fun _ _ => rfl) trivial
  simp only [ReadsFrom, Nat.sub_zero, List.drop_zero] at h
  exact h

end OpenSqlAny.StagedReading
