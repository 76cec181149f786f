import OpenSqlAny.RowHeader
import OpenSqlAny.RowTail

namespace OpenSqlAny.RowSoundness

open Library.Faults Library.CursorReader Library.LittleEndian Library.PackedBits
open RowTypes RowDecoder RowGrammar RowLoop RowReading RowTail RowHeader

variable {schema : RowSchema} {row input : Bytes} {present : List Bool}

theorem applyCells_rowEffect {layout : BooleanTailLayout} {columns : List ColumnDef} {ps : List Bool}
    {vs before : List Value} (h : Linked layout columns ps vs) (hps : present.drop before.length = ps)
    (pending : List Nat) :
    applyCells (rowEffect layout present) ⟨before ++ List.replicate columns.length .null, pending⟩ before.length
      (columns.zip vs) =
        ⟨before ++ vs, pending ++ (tailColumns layout columns ps before.length).map (·.2)⟩ := by
  induction h generalizing before pending with
  | nil => simp [applyCells, tailColumns]
  | @cons column p value columns ps vs head rest ih =>
      have hhead : present[before.length]? = some p := by
        rw [← List.head?_drop, hps, List.head?_cons]
      have hrest : present.drop (before ++ [value]).length = ps := by
        rw [List.length_append, List.length_singleton, ← List.tail_drop, hps, List.tail_cons]
      have hvalues : (if value = .null then before ++ List.replicate (columns.length + 1) Value.null
          else (before ++ List.replicate (columns.length + 1) Value.null).set before.length value) =
            (before ++ [value]) ++ List.replicate columns.length .null := by
        rw [List.replicate_succ]
        split
        next hv => simp [hv]
        next hv => simp [List.set_append_right]
      have hnext (qs : List Nat) := @ih (before ++ [value]) hrest qs
      rw [List.length_append, List.length_singleton] at hnext
      rw [List.zip_cons_cons, applyCells, List.length_cons]
      simp only [rowEffect, hvalues, hhead, Option.some.injEq, tailColumns]
      rw [hnext]
      by_cases hb : hasTail layout = true ∧ column.columnType = .boolean ∧ p = true
      · simp [hb]
      · simp [hb]

def startState (schema : RowSchema) : RowState := ⟨List.replicate schema.columns.length .null, []⟩

theorem decodeColumns_reads (hlen : present.length = schema.columns.length) :
    Reads row row.length (decodeColumns row schema present schema.columns 0 (startState schema))
      (fun st f => ∃ vs, Linked schema.booleanTail schema.columns present vs ∧
        FieldsRepr schema schema.columns.length (schema.columns.zip vs) f ∧
        st = ⟨vs, (tailColumns schema.booleanTail schema.columns present 0).map (·.2)⟩) := by
  have hfresh : Fresh schema present 0 := fun _ _ => rfl
  have h := (@decodeColumn_visits row schema present hlen).reads hlen le_rfl schema.columns.length 0 (startState schema)
    (by omega) hfresh (by simp [startState])
  simp only [ReadsFrom, Nat.sub_zero, List.drop_zero, List.take_length] at h
  refine h.congr fun st f => exists_congr fun vs => and_congr_right fun hvs => and_congr_right fun _ => ?_
  rw [List.take_of_length_le (by simp)]
  exact Eq.congr_right (@applyCells_rowEffect present _ _ _ _ [] hvs rfl [])

def decodeFrom (schema : RowSchema) (header : RowHeaderAndPresence) : Outcome DecodeError DecodedRow := do
  let (st, cursor) ←
    runFrom (decodeColumns header.row schema header.present schema.columns 0 (startState schema)) header.cursor
  let remaining := header.row.length - cursor
  let needed := requiredTail schema.booleanTail st.boolValues.length
  if remaining < needed then fail (.truncatedBooleanTail needed remaining)
  else do
    let tail ← slice header.row cursor (cursor + needed)
    let values ← decodeTail schema.booleanTail tail st.boolValues st.values
    pure ⟨header.declaredSize, cursor + needed, header.flags, values⟩

theorem decodeRow_eq (hlen : 2 ≤ input.length) :
    decodeRow input schema = rowHeaderAndPresence input schema >>= decodeFrom schema := by
  rw [decodeRow, if_neg (by omega)]
  rfl

def readTail (schema : RowSchema) (header : RowHeaderAndPresence) (st : RowState) (cursor : Nat) :
    Outcome DecodeError DecodedRow :=
  let remaining := header.row.length - cursor
  let needed := requiredTail schema.booleanTail st.boolValues.length
  if remaining < needed then fail (.truncatedBooleanTail needed remaining)
  else do
    let tail ← slice header.row cursor (cursor + needed)
    let values ← decodeTail schema.booleanTail tail st.boolValues st.values
    pure ⟨header.declaredSize, cursor + needed, header.flags, values⟩

theorem decodeFrom_eq_bind (header : RowHeaderAndPresence) : decodeFrom schema header =
    runFrom (decodeColumns header.row schema header.present schema.columns 0 (startState schema)) header.cursor >>=
      fun s => readTail schema header s.1 s.2 := rfl

theorem readTail_spec (header : RowHeaderAndPresence) {cursor : Nat} (hcursor : cursor ≤ header.row.length)
    {ps : List Bool} {vs : List Value} (hvs : Linked schema.booleanTail schema.columns ps vs)
    {st : RowState} (hst : st = ⟨vs, (tailColumns schema.booleanTail schema.columns ps 0).map (·.2)⟩) :
    readTail schema header st cursor ≠ .error .panic ∧ ∀ r, readTail schema header st cursor = .ok r ↔
      r.declaredSize = header.declaredSize ∧ r.flags = header.flags ∧ ∃ bools tail,
        Merged schema.booleanTail schema.columns ps vs bools r.values ∧
        TailRepr schema.booleanTail (schema.columns.zip r.values) tail ∧
        tail <+: header.row.drop cursor ∧ r.consumedSize = cursor + tail.length := by
  subst hst
  set needed := requiredTail schema.booleanTail (tailColumns schema.booleanTail schema.columns ps 0).length
    with hneeded
  have hlength {bools : List Bool} {fs : List Value} {tail : Bytes}
      (hm : Merged schema.booleanTail schema.columns ps vs bools fs)
      (ht : TailRepr schema.booleanTail (schema.columns.zip fs) tail) : tail.length = needed := hm.length_tail ht
  rw [readTail]
  simp only [List.length_map, ← hneeded]
  split
  next hshort =>
    refine ⟨by simp [fail], fun r => iff_of_false (by simp [fail]) ?_⟩
    rintro ⟨-, -, bools, tail, hm, ht, hbegins, -⟩
    have := prefix_end_le hcursor hbegins
    rw [hlength hm ht] at this
    omega
  next hroom =>
    rw [slice_of_le (by omega) (by omega)]
    set rest := (header.row.take (cursor + needed)).drop cursor with hrest
    have hlen : rest.length = needed := by
      simp only [hrest, List.length_drop, List.length_take]
      omega
    obtain ⟨hne, hok⟩ := decodeTail_spec hvs hlen
    refine ⟨bind_ne_panic (x := Except.ok rest) (by simp) fun _ h => ?_, fun r => ?_⟩
    · obtain rfl := Except.ok.inj h
      exact bind_ne_panic hne (by simp [pure, Except.pure])
    change (decodeTail schema.booleanTail rest _ vs >>= _) = _ ↔ _
    simp only [Library.Faults.bind_eq_ok_iff, hok, pure, Except.pure, Except.ok.injEq]
    constructor
    · rintro ⟨fs, ⟨bools, hm, hh⟩, rfl⟩
      have ht := hm.tailRepr_iff.mpr ⟨hlen.trans (by rw [hneeded, hm.length_bools]), hh⟩
      refine ⟨rfl, rfl, bools, rest, hm, ht, ?_, by rw [hlen]⟩
      rw [hrest, List.drop_take]
      exact List.take_prefix _ _
    · rintro ⟨hsize, hflags, bools, tail, hm, ht, hbegins, hconsumed⟩
      have htail : rest = tail := by
        rw [hrest, List.drop_take, Nat.add_sub_cancel_left, ← hlength hm ht]
        exact (List.prefix_iff_eq_take.mp hbegins).symm
      refine ⟨r.values, ⟨bools, hm, (hm.tailRepr_iff.mp (htail ▸ ht)).2⟩, ?_⟩
      rw [← hlength hm ht, ← hsize, ← hflags, ← hconsumed]

theorem decodeFrom_spec (schema : RowSchema) (row : Bytes) (hheader : headerLen schema ≤ row.length) :
    decodeFrom schema (headerOf schema row) ≠ .error .panic ∧
    ∀ r, decodeFrom schema (headerOf schema row) = .ok r ↔ r.declaredSize = row.length ∧ r.flags = 0 ∧
      ∃ vs bools fields tail,
        Merged schema.booleanTail schema.columns (presenceFlags schema (bitmapOf schema row)) vs bools r.values ∧
        FieldsRepr schema schema.columns.length (schema.columns.zip vs) fields ∧
        TailRepr schema.booleanTail (schema.columns.zip r.values) tail ∧
        fields ++ tail <+: row.drop (headerLen schema) ∧
        r.consumedSize = headerLen schema + fields.length + tail.length := by
  have hreads := @decodeColumns_reads schema row _ (@length_presenceFlags schema (bitmapOf schema row))
  have hok := hreads.ok_iff hheader
  rw [decodeFrom_eq_bind]
  refine ⟨bind_ne_panic (hreads.safe.runFrom_ne_panic hheader) fun s hs => ?_, fun r => ?_⟩
  · obtain ⟨fields, ⟨vs, hvs, hfields, hst⟩, hbegins, hcursor, hle⟩ := (hok _ _).mp (runFrom_eq_ok_iff.mp hs)
    exact (readTail_spec (headerOf schema row) hle hvs hst).1
  rw [Library.Faults.bind_eq_ok_iff]
  constructor
  · rintro ⟨⟨st, cursor⟩, hrun, htail⟩
    obtain ⟨fields, ⟨vs, hvs, hfields, hst⟩, hbegins, rfl, hle⟩ := (hok _ _).mp (runFrom_eq_ok_iff.mp hrun)
    obtain ⟨hsize, hflags, bools, tail, hm, ht, htbegins, hconsumed⟩ :=
      ((readTail_spec (headerOf schema row) hle hvs hst).2 r).mp htail
    exact ⟨hsize, hflags, vs, bools, fields, tail, hm, hfields, ht, prefix_append_iff.mpr ⟨hbegins, htbegins⟩,
      hconsumed⟩
  · rintro ⟨hsize, hflags, vs, bools, fields, tail, hm, hfields, ht, hbegins, hconsumed⟩
    obtain ⟨hfbegins, htbegins⟩ := prefix_append_iff.mp hbegins
    have hle := prefix_end_le hheader hfbegins
    refine ⟨(_, headerLen schema + fields.length), runFrom_eq_ok_iff.mpr
      ((hok _ _).mpr ⟨fields, ⟨vs, hm.linked, hfields, rfl⟩, hfbegins, rfl, hle⟩), ?_⟩
    exact ((readTail_spec (headerOf schema row) hle hm.linked rfl).2 r).mpr
      ⟨hsize, hflags, bools, tail, hm, ht, htbegins, hconsumed⟩

theorem decodeRow_eq_ok_iff_body {r : DecodedRow} : decodeRow input schema = .ok r ↔
    HeaderValid schema input r.declaredSize ∧ r.flags = 0 ∧ ∃ vs bools fields tail,
      Merged schema.booleanTail schema.columns
        (presenceFlags schema (bitmapOf schema (input.take r.declaredSize))) vs bools r.values ∧
      FieldsRepr schema schema.columns.length (schema.columns.zip vs) fields ∧
      TailRepr schema.booleanTail (schema.columns.zip r.values) tail ∧
      fields ++ tail <+: (input.take r.declaredSize).drop (headerLen schema) ∧
      r.consumedSize = headerLen schema + fields.length + tail.length := by
  by_cases hlen : 2 ≤ input.length
  case neg =>
    apply iff_of_false (by simp [decodeRow, fail, show input.length < 2 by omega])
    intro h
    have h₁ := h.1.le_size
    have h₂ := h.1.size_le
    omega
  have hspec {size : Nat} (hv : HeaderValid schema input size) :=
    (decodeFrom_spec schema (input.take size) (by rw [hv.length_row]; exact hv.fits)).2 r
  rw [decodeRow_eq hlen, Library.Faults.bind_eq_ok_iff]
  simp only [rowHeaderAndPresence_eq_ok_iff hlen]
  constructor
  · rintro ⟨_, ⟨size, hv, rfl⟩, h⟩
    obtain ⟨hsize, hflags, hbody⟩ := (hspec hv).mp h
    rw [hv.length_row] at hsize
    subst hsize
    exact ⟨hv, hflags, hbody⟩
  · rintro ⟨hv, hflags, hbody⟩
    exact ⟨_, ⟨_, hv, rfl⟩, (hspec hv).mpr ⟨hv.length_row.symm, hflags, hbody⟩⟩

theorem bitmapRepr_iff {bitmap : Bytes} {values : List Value} (hlen : values.length = schema.columns.length) :
    BitmapRepr schema values bitmap ↔ bitmap.length = byteCount schema.nullBitmapBitCount ∧
      Agrees (presenceFlags schema bitmap) values := by
  rw [BitmapRepr, Agrees, List.forall₂_iff_get]
  refine and_congr_right fun _ => ⟨fun h => ⟨by simp [hlen], fun i hi hi' => ?_⟩, fun h i column hi => ?_⟩
  · have hc : i < schema.columns.length := by simpa using hi
    have := h i _ (List.getElem?_eq_getElem hc)
    rw [List.getElem?_eq_getElem hi', Ne, Option.some.injEq] at this
    rw [List.get_eq_getElem, List.get_eq_getElem]
    simpa [presenceFlags, presenceFlag, imp_iff_not_or] using this
  · obtain ⟨hc, rfl⟩ := List.getElem?_eq_some_iff.mp hi
    have := h.2 i (by simpa using hc) (hlen ▸ hc)
    rw [List.get_eq_getElem, List.get_eq_getElem] at this
    rw [List.getElem?_eq_getElem (hlen ▸ hc), Ne, Option.some.injEq]
    simpa [presenceFlags, presenceFlag, imp_iff_not_or] using this

theorem header_append {word carrier bitmap : Bytes} (hword : word.length = 2)
    (hcarrier : carrier.length = carrierLen schema.rowPrefixLayout)
    (hbitmap : bitmap.length = byteCount schema.nullBitmapBitCount) (rest : Bytes) :
    bitmapOf schema (word ++ carrier ++ bitmap ++ rest) = bitmap ∧
      (word ++ carrier ++ bitmap ++ rest).drop (headerLen schema) = rest := by
  have hlen : (word ++ carrier ++ bitmap).length = headerLen schema := by
    simp [headerLen, hword, hcarrier, hbitmap, Nat.add_assoc]
  rw [bitmapOf]
  constructor
  · rw [List.take_left' hlen, List.drop_left' (by simp [hword, hcarrier])]
  · rw [List.drop_left' hlen]

theorem header_split {word : Bytes} (hword : word.length = 2) (hbegins : word <+: row)
    (hfits : headerLen schema ≤ row.length) :
    ∃ carrier, carrier.length = carrierLen schema.rowPrefixLayout ∧
      (bitmapOf schema row).length = byteCount schema.nullBitmapBitCount ∧
      row = word ++ carrier ++ bitmapOf schema row ++ row.drop (headerLen schema) := by
  obtain ⟨body, rfl⟩ := hbegins
  refine ⟨body.take (carrierLen schema.rowPrefixLayout), ?_, ?_, ?_⟩
  · rw [List.length_append] at hfits
    rw [headerLen] at hfits
    rw [List.length_take]
    omega
  · rw [bitmapOf, List.length_drop, List.length_take, Nat.min_eq_left hfits]
    rw [headerLen]
    omega
  · have h₁ : (word ++ body).take (2 + carrierLen schema.rowPrefixLayout) =
        word ++ body.take (carrierLen schema.rowPrefixLayout) := by
      rw [← hword, List.take_length_add_append]
    rw [← h₁]
    rw [bitmapOf]
    have h₂ : 2 + carrierLen schema.rowPrefixLayout ≤ headerLen schema := Nat.le_add_right _ _
    conv_lhs => rw [← List.take_append_drop (headerLen schema) (word ++ body)]
    congr 1
    conv_lhs => rw [← List.take_append_drop (2 + carrierLen schema.rowPrefixLayout)
      ((word ++ body).take (headerLen schema)), List.take_take, Nat.min_eq_left h₂]

theorem decodeRow_eq_ok_iff_rowRepr {r : DecodedRow} : decodeRow input schema = .ok r ↔ RowRepr schema input r := by
  rw [decodeRow_eq_ok_iff_body]
  constructor
  · rintro ⟨hv, hflags, vs, bools, fields, tail, hm, hfields, ht, hbegins, hconsumed⟩
    have hrow := hv.length_row
    have hword : toLeBytes 2 r.declaredSize <+: input.take r.declaredSize := by
      rw [List.prefix_take_iff]
      exact ⟨hv.word, by simpa using hv.le_size⟩
    obtain ⟨carrier, hcarrier, hbitmap, hsplit⟩ := header_split (length_toLeBytes 2 _) hword (hrow.symm ▸ hv.fits)
    have hend := prefix_end_le (hrow.symm ▸ hv.fits) hbegins
    rw [hrow, List.length_append] at hend
    have hvalues : r.values.length = schema.columns.length := by
      simpa using hm.agrees.length_eq.symm
    refine ⟨hv.le_size, hv.size_le, hv.size_lt, hflags, by omega, hvalues, carrier, _, fields, tail, ?_, hcarrier,
      (bitmapRepr_iff hvalues).mpr ⟨hbitmap, hm.agrees⟩, hm.bodyCells ▸ hfields, ht⟩
    obtain ⟨rest, hrest⟩ := hbegins
    rw [← hrest] at hsplit
    have htake : input.take r.consumedSize = (input.take r.declaredSize).take r.consumedSize := by
      rw [List.take_take, Nat.min_eq_left (by omega)]
    generalize bitmapOf schema (input.take r.declaredSize) = bitmap at *
    rw [htake, hsplit, ← List.append_assoc, ← List.append_assoc]
    refine List.take_left' ?_
    rw [hconsumed, headerLen]
    simp [hcarrier, hbitmap, Nat.add_assoc]
  · rintro ⟨hle, hsize, hlt, hflags, hconsumed, hvalues, carrier, bitmap, fields, tail, hf, hcarrier, hbitmap,
      hfields, ht⟩
    have hlen : r.consumedSize = headerLen schema + fields.length + tail.length := by
      have := congrArg List.length hf
      rw [List.length_take, Nat.min_eq_left (by omega)] at this
      simpa [hcarrier, hbitmap.1, headerLen, Nat.add_assoc] using this
    have hrow : input.take r.declaredSize = toLeBytes 2 r.declaredSize ++ carrier ++ bitmap ++
        (fields ++ tail ++ (input.take r.declaredSize).drop r.consumedSize) := by
      conv_lhs => rw [← List.take_append_drop r.consumedSize (input.take r.declaredSize), List.take_take,
        Nat.min_eq_left hconsumed, hf]
      simp only [List.append_assoc]
    obtain ⟨hb, hd⟩ := header_append (length_toLeBytes 2 r.declaredSize) hcarrier hbitmap.1
      (fields ++ tail ++ (input.take r.declaredSize).drop r.consumedSize)
    rw [← hrow] at hb hd
    have hagrees := ((bitmapRepr_iff hvalues).mp hbitmap).2
    obtain ⟨bools, hbools⟩ := tailRepr_booleans ht
    obtain ⟨vs, hm⟩ := merged_exists hvalues.symm hagrees hbools
    refine ⟨⟨hle, hsize, hlt, ?_, by omega⟩, hflags, vs, bools, fields, tail, hb ▸ hm, hm.bodyCells ▸ hfields, ht,
      ?_, hlen⟩
    · refine List.IsPrefix.trans ?_ (List.take_prefix r.consumedSize input)
      rw [hf, List.append_assoc, List.append_assoc, List.append_assoc]
      exact List.prefix_append _ _
    · rw [hd]
      exact List.prefix_append _ _

/-- The decoder accepts exactly the rows of the grammar, and gives back the
values that a row was serialized from, whatever follows it. -/
theorem decodeRow_grammar (schema : RowSchema) :
    (∀ input r, decodeRow input schema = .ok r ↔ RowRepr schema input r) ∧
    ∀ size values f rest, Serializes schema size values f → f.length ≤ size → size < 2 ^ 13 →
      size ≤ (f ++ rest).length → decodeRow (f ++ rest) schema = .ok ⟨size, f.length, 0, values⟩ := by
  refine ⟨fun input r => decodeRow_eq_ok_iff_rowRepr, fun size values f rest hf hsize hlt hroom => ?_⟩
  have hword : 2 ≤ f.length := by
    obtain ⟨-, _, _, _, _, rfl, -⟩ := hf
    simp only [List.length_append, length_toLeBytes]
    omega
  refine decodeRow_eq_ok_iff_rowRepr.mpr ⟨hword.trans hsize, hroom, hlt, rfl, hsize, ?_⟩
  simpa using hf

def smallIntSchema : RowSchema := { columns := [⟨1, .smallInt, 2, true⟩] }

/-- A value that is absent, one of variable length and one from the Boolean tail before the last field. -/
def mixedSchema : RowSchema :=
  { columns := [⟨1, .smallInt, 2, true⟩, ⟨2, .char, 10, true⟩, ⟨3, .boolean, 1, false⟩, ⟨4, .smallInt, 2, false⟩] }

theorem decodeRow_grammar_mixed :
    decodeRow ([9, 0, 0x40, 2, 0x41, 0x42, 2, 1, 1] ++ [7]) mixedSchema =
      .ok ⟨9, 9, 0, [.null, .bytes [0x41, 0x42], .boolean true, .integer 258]⟩ := by
  obtain ⟨haccepts, hserialized⟩ := decodeRow_grammar mixedSchema
  have hrepr := (haccepts [9, 0, 0x40, 2, 0x41, 0x42, 2, 1, 1]
    ⟨9, 9, 0, [.null, .bytes [0x41, 0x42], .boolean true, .integer 258]⟩).mp (by decide)
  exact hserialized 9 _ [9, 0, 0x40, 2, 0x41, 0x42, 2, 1, 1] [7] hrepr.body (by decide) (by decide) (by decide)

end OpenSqlAny.RowSoundness
