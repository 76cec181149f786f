import OpenSqlAny.StagedAgreement

namespace OpenSqlAny.StagedStability

open Library.Faults Library.CursorReader Library.LittleEndian Library.PackedBits
open RowTypes RowDecoder RowGrammar RowTail RowHeader RowSoundness
open StagedReading StagedSoundness StagedAgreement

variable {schema : RowSchema} {through : Nat} {input input' row row' : Bytes} {q : PartialDecodedRow}

/-- The rows have one length and the same bytes outside an interval. -/
structure AgreeOutside (row row' : Bytes) (start stop : Nat) : Prop where
  length_eq : row'.length = row.length
  bytes_eq : ∀ i, i < start ∨ stop ≤ i → row'[i]? = row[i]?

theorem AgreeOutside.take_eq {start stop n : Nat} (h : AgreeOutside row row' start stop) (hn : n ≤ start) :
    row'.take n = row.take n := by
  apply List.ext_getElem?
  intro i
  rw [List.getElem?_take, List.getElem?_take]
  by_cases hi : i < n
  · rw [if_pos hi, if_pos hi]
    exact h.bytes_eq i (.inl (by omega))
  · rw [if_neg hi, if_neg hi]

theorem AgreeOutside.drop_eq {start stop n : Nat} (h : AgreeOutside row row' start stop) (hn : stop ≤ n) :
    row'.drop n = row.drop n := by
  apply List.ext_getElem?
  intro i
  rw [List.getElem?_drop, List.getElem?_drop]
  exact h.bytes_eq (n + i) (.inr (by omega))

theorem agreeOutside_append (front middle middle' back : Bytes) (h : middle'.length = middle.length) :
    AgreeOutside (front ++ middle ++ back) (front ++ middle' ++ back) front.length
      (front.length + middle.length) where
  length_eq := by simp only [List.length_append, h]
  bytes_eq := by
    rintro i (hi | hi)
    · rw [List.append_assoc, List.append_assoc, List.getElem?_append_left hi, List.getElem?_append_left hi]
    · have hlength : (front ++ middle').length = (front ++ middle).length := by simp only [List.length_append, h]
      have hi' : (front ++ middle).length ≤ i := by rwa [List.length_append]
      rw [List.getElem?_append_right hi', List.getElem?_append_right (hlength ▸ hi'), hlength]

def presentBooleanCount (schema : RowSchema) (row : Bytes) : Nat :=
  schema.columns.zipIdx.countP fun e =>
    decide (e.1.columnType = .boolean) && presenceFlag schema (bitmapOf schema row) e

def booleanTailLen (schema : RowSchema) (row : Bytes) : Nat :=
  requiredTail schema.booleanTail (presentBooleanCount schema row)

theorem presenceFlags_getElem? {bitmap : Bytes} {e : ColumnDef × Nat} (he : e ∈ schema.columns.zipIdx) :
    (presenceFlags schema bitmap)[e.2]? = some (presenceFlag schema bitmap e) := by
  rw [presenceFlags, List.getElem?_map, List.getElem?_zipIdx, Nat.zero_add, List.mem_zipIdx_iff_getElem?.mp he]
  rfl

theorem booleanColumns_row (schema : RowSchema) (row : Bytes) :
    ∃ cols, booleanColumns (presenceFlags schema (bitmapOf schema row)) schema.columns 0 = .ok cols ∧
      cols.length = presentBooleanCount schema row := by
  refine ⟨_, booleanColumns_eq length_presenceFlags, ?_⟩
  rw [← List.countP_eq_length_filter, presentBooleanCount]
  apply List.countP_congr
  intro e he
  rw [presenceFlags_getElem? he]
  simp

def prefixRun (schema : RowSchema) (through : Nat) (row : Bytes) : Outcome DecodeError (PrefixState × Nat) :=
  runFrom (decodePrefixColumns row schema (presenceFlags schema (bitmapOf schema row)) through
    (row.length - booleanTailLen schema row) (schema.columns.take through) 0 ⟨[], []⟩) (headerLen schema)

theorem prefixFrom_run (hheader : headerLen schema ≤ row.length)
    (h : prefixFrom schema through (headerOf schema row) = .ok q) :
    ∃ st cursor, prefixRun schema through row = .ok (st, cursor) ∧
      cursor + q.opaqueMiddleLen + booleanTailLen schema row = row.length := by
  obtain ⟨cols, hcols, hcount⟩ := booleanColumns_row schema row
  have hneeded : booleanTailLen schema row = requiredTail schema.booleanTail cols.length := by
    rw [booleanTailLen, hcount]
  rw [prefixFrom_eq rfl hcols hneeded hheader] at h
  by_cases hshort : booleanTailLen schema row > row.length - headerLen schema
  · rw [if_pos hshort] at h
    cases h
  rw [if_neg hshort] at h
  obtain ⟨⟨st, cursor⟩, hrun, h⟩ := Library.Faults.bind_eq_ok_iff.mp h
  obtain ⟨hcursor, st', -, rfl⟩ := closeStage_eq_ok_iff.mp h
  refine ⟨st, cursor, hrun, ?_⟩
  simp only
  omega

theorem tail_length {vs fs : List Value} {bools : List Bool} {tail : Bytes}
    (hm : Merged schema.booleanTail schema.columns (presenceFlags schema (bitmapOf schema row)) vs bools fs)
    (ht : TailRepr schema.booleanTail (schema.columns.zip fs) tail) : tail.length = booleanTailLen schema row := by
  obtain ⟨cols, hcols, hcount⟩ := booleanColumns_row schema row
  rw [hm.length_tail ht, ← (requiredTail_eq length_presenceFlags hcols).1, hcount, booleanTailLen]

theorem bitmapOf_of_agree {start stop : Nat} (h : AgreeOutside row row' start stop)
    (hheader : headerLen schema ≤ start) : bitmapOf schema row' = bitmapOf schema row := by
  rw [bitmapOf, bitmapOf, h.take_eq hheader]

theorem prefix_of_agree {start stop c : Nat} {fields : Bytes} (h : AgreeOutside row row' start stop)
    (hstart : start = c + fields.length) (hfields : fields <+: row.drop c) : fields <+: row'.drop c := by
  have hbegins : fields = (row.take start).drop c := by
    rw [hstart, List.drop_take, Nat.add_sub_cancel_left]
    exact List.prefix_iff_eq_take.mp hfields
  rw [hbegins, ← h.take_eq le_rfl, List.drop_take]
  exact List.take_prefix _ _

theorem suffix_of_agree {start stop : Nat} {tail : Bytes} (h : AgreeOutside row row' start stop)
    (hstop : stop = row.length - tail.length) (htail : tail <:+ row) : tail <:+ row' := by
  rw [List.suffix_iff_eq_drop.mp htail, ← hstop, ← h.drop_eq le_rfl]
  exact List.drop_suffix _ _

/-- The rows agree outside the opaque bytes, which end where the first row's tail begins. -/
def OpaqueAgree (schema : RowSchema) (q : PartialDecodedRow) (row row' : Bytes) : Prop :=
  AgreeOutside row row' (row.length - booleanTailLen schema row - q.opaqueMiddleLen)
    (row.length - booleanTailLen schema row)

theorem prefixFrom_of_agree (hle : through ≤ schema.columns.length) (hheader : headerLen schema ≤ row.length)
    (h : prefixFrom schema through (headerOf schema row) = .ok q) (hagree : OpaqueAgree schema q row row') :
    prefixFrom schema through (headerOf schema row') = .ok q ∧ row'.take (headerLen schema) = row.take (headerLen schema) := by
  obtain ⟨hsize, hflags, hthrough, vs, bools, fs, fields, tail, hm, hfields, ht, hbegins, hends, hsum, hpre, hbool⟩ :=
    ((prefixFrom_spec hle hheader).2 q).mp h
  have htail := tail_length hm ht
  rw [OpaqueAgree, ← htail] at hagree
  have hstart : row.length - tail.length - q.opaqueMiddleLen = headerLen schema + fields.length := by omega
  have hlength := hagree.length_eq
  have hstarts : headerLen schema ≤ row.length - tail.length - q.opaqueMiddleLen := by omega
  refine ⟨((prefixFrom_spec hle (by omega)).2 q).mpr ⟨by omega, hflags, hthrough, vs, bools, fs, fields, tail, ?_,
    hfields, ht, prefix_of_agree hagree hstart hbegins, suffix_of_agree hagree rfl hends, by omega, hpre, hbool⟩, hagree.take_eq hstarts⟩
  rw [bitmapOf_of_agree hagree hstarts]
  exact hm

theorem ordinal_of_ok (h : decodeRowPrefixAndBooleanTail input schema through = .ok q) :
    0 < through ∧ through ≤ schema.columns.length := by
  by_contra hrange
  rw [decodeRowPrefixAndBooleanTail, if_pos (by omega)] at h
  cases h

theorem headerValid_of_take {size : Nat} (hv : HeaderValid schema input size)
    (hlength : (input'.take size).length = (input.take size).length)
    (hheader : (input'.take size).take (headerLen schema) = (input.take size).take (headerLen schema)) :
    HeaderValid schema input' size := by
  have hle : size ≤ input'.length := by
    rw [hv.length_row, List.length_take] at hlength
    omega
  have htwo : 2 ≤ headerLen schema := by
    rw [headerLen]
    omega
  have hfits := hv.fits
  have hword : input'.take 2 = input.take 2 := by
    have h := congrArg (List.take 2) hheader
    rw [List.take_take, List.take_take, List.take_take, List.take_take, Nat.min_eq_left htwo,
      Nat.min_eq_left hv.le_size] at h
    exact h
  refine ⟨hv.le_size, hle, hv.size_lt, ?_, hfits⟩
  have hraw := (rawSize_eq_iff (hv.le_size.trans hv.size_le) hv.size_lt).mpr hv.word
  apply (rawSize_eq_iff (hv.le_size.trans hle) hv.size_lt).mp
  rw [rawSize, hword, ← rawSize, hraw]

/-- A stage accounts for every byte of its row, and its opaque bytes have no part in the result. -/
theorem decodeRowPrefix_ignoresMiddle (input : Bytes) (schema : RowSchema) (through : Nat) (q : PartialDecodedRow)
    (h : decodeRowPrefixAndBooleanTail input schema through = .ok q) :
    (∃ st consumed,
      prefixRun schema through (input.take q.declaredSize) = .ok (st, headerLen schema + consumed) ∧
      2 + prefixLen schema.rowPrefixLayout + byteCount schema.nullBitmapBitCount + consumed + q.opaqueMiddleLen +
        booleanTailLen schema (input.take q.declaredSize) = q.declaredSize) ∧
    ∀ input', OpaqueAgree schema q (input.take q.declaredSize) (input'.take q.declaredSize) →
      decodeRowPrefixAndBooleanTail input' schema through = .ok q := by
  obtain ⟨hpos, hle⟩ := ordinal_of_ok h
  obtain ⟨-, size, hv, hq⟩ := (decodeRowPrefix_eq_ok_iff hpos hle).mp h
  have hlen := hv.length_row
  have hheader : headerLen schema ≤ (input.take size).length := hlen.symm ▸ hv.fits
  have hspec := ((prefixFrom_spec hle hheader).2 q).mp hq
  have hsize : q.declaredSize = size := hspec.1.trans hlen
  rw [hsize]
  constructor
  · obtain ⟨st, cursor, hrun, hsum⟩ := prefixFrom_run hheader hq
    obtain ⟨-, -, -, vs, bools, fs, fields, tail, hm, -, ht, -, -, htotal, -⟩ := hspec
    have htail := tail_length hm ht
    have hcursor : cursor = headerLen schema + fields.length := by omega
    have hbegins : prefixLen schema.rowPrefixLayout = carrierLen schema.rowPrefixLayout := by
      cases schema.rowPrefixLayout <;> rfl
    refine ⟨st, fields.length, hcursor ▸ hrun, ?_⟩
    rw [hbegins, ← headerLen]
    omega
  · intro input' hagree
    obtain ⟨hq', htake⟩ := prefixFrom_of_agree hle hheader hq hagree
    have hv' := headerValid_of_take hv hagree.length_eq htake
    exact (decodeRowPrefix_eq_ok_iff hpos hle).mpr ⟨hv'.le_size.trans hv'.size_le, size, hv', hq'⟩

theorem decodeRowPrefix_ignoresMiddle_packedTail :
    decodeRowPrefixAndBooleanTail [8, 0, 0xc0, 2, 1, 3, 4, 0x40] packedTailSchema 2 = .ok ⟨8, 0, 2,
      [⟨1, 2, .integer 258⟩], [⟨0, 1, .boolean false⟩, ⟨2, 3, .boolean true⟩], 2⟩ :=
  (decodeRowPrefix_ignoresMiddle [8, 0, 0xc0, 2, 1, 0, 0, 0x40] packedTailSchema 2 ⟨8, 0, 2,
    [⟨1, 2, .integer 258⟩], [⟨0, 1, .boolean false⟩, ⟨2, 3, .boolean true⟩], 2⟩ (by decide)).2 _
    (agreeOutside_append [8, 0, 0xc0, 2, 1] [0, 0] [3, 4] [0x40] rfl)

theorem zipIdx_take_filter {α : Type} (xs : List α) (i : Nat) {k k' : Nat} (h : k ≤ k') :
    ((xs.zipIdx i).take k').filter (fun e => decide (e.2 < i + k)) = (xs.zipIdx i).take k := by
  induction xs generalizing i k k' with
  | nil => simp
  | cons x xs ih =>
      rw [List.zipIdx_cons]
      cases k' with
      | zero =>
          obtain rfl := Nat.le_zero.mp h
          rfl
      | succ k' =>
          cases k with
          | zero =>
              rw [List.take_zero, List.filter_eq_nil_iff]
              intro e he
              have hle : i ≤ e.2 := by
                rcases List.mem_cons.mp (List.mem_of_mem_take he) with rfl | hrest
                · exact le_rfl
                · exact Nat.le_of_succ_le (List.le_snd_of_mem_zipIdx hrest)
              simpa using hle
          | succ k =>
              rw [List.take_succ_cons, List.take_succ_cons, List.filter_cons_of_pos (by simp),
                ← ih (i + 1) (Nat.le_of_succ_le_succ h), Nat.add_right_comm, Nat.add_assoc i k 1]

theorem entries_before {cells : List Cell} (p : Cell × Nat → Bool) {k k' : Nat} (h : k ≤ k') :
    (((cells.zipIdx.take k').filter p).map partialValue).filter (fun entry => decide (entry.columnIndex < k)) =
      ((cells.zipIdx.take k).filter p).map partialValue := by
  have hcells := zipIdx_take_filter cells 0 h
  rw [Nat.zero_add] at hcells
  rw [List.filter_map, ← hcells, List.filter_filter, List.filter_filter]
  congr 1
  apply List.filter_congr
  intro e _
  exact Bool.and_comm _ _

/-- An earlier ordinal succeeds wherever a later one does, with the part of its values that it reaches. -/
theorem decodeRowPrefixAndBooleanTail_mono (input : Bytes) (schema : RowSchema) (k k' : Nat) (hpos : 1 ≤ k)
    (hle : k ≤ k') (q' : PartialDecodedRow) (h : decodeRowPrefixAndBooleanTail input schema k' = .ok q') :
    ∃ q, decodeRowPrefixAndBooleanTail input schema k = .ok q ∧
      q.prefixValues = q'.prefixValues.filter (fun entry => decide (entry.columnIndex < k)) ∧
      q.booleanValues = (if isInlineBooleanLayout schema.booleanTail then
        q'.booleanValues.filter (fun entry => decide (entry.columnIndex < k)) else q'.booleanValues) ∧
      q'.opaqueMiddleLen ≤ q.opaqueMiddleLen := by
  obtain ⟨hpos', hcount⟩ := ordinal_of_ok h
  obtain ⟨hinput, size, hv, hq⟩ := (decodeRowPrefix_eq_ok_iff hpos' hcount).mp h
  have hheader : headerLen schema ≤ (input.take size).length := hv.length_row.symm ▸ hv.fits
  obtain ⟨-, -, -, vs, bools, fs, fields, tail, hm, hfields, ht, hbegins, hends, hsum, hpre, hbool⟩ :=
    ((prefixFrom_spec hcount hheader).2 q').mp hq
  obtain ⟨read, hread, hfirst⟩ := fieldsRepr_take hfields hle
  have hshort := hfirst.length_le
  have hstage := prefixFrom_of_fields (hle.trans hcount) hheader hm hread ht (hfirst.trans hbegins) hends (by omega)
  refine ⟨_, (decodeRowPrefix_eq_ok_iff hpos (hle.trans hcount)).mpr ⟨hinput, size, hv, hstage⟩, ?_, ?_, ?_⟩
  · rw [hpre]
    exact (entries_before isFieldCell hle).symm
  · rw [hbool, isInlineBooleanLayout_eq]
    simp only [booleanValues]
    cases hasTail schema.booleanTail with
    | true => rfl
    | false => exact (entries_before isBooleanCell hle).symm
  · simp only
    omega

def packedRunSchema : RowSchema where
  columns := [⟨1, .boolean, 1, false⟩, ⟨2, .boolean, 1, false⟩, ⟨3, .smallInt, 2, false⟩]
  booleanTail := .inlinePackedRunsMsbFirst

theorem decodeRowPrefixAndBooleanTail_mono_packedRun :
    ∃ q, decodeRowPrefixAndBooleanTail [6, 0, 0x40, 2, 1, 9] packedRunSchema 1 = .ok q ∧
      q.prefixValues = [] ∧ q.booleanValues = [⟨0, 1, .boolean false⟩] ∧ 1 ≤ q.opaqueMiddleLen :=
  decodeRowPrefixAndBooleanTail_mono [6, 0, 0x40, 2, 1, 9] packedRunSchema 1 3 (by decide) (by decide)
    ⟨6, 0, 3, [⟨2, 3, .integer 258⟩], [⟨0, 1, .boolean false⟩, ⟨1, 2, .boolean true⟩], 1⟩ (by decide)

end OpenSqlAny.StagedStability
