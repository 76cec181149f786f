import OpenSqlAny.RowErrors
import OpenSqlAny.SegmentReading

namespace OpenSqlAny.CarrierReading

open Library.Faults Library.CursorReader Library.ErrorClasses Library.LittleEndian Library.PackedBits
open RowTypes RowDecoder RowGrammar RowHeader RowSoundness RowErrors RowSegments SegmentReading

variable {schema : RowSchema} {input payload row : Bytes}

/-- A carrier that its length word spans exactly and whose flag byte is zero. -/
structure ZeroFlagCarrier (input : Bytes) : Prop where
  header : 3 ≤ input.length
  word : rawSize input = input.length
  flag : input[2]? = some 0

/-- The row that a payload is put into: the size word of a legacy row, then the payload. -/
def envelope (payload : Bytes) : Bytes := toLeBytes 2 (payload.length + 2) ++ payload

theorem length_envelope (payload : Bytes) : (envelope payload).length = payload.length + 2 := by
  rw [envelope, List.length_append, length_toLeBytes, Nat.add_comm]

theorem rawSize_envelope (h : payload.length + 2 < 2 ^ 16) :
    rawSize (envelope payload) = (envelope payload).length := by
  rw [rawSize, envelope, List.take_left' (length_toLeBytes 2 _), fromLeBytes_toLeBytes h, ← envelope,
    length_envelope]

theorem spanned_envelope (h : payload.length + 2 < 2 ^ 13) : Spanned (envelope payload) := by
  have hlength := length_envelope payload
  exact ⟨rawSize_envelope (by omega), by omega, by omega⟩

theorem zeroFlagCarrier_iff : ZeroFlagCarrier input ↔
    ∃ payload, segmentLen none payload < 2 ^ 16 ∧ input = segmentBytes 0 none payload := by
  constructor
  · rintro ⟨hheader, hword, hflag⟩
    match input, hheader with
    | a :: b :: flag :: payload, _ =>
        obtain rfl : flag = 0 := Option.some_inj.mp hflag
        refine ⟨payload, ?_, ?_⟩
        · have h := rawSize_lt (a :: b :: 0 :: payload)
          rw [hword] at h
          simp only [List.length_cons] at h
          rw [segmentLen, linkBytes, List.length_nil]
          omega
        · have hbytes : toLeBytes 2 (fromLeBytes [a, b]) = [a, b] := toLeBytes_fromLeBytes [a, b]
          have hlen : segmentLen none payload = fromLeBytes [a, b] := by
            refine Eq.trans ?_ hword.symm
            rw [segmentLen, linkBytes]
            simp only [List.length_cons, List.length_nil]
            omega
          rw [segmentBytes, hlen, hbytes]
          rfl
  · rintro ⟨payload, hlen, rfl⟩
    have hlength := length_segmentBytes 0 none payload
    refine ⟨?_, ?_, rfl⟩
    · rw [hlength, segmentLen]
      omega
    · rw [hlength, rawSize, segmentBytes, List.take_left' (length_toLeBytes 2 _), fromLeBytes_toLeBytes hlen]

theorem drop_segmentBytes (payload : Bytes) : (segmentBytes 0 none payload).drop 3 = payload := rfl

inductive CarrierError (input : Bytes) : DecodeError → Prop
  | header : CarrierError input .missingRowHeader
  | trailing (shorter : rawSize input ≠ input.length) (remaining : Nat) :
      CarrierError input (.trailingMaterializedRowCarrier remaining)
  | continued : CarrierError input .continuedMaterializedRowCarrier
  | flags (flags : UInt8) : CarrierError input (.unsupportedMaterializedRowCarrierFlags flags)

theorem decodeMaterialized_of_carrier (h : ZeroFlagCarrier input) :
    decodeMaterializedRowRecordExact input schema = decodeRowExact (envelope (input.drop 3)) schema := by
  obtain ⟨payload, hlen, rfl⟩ := zeroFlagCarrier_iff.mp h
  have hparse : parseRowSegment (segmentBytes 0 none payload) = .ok (segmentOf 0 none payload) :=
    parseRowSegment_eq_ok_iff.mpr ⟨0, none, payload, rfl, hlen, List.prefix_rfl, rfl⟩
  have hdeclared : ¬(segmentOf 0 none payload).declaredLen ≠ (segmentBytes 0 none payload).length :=
    not_not.mpr (length_segmentBytes 0 none payload).symm
  have hcontinued : ¬(segmentOf 0 none payload).isContinued = true := Bool.false_ne_true
  have hflags : ¬(segmentOf 0 none payload).flags ≠ 0 := not_not.mpr rfl
  have hsize : payload.length + 2 < 2 ^ 16 := by
    rw [segmentLen, linkBytes, List.length_nil] at hlen
    omega
  have hmax : payload.length + 2 ≤ usizeMax := hsize.le.trans (by decide)
  rw [drop_segmentBytes, decodeMaterializedRowRecordExact, hparse]
  refine (if_neg hdeclared).trans ((if_neg hcontinued).trans ((if_neg hflags).trans ?_))
  rw [payload_segmentOf, ok_bind]
  refine (if_neg (Nat.not_lt.mpr hmax)).trans ?_
  exact if_neg (Nat.not_le.mpr hsize)

theorem rawSize_of_begins {flags : UInt8} {next : Option ContinuationTarget} (hlen : segmentLen next payload < 2 ^ 16)
    (hbegins : segmentBytes flags next payload <+: input) : rawSize input = segmentLen next payload := by
  obtain ⟨rest, rfl⟩ := hbegins
  rw [rawSize, segmentBytes, List.append_assoc, List.take_left' (length_toLeBytes 2 _), fromLeBytes_toLeBytes hlen]

variable (schema) in
theorem decodeMaterialized_of_not (h : ¬ZeroFlagCarrier input) :
    ∃ e, decodeMaterializedRowRecordExact input schema = fail e ∧ CarrierError input e := by
  rw [decodeMaterializedRowRecordExact]
  rcases hparse : parseRowSegment input with (e | _) | segment
  · exact ⟨_, rfl, .header⟩
  · exact absurd hparse (parseRowSegment_ne_panic input)
  obtain ⟨flags, next, payload, hflags, hlen, hbegins, rfl⟩ := parseRowSegment_eq_ok_iff.mp hparse
  have hdeclared : (segmentOf flags next payload).declaredLen = (segmentBytes flags next payload).length :=
    (length_segmentBytes flags next payload).symm
  change ∃ e, (if (segmentOf flags next payload).declaredLen ≠ input.length then _ else _) = _ ∧ _
  by_cases hwhole : (segmentOf flags next payload).declaredLen = input.length
  case neg =>
    rw [if_pos hwhole, subtract_of_le (hdeclared ▸ hbegins.length_le)]
    refine ⟨_, rfl, .trailing ?_ _⟩
    rw [rawSize_of_begins hlen hbegins]
    exact hwhole
  rw [if_neg (not_not.mpr hwhole)]
  by_cases hcontinued : (segmentOf flags next payload).isContinued = true
  case pos =>
    rw [if_pos hcontinued]
    exact ⟨_, rfl, .continued⟩
  rw [if_neg hcontinued]
  by_cases hzero : flags = 0
  case neg => exact ⟨_, if_pos hzero, .flags flags⟩
  -- What is left is a whole segment with a zero flag and no target.
  obtain rfl : next = none := Option.not_isSome_iff_eq_none.mp hcontinued
  refine absurd (zeroFlagCarrier_iff.mpr ⟨payload, hlen, ?_⟩) h
  rw [← hzero]
  exact (hbegins.eq_of_length (hdeclared.symm.trans hwhole)).symm

def decodeFromExact (schema : RowSchema) (row : Bytes) : Outcome DecodeError DecodedRow := do
  let decoded ← decodeFrom schema (headerOf schema row)
  let remaining ← subtract decoded.declaredSize decoded.consumedSize
  if remaining ≠ 0 then fail (.trailingData remaining) else pure decoded

theorem decodeRowExact_of_spanned (h : Spanned row) : decodeRowExact row schema =
    if row.length < headerLen schema then
      fail (.truncated 0 (carrierLen schema.rowPrefixLayout + byteCount schema.nullBitmapBitCount) (row.length - 2))
    else decodeFromExact schema row := by
  rw [decodeRowExact, h.decodeRow_eq]
  split
  · rfl
  · rfl

inductive ExactError : DecodeError → Prop
  | body {e : DecodeError} (h : BodyError e) : ExactError e
  | trailing (remaining : Nat) : ExactError (.trailingData remaining)

variable (schema) in
theorem decodeRowExact_raises (h : Spanned row) : Raises ExactError (decodeRowExact row schema) := by
  rw [decodeRowExact_of_spanned h]
  apply Raises.ite
  · intro _
    exact .fail (.body (.column 0 rfl))
  · intro _
    apply Raises.bind ((decodeFrom_raises _).mono fun e he => .body he)
    intro decoded _
    apply Raises.bind (.subtract _ _)
    intro remaining _
    exact .ite (fun _ => .fail (.trailing remaining)) fun _ => .ok decoded

end OpenSqlAny.CarrierReading
