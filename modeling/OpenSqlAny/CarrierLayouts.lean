import OpenSqlAny.CarrierSizes

namespace OpenSqlAny.CarrierLayouts

open Library.Faults Library.LittleEndian
open RowTypes RowDecoder RowGrammar RowFields RowHeader RowSoundness RowErrors StagedAgreement CarrierReading
open CarrierSizes

variable {schema : RowSchema} {layout : RowPrefixLayout} {payload : Bytes}

def withPrefix (schema : RowSchema) (layout : RowPrefixLayout) : RowSchema :=
  { schema with rowPrefixLayout := layout }

theorem fieldsRepr_withPrefix {n : Nat} {cells : List Cell} {f : Bytes}
    (h : FieldsRepr (withPrefix schema layout) n cells f) : FieldsRepr schema n cells f := by
  induction h with
  | stop cells => exact .stop cells
  | null rest ih => exact .null ih
  | field head rest ih =>
      have hsame : SameFields (withPrefix schema layout) schema := ⟨rfl, rfl, rfl, rfl⟩
      exact .field (hsame.fieldRepr head) ih
  | inline hcolumn head rest ih => exact .inline hcolumn head ih
  | run horder hcolumns hlength hne hmax head rest ih => exact .run horder hcolumns hlength hne hmax head ih

theorem fieldsRepr_withPrefix_iff {n : Nat} {cells : List Cell} {f : Bytes} :
    FieldsRepr (withPrefix schema layout) n cells f ↔ FieldsRepr schema n cells f := by
  constructor
  · exact fieldsRepr_withPrefix
  · -- The other layout is the schema's own once it is put back.
    intro h
    exact @fieldsRepr_withPrefix (withPrefix schema layout) schema.rowPrefixLayout n cells f h

theorem carrierLen_eq (layout : RowPrefixLayout) : carrierLen layout = prefixLen layout := by
  cases layout <;> rfl

theorem serializes_withPrefix_iff (hlayout : prefixLen layout = prefixLen schema.rowPrefixLayout + 1)
    {size : Nat} {values : List Value} {byte : UInt8} :
    Serializes (withPrefix schema layout) (size + 1) values (toLeBytes 2 (size + 1) ++ byte :: payload) ↔
      Serializes schema size values (toLeBytes 2 size ++ payload) := by
  rw [← carrierLen_eq, ← carrierLen_eq] at hlayout
  apply and_congr_right
  intro _
  constructor
  · rintro ⟨carrier, bitmap, fields, tail, hf, hcarrier, hbitmap, hfields, htail⟩
    rw [List.append_assoc, List.append_assoc, List.append_assoc, List.append_right_inj] at hf
    cases carrier with
    | nil => exact absurd (hcarrier.trans hlayout) (by simp)
    | cons first carrier =>
        obtain ⟨rfl, rfl⟩ := List.cons.inj hf
        refine ⟨carrier, bitmap, fields, tail, ?_, ?_, hbitmap, fieldsRepr_withPrefix_iff.mp hfields, htail⟩
        · rw [List.append_assoc, List.append_assoc, List.append_assoc]
          rfl
        · exact Nat.succ.inj (hcarrier.trans hlayout)
  · rintro ⟨carrier, bitmap, fields, tail, hf, hcarrier, hbitmap, hfields, htail⟩
    rw [List.append_assoc, List.append_assoc, List.append_assoc, List.append_right_inj] at hf
    subst hf
    refine ⟨byte :: carrier, bitmap, fields, tail, by simp only [List.append_assoc, List.cons_append], ?_, hbitmap,
      fieldsRepr_withPrefix_iff.mpr hfields, htail⟩
    rw [List.length_cons, hcarrier]
    exact hlayout.symm

theorem length_carrier {input : Bytes} (h : ZeroFlagCarrier input) : input.length = (input.drop 3).length + 2 + 1 := by
  have hheader := h.header
  rw [List.length_drop]
  omega

theorem carrier_eq {input : Bytes} (h : ZeroFlagCarrier input) :
    input = toLeBytes 2 ((input.drop 3).length + 2 + 1) ++ 0 :: input.drop 3 := by
  have hlength := length_carrier h
  obtain ⟨payload, -, rfl⟩ := zeroFlagCarrier_iff.mp h
  rw [← hlength, SegmentReading.length_segmentBytes]
  rfl

theorem decodeRowExact_carrier_iff {input : Bytes} (hcarrier : ZeroFlagCarrier input) (hsize : input.length < 2 ^ 13)
    (hlayout : prefixLen layout = prefixLen schema.rowPrefixLayout + 1) {r' : DecodedRow} :
    decodeRowExact input (withPrefix schema layout) = .ok r' ↔ r'.flags = 0 ∧ r'.declaredSize = input.length ∧
      r'.consumedSize = input.length ∧
      Serializes schema ((input.drop 3).length + 2) r'.values (envelope (input.drop 3)) := by
  have hspanned : Spanned input := ⟨hcarrier.word, (by decide : 2 ≤ 3).trans hcarrier.header, hsize⟩
  have hbody (values : List Value) : Serializes (withPrefix schema layout) input.length values input ↔
      Serializes schema ((input.drop 3).length + 2) values (envelope (input.drop 3)) := by
    have h := @serializes_withPrefix_iff schema layout (input.drop 3) hlayout ((input.drop 3).length + 2) values 0
    rw [← carrier_eq hcarrier, ← length_carrier hcarrier] at h
    exact h
  rw [decodeRowExact_eq_ok_iff]
  constructor
  · rintro ⟨hrow, hexact⟩
    have hdeclared := hspanned.declaredSize hrow
    have hrepr := decodeRow_eq_ok_iff_rowRepr.mp hrow
    have hserial := hrepr.body
    rw [hexact, hdeclared, List.take_length] at hserial
    exact ⟨hrepr.flags, hdeclared, hexact.trans hdeclared, (hbody _).mp hserial⟩
  · rintro ⟨hflags, hdeclared, hconsumed, hserial⟩
    have hheader := hcarrier.header
    refine ⟨decodeRow_eq_ok_iff_rowRepr.mpr ⟨by omega, by omega, by omega, hflags, by omega, ?_⟩, by omega⟩
    rw [hdeclared, hconsumed, List.take_length]
    exact (hbody _).mpr hserial

/-- The row with its flag byte counted in. -/
def withFlagByte (r : DecodedRow) : DecodedRow :=
  { r with declaredSize := r.declaredSize + 1, consumedSize := r.consumedSize + 1 }

theorem decodeMaterialized_iff_withFlagByte {input : Bytes} (hcarrier : ZeroFlagCarrier input)
    (hsize : input.length < 2 ^ 13) (hlayout : prefixLen layout = prefixLen schema.rowPrefixLayout + 1)
    {r : DecodedRow} : decodeMaterializedRowRecordExact input schema = .ok r ↔
      decodeRowExact input (withPrefix schema layout) = .ok (withFlagByte r) := by
  have hlength := length_carrier hcarrier
  rw [decodeMaterialized_of_carrier hcarrier, decodeRowExact_envelope_iff (by omega),
    decodeRowExact_carrier_iff hcarrier hsize hlayout]
  constructor
  · intro h
    have hdeclared := h.declared
    have hconsumed := h.consumed
    refine ⟨h.flags, ?_, ?_, h.body⟩
    · change r.declaredSize + 1 = _
      omega
    · change r.consumedSize + 1 = _
      omega
  · rintro ⟨hflags, hdeclared, hconsumed, hbody⟩
    simp only [withFlagByte] at hdeclared hconsumed
    exact ⟨hflags, by omega, by omega, hbody⟩

theorem exists_withFlagByte {input : Bytes} (hcarrier : ZeroFlagCarrier input) (hsize : input.length < 2 ^ 13)
    (hlayout : prefixLen layout = prefixLen schema.rowPrefixLayout + 1) {r' : DecodedRow}
    (h : decodeRowExact input (withPrefix schema layout) = .ok r') : ∃ r, r' = withFlagByte r := by
  obtain ⟨-, hdeclared, hconsumed, -⟩ := (decodeRowExact_carrier_iff hcarrier hsize hlayout).mp h
  have hlength := length_carrier hcarrier
  obtain ⟨declared, consumed, flags, values⟩ := r'
  simp only at hdeclared hconsumed
  refine ⟨⟨declared - 1, consumed - 1, flags, values⟩, ?_⟩
  rw [withFlagByte, DecodedRow.mk.injEq]
  exact ⟨by simp only; omega, by simp only; omega, rfl, rfl⟩

/-- A zero-flag carrier and a row whose prefix skips the flag byte are read alike. -/
theorem decodeMaterialized_eq_withPrefix (schema : RowSchema) (layout : RowPrefixLayout) (input : Bytes)
    (hlayout : prefixLen layout = prefixLen schema.rowPrefixLayout + 1) (hlen : 3 ≤ input.length)
    (hsize : input.length ≤ 0x1fff) (hword : wordAt input 0 = input.length) (hflag : input[2]? = some 0) :
    ((∃ r, decodeMaterializedRowRecordExact input schema = .ok r) ↔
      ∃ r', decodeRowExact input (withPrefix schema layout) = .ok r') ∧
    ∀ r r', decodeMaterializedRowRecordExact input schema = .ok r →
      decodeRowExact input (withPrefix schema layout) = .ok r' →
      r.values = r'.values ∧ r.flags = r'.flags ∧ r'.declaredSize = r.declaredSize + 1 ∧
        r'.consumedSize = r.consumedSize + 1 := by
  have hcarrier : ZeroFlagCarrier input := ⟨hlen, hword, hflag⟩
  have hsmall : input.length < 2 ^ 13 := Nat.lt_of_le_of_lt hsize (by decide)
  constructor
  · constructor
    · rintro ⟨r, hr⟩
      exact ⟨withFlagByte r, (decodeMaterialized_iff_withFlagByte hcarrier hsmall hlayout).mp hr⟩
    · rintro ⟨r', hr'⟩
      obtain ⟨r, rfl⟩ := exists_withFlagByte hcarrier hsmall hlayout hr'
      exact ⟨r, (decodeMaterialized_iff_withFlagByte hcarrier hsmall hlayout).mpr hr'⟩
  · intro r r' hr hr'
    have houter := (decodeMaterialized_iff_withFlagByte hcarrier hsmall hlayout).mp hr
    obtain rfl : withFlagByte r = r' := Except.ok.inj (houter.symm.trans hr')
    exact ⟨rfl, rfl, rfl, rfl⟩

theorem decodeMaterialized_eq_withPrefix_smallInt :
    ∃ r', decodeRowExact [6, 0, 0, 0x80, 2, 1] (withPrefix smallIntSchema .oneByteCarrier) = .ok r' :=
  (decodeMaterialized_eq_withPrefix smallIntSchema .oneByteCarrier [6, 0, 0, 0x80, 2, 1] rfl (by decide) (by decide)
    (by decide) rfl).1.mp ⟨⟨5, 5, 0, [.integer 258]⟩, by decide⟩

end OpenSqlAny.CarrierLayouts
