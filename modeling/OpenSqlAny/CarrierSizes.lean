import OpenSqlAny.CarrierReading
import OpenSqlAny.StagedAgreement

namespace OpenSqlAny.CarrierSizes

open Library.Faults Library.ErrorClasses Library.LittleEndian
open RowTypes RowDecoder RowGrammar RowHeader RowSoundness RowErrors StagedAgreement CarrierReading

variable {schema : RowSchema} {input payload row : Bytes}

/-- A row without flags that is serialized in exactly the payload, whatever the payload's length. -/
structure FlagFreeRow (schema : RowSchema) (payload : Bytes) (r : DecodedRow) : Prop where
  flags : r.flags = 0
  declared : r.declaredSize = payload.length + 2
  consumed : r.consumedSize = payload.length + 2
  body : Serializes schema (payload.length + 2) r.values (envelope payload)

theorem decodeRowExact_envelope_iff (h : payload.length + 2 < 2 ^ 13) {r : DecodedRow} :
    decodeRowExact (envelope payload) schema = .ok r ↔ FlagFreeRow schema payload r := by
  have hlength := length_envelope payload
  rw [decodeRowExact_eq_ok_iff]
  constructor
  · rintro ⟨hrow, hexact⟩
    have hdeclared := (spanned_envelope h).declaredSize hrow
    have hrepr := decodeRow_eq_ok_iff_rowRepr.mp hrow
    have hbody := hrepr.body
    rw [hexact, hdeclared, List.take_length, hlength] at hbody
    exact ⟨hrepr.flags, hdeclared.trans hlength, hexact.trans (hdeclared.trans hlength), hbody⟩
  · rintro ⟨hflags, hdeclared, hconsumed, hbody⟩
    refine ⟨decodeRow_eq_ok_iff_rowRepr.mpr ⟨by omega, by omega, by omega, hflags, by omega, ?_⟩, by omega⟩
    rw [hdeclared, hconsumed, ← hlength, List.take_length, hlength]
    exact hbody

theorem decodeRowExact_oversized (hword : rawSize row = row.length) (hsize : 2 ^ 13 ≤ row.length) :
    decodeRowExact row schema =
      if row.length &&& rowSizeMask < 2 then fail (.invalidRowSize (row.length &&& rowSizeMask) row.length)
      else fail (.unsupportedRowFlags (row.length &&& rowFlagMask)) := by
  have hlt : row.length < 2 ^ 16 := hword ▸ rawSize_lt row
  have hle : row.length &&& rowSizeMask ≤ row.length := Nat.and_le_left
  have hflags : row.length &&& rowFlagMask ≠ 0 := fun h => by
    have := (sizeWord_flags_iff hlt).mp h
    omega
  rw [decodeRowExact, RowSoundness.decodeRow_eq (by omega), rowHeaderAndPresence_eq (by omega), hword, if_pos hflags]
  split
  next hsmall =>
    rw [if_pos (by omega)]
    rfl
  next hsmall =>
    rw [if_neg (by omega)]
    rfl

structure DecodesCarrier (schema : RowSchema) (input : Bytes) : Prop where
  flags : ∀ flags, decodeMaterializedRowRecordExact input schema ≠ fail (.unsupportedRowFlags flags)
  size : ∀ declared available,
    decodeMaterializedRowRecordExact input schema ≠ fail (.invalidRowSize declared available)
  row : ZeroFlagCarrier input → ∀ r,
    decodeMaterializedRowRecordExact input schema = .ok r ↔ FlagFreeRow schema (input.drop 3) r

theorem ExactError.not_header {e : DecodeError} (h : ExactError e) :
    (∀ flags, e ≠ .unsupportedRowFlags flags) ∧ ∀ declared available, e ≠ .invalidRowSize declared available := by
  rcases h with ⟨⟨column, names⟩ | ⟨needed, remaining⟩⟩ | remaining
  · constructor
    · rintro flags rfl
      cases names
    · rintro declared available rfl
      cases names
  · exact ⟨fun _ => nofun, fun _ _ => nofun⟩
  · exact ⟨fun _ => nofun, fun _ _ => nofun⟩

variable (schema) in
theorem decodeMaterialized_oversized (h : ZeroFlagCarrier input) (hsize : 8190 ≤ (input.drop 3).length) :
    decodeMaterializedRowRecordExact input schema =
      if (input.length - 1) &&& rowSizeMask < 2 then
        fail (.invalidRowSize ((input.length - 1) &&& rowSizeMask) (input.length - 1))
      else fail (.unsupportedRowFlags ((input.length - 1) &&& rowFlagMask)) := by
  have hinput := h.word ▸ rawSize_lt input
  have hheader := h.header
  have hlength : (envelope (input.drop 3)).length = input.length - 1 := by
    rw [length_envelope, List.length_drop]
    omega
  rw [List.length_drop] at hsize
  have hfits : (input.drop 3).length + 2 < 2 ^ 16 := by
    rw [List.length_drop]
    omega
  have hword := rawSize_envelope hfits
  rw [decodeMaterialized_of_carrier h, decodeRowExact_oversized hword (by omega), hlength]

/-- The carriers that go wrong are those whose payload and row header do not fit 13 bits. -/
theorem decodesCarrier_iff (schema : RowSchema) (input : Bytes) :
    DecodesCarrier schema input ↔ (ZeroFlagCarrier input → (input.drop 3).length ≤ 8189) := by
  constructor
  · intro hdecodes h
    by_contra hsize
    have hrefused := decodeMaterialized_oversized schema h (by omega)
    split at hrefused
    · exact hdecodes.size _ _ hrefused
    · exact hdecodes.flags _ hrefused
  · intro hsize
    by_cases h : ZeroFlagCarrier input
    · have hsmall : (input.drop 3).length + 2 < 2 ^ 13 := by
        have := hsize h
        omega
      have hraises := decodeRowExact_raises schema (spanned_envelope hsmall)
      rw [← decodeMaterialized_of_carrier h] at hraises
      refine ⟨fun flags he => ?_, fun declared available he => ?_, fun _ r => ?_⟩
      · exact (ExactError.not_header (hraises.error _ he)).1 flags rfl
      · exact (ExactError.not_header (hraises.error _ he)).2 declared available rfl
      · rw [decodeMaterialized_of_carrier h]
        exact decodeRowExact_envelope_iff hsmall
    · obtain ⟨e, he, hclass⟩ := decodeMaterialized_of_not schema h
      refine ⟨fun flags hflags => ?_, fun declared available hinvalid => ?_, fun hcarrier => absurd hcarrier h⟩
      · rw [he] at hflags
        cases hflags
        cases hclass
      · rw [he] at hinvalid
        cases hinvalid
        cases hclass

/-- A carrier of 8192 zero bytes of payload, whose row size 0x2002 has a flag bit. -/
def oversizedCarrier : Bytes := [0x03, 0x20, 0x00] ++ List.replicate 8192 0

theorem oversizedCarrier_refused : ZeroFlagCarrier oversizedCarrier ∧
    decodeMaterializedRowRecordExact oversizedCarrier smallIntSchema = fail (.unsupportedRowFlags 0x2000) ∧
    ¬DecodesCarrier smallIntSchema oversizedCarrier := by
  have hlength : oversizedCarrier.length = 8195 := by
    rw [oversizedCarrier, List.length_append, List.length_replicate]
    rfl
  have hcarrier : ZeroFlagCarrier oversizedCarrier := ⟨by omega, hlength.symm ▸ rfl, rfl⟩
  have hrefused := decodeMaterialized_oversized smallIntSchema hcarrier
    (by rw [List.length_drop, hlength]; decide)
  rw [hlength, if_neg (by decide)] at hrefused
  exact ⟨hcarrier, hrefused, fun h => h.flags _ hrefused⟩

end OpenSqlAny.CarrierSizes
