import OpenSqlAny.StagedSoundness

namespace OpenSqlAny.StagedAgreement

open Library.Faults Library.CursorReader Library.LittleEndian
open RowTypes RowDecoder RowGrammar RowTail RowHeader RowSoundness StagedSoundness

variable {schema : RowSchema} {input : Bytes}

theorem decodeRow_bounds {r : DecodedRow} (h : decodeRow input schema = .ok r) :
    2 ≤ r.consumedSize ∧ r.consumedSize ≤ r.declaredSize ∧ r.declaredSize ≤ input.length := by
  obtain ⟨hv, -, _, _, _, _, -, -, -, -, hconsumed⟩ := decodeRow_eq_ok_iff_body.mp h
  have hrow := decodeRow_eq_ok_iff_rowRepr.mp h
  have htwo : 2 ≤ headerLen schema := by rw [headerLen]; omega
  exact ⟨by omega, hrow.consumed, hrow.size_le⟩

theorem decodeRowExact_eq_ok_iff {r : DecodedRow} : decodeRowExact input schema = .ok r ↔
    decodeRow input schema = .ok r ∧ r.consumedSize = r.declaredSize := by
  rw [decodeRowExact, Library.Faults.bind_eq_ok_iff]
  constructor
  · rintro ⟨d, hd, h⟩
    obtain ⟨-, hle, -⟩ := decodeRow_bounds hd
    rw [subtract_of_le hle] at h
    change (if d.declaredSize - d.consumedSize ≠ 0 then _ else _) = _ at h
    split at h
    · cases h
    next hzero =>
      cases h
      exact ⟨hd, by omega⟩
  · rintro ⟨hr, heq⟩
    refine ⟨r, hr, ?_⟩
    rw [subtract_of_le heq.le]
    change (if r.declaredSize - r.consumedSize ≠ 0 then _ else _) = _
    rw [if_neg (by omega)]
    rfl

theorem append_eq_of_ends {α : Type} {xs f t : List α} {c : Nat} (hf : f <+: xs.drop c) (ht : t <:+ xs)
    (hlen : c + f.length + t.length = xs.length) : f ++ t = xs.drop c := by
  obtain ⟨rest, hrest⟩ := hf
  have hl := congrArg List.length hrest
  rw [List.length_append, List.length_drop] at hl
  have hrest' : rest = t := by
    rw [List.suffix_iff_eq_drop.mp ht, show xs.length - t.length = c + f.length by omega, ← List.drop_drop, ← hrest,
      List.drop_left]
  rw [← hrest', hrest]

/-- The staged result gives the exact result's values: the non-Boolean columns
up to the ordinal, and the Booleans that the layout lets it reach. -/
structure StageOf (schema : RowSchema) (through : Nat) (r : DecodedRow) (q : PartialDecodedRow) : Prop where
  declaredSize : q.declaredSize = r.declaredSize
  flags : q.flags = r.flags
  throughOrdinal : q.throughOrdinal = through
  prefixValues : q.prefixValues = prefixColumns schema through r.values
  booleanValues : q.booleanValues = booleanValues schema through r.values

theorem decodeRowPrefix_eq_ok_iff {through : Nat} {q : PartialDecodedRow} (hpos : 0 < through)
    (hle : through ≤ schema.columns.length) : decodeRowPrefixAndBooleanTail input schema through = .ok q ↔
      2 ≤ input.length ∧ ∃ size, HeaderValid schema input size ∧
        prefixFrom schema through (headerOf schema (input.take size)) = .ok q := by
  rw [decodeRowPrefixAndBooleanTail_eq hpos hle, Library.Faults.bind_eq_ok_iff]
  by_cases hlen : 2 ≤ input.length
  · simp only [rowHeaderAndPresence_eq_ok_iff hlen, hlen, true_and]
    constructor
    · rintro ⟨_, ⟨size, hv, rfl⟩, h⟩
      exact ⟨size, hv, h⟩
    · rintro ⟨size, hv, h⟩
      exact ⟨_, ⟨size, hv, rfl⟩, h⟩
  · simp [rowHeaderAndPresence, fail, show input.length < 2 by omega, hlen]

/-- Where the exact decoder succeeds, every stage succeeds and agrees with it;
and a last stage without an opaque middle is an exact decode. -/
theorem staged_agrees_with_exact (input : Bytes) (schema : RowSchema) :
    (∀ r, decodeRowExact input schema = .ok r → ∀ k, 1 ≤ k → k ≤ schema.columns.length →
      ∃ q, decodeRowPrefixAndBooleanTail input schema k = .ok q ∧ StageOf schema k r q) ∧
    ∀ q, decodeRowPrefixAndBooleanTail input schema schema.columns.length = .ok q → q.opaqueMiddleLen = 0 →
      ∃ r, decodeRowExact input schema = .ok r ∧ StageOf schema schema.columns.length r q := by
  constructor
  · intro r hr k hpos hle
    obtain ⟨hrow, hexact⟩ := decodeRowExact_eq_ok_iff.mp hr
    obtain ⟨hv, hflags, vs, bools, fields, tail, hm, hfields, ht, hbegins, hconsumed⟩ :=
      decodeRow_eq_ok_iff_body.mp hrow
    have hlen := hv.length_row
    obtain ⟨g, hg, hgf⟩ := fieldsRepr_take hfields hle
    have hg_len := hgf.length_le
    have hall : fields ++ tail = (input.take r.declaredSize).drop (headerLen schema) := by
      apply hbegins.eq_of_length
      rw [List.length_append, List.length_drop, hlen]
      omega
    have htail : tail <:+ input.take r.declaredSize :=
      List.IsSuffix.trans ⟨fields, hall⟩ (List.drop_suffix _ _)
    have hstage := prefixFrom_of_fields hle (hlen.symm ▸ hv.fits) hm hg ht
      (hgf.trans (List.IsPrefix.trans ⟨tail, rfl⟩ hbegins)) htail (by omega)
    exact ⟨_, (decodeRowPrefix_eq_ok_iff hpos hle).mpr ⟨hv.le_size.trans hv.size_le, _, hv, hstage⟩,
      hlen, hflags.symm, rfl, rfl, rfl⟩
  · intro q hq hmiddle
    have hpos : 0 < schema.columns.length := by
      by_contra hzero
      rw [decodeRowPrefixAndBooleanTail, if_pos (by omega)] at hq
      cases hq
    obtain ⟨-, size, hv, hq⟩ := (decodeRowPrefix_eq_ok_iff hpos le_rfl).mp hq
    have hlen := hv.length_row
    obtain ⟨hsize, hflags, hthrough, vs, bools, fs, fields, tail, hm, hfields, ht, hbegins, hends, hsum, hpre, hbool⟩ :=
      ((prefixFrom_spec le_rfl (hlen.symm ▸ hv.fits)).2 q).mp hq
    rw [hlen] at hsize hsum
    rw [hmiddle] at hsum
    have hall : fields ++ tail = (input.take size).drop (headerLen schema) :=
      append_eq_of_ends hbegins hends (by omega)
    refine ⟨⟨size, size, 0, fs⟩, decodeRowExact_eq_ok_iff.mpr ⟨?_, rfl⟩, hsize, hflags, hthrough, hpre, hbool⟩
    refine decodeRow_eq_ok_iff_body.mpr ⟨hv, rfl, vs, bools, fields, tail, hm, hfields, ht, ?_, ?_⟩
    · rw [hall]
    · simp only
      omega

def packedTailSchema : RowSchema where
  columns := [⟨1, .boolean, 1, true⟩, ⟨2, .smallInt, 2, true⟩, ⟨3, .boolean, 1, false⟩]
  booleanTail := .packedMsbFirst

theorem staged_agrees_with_exact_packedTail :
    (∃ q, decodeRowPrefixAndBooleanTail [6, 0, 0xc0, 2, 1, 0x40] packedTailSchema 2 = .ok q ∧
      StageOf packedTailSchema 2 ⟨6, 6, 0, [.boolean false, .integer 258, .boolean true]⟩ q) ∧
    ∃ r, decodeRowExact [6, 0, 0xc0, 2, 1, 0x40] packedTailSchema = .ok r ∧
      StageOf packedTailSchema 3 r ⟨6, 0, 3, [⟨1, 2, .integer 258⟩],
        [⟨0, 1, .boolean false⟩, ⟨2, 3, .boolean true⟩], 0⟩ :=
  ⟨(staged_agrees_with_exact [6, 0, 0xc0, 2, 1, 0x40] packedTailSchema).1
      ⟨6, 6, 0, [.boolean false, .integer 258, .boolean true]⟩ (by decide) 2 (by decide) (by decide),
    (staged_agrees_with_exact [6, 0, 0xc0, 2, 1, 0x40] packedTailSchema).2
      ⟨6, 0, 3, [⟨1, 2, .integer 258⟩], [⟨0, 1, .boolean false⟩, ⟨2, 3, .boolean true⟩], 0⟩ (by decide) rfl⟩

end OpenSqlAny.StagedAgreement
