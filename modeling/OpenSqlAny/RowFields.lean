import OpenSqlAny.Library.DecimalDigits
import OpenSqlAny.RowDecoder
import OpenSqlAny.RowGrammar

namespace OpenSqlAny.RowFields

open Library.Faults Library.CursorReader Library.LittleEndian Library.PackedBits Library.DecimalDigits
open RowTypes RowSegments RowDecoder RowGrammar

variable {row : Bytes}

theorem take_reads (count column : Nat) :
    Reads row row.length (take row count column) (fun v f => f = v ∧ v.length = count) :=
  Reads.takeOr count _

theorem takeByte_reads (column : Nat) :
    Reads row row.length (takeByte row column) (fun b f => f = [b]) := by
  refine ((take_reads 1 column).bind (H := fun bytes b h => bytes[0]? = some b ∧ h = []) ?_).congr ?_
  · rintro bytes _ ⟨rfl, hlen⟩
    refine (Reads.lift le_rfl ?_).congr fun b f => by rw [index_eq_ok_iff]
    rw [index_of_lt (by omega)]
    simp
  · intro b f
    constructor
    · rintro ⟨bytes, _, _, ⟨rfl, hlen⟩, ⟨hb, rfl⟩, rfl⟩
      obtain ⟨a, rfl⟩ := List.length_eq_one_iff.mp hlen
      simpa using hb
    · rintro rfl
      exact ⟨[b], [b], [], ⟨rfl, rfl⟩, ⟨rfl, rfl⟩, rfl⟩

theorem takeExact_reads (width column : Nat) :
    Reads row row.length (takeExact row width column) (fun v f => f = v ∧ v.length = width) := by
  refine ((take_reads width column).bind (H := fun bytes v h => v = bytes ∧ h = []) ?_).congr ?_
  · rintro bytes _ ⟨rfl, hlen⟩
    exact Reads.lift_of_eq (by simp [exactSlice, hlen])
  · intro v f
    constructor
    · rintro ⟨bytes, _, _, ⟨rfl, hlen⟩, ⟨rfl, rfl⟩, rfl⟩
      exact ⟨by simp, hlen⟩
    · rintro ⟨rfl, hlen⟩
      exact ⟨f, f, [], ⟨rfl, hlen⟩, ⟨rfl, rfl⟩, by simp⟩

theorem reads_map {α β : Type} {p : Reader DecodeError α} {G : α → Bytes → Prop}
    (h : Reads row row.length p G) (g : α → β) :
    Reads row row.length (do pure (g (← p))) (fun v f => ∃ a, v = g a ∧ G a f) := by
  refine (h.bind (H := fun a v h => v = g a ∧ h = []) fun a _ _ => Reads.pure (g a)).congr ?_
  intro v f
  constructor
  · rintro ⟨a, _, _, ha, ⟨rfl, rfl⟩, rfl⟩
    exact ⟨a, rfl, by simpa using ha⟩
  · rintro ⟨a, rfl, ha⟩
    exact ⟨a, f, [], ha, ⟨rfl, rfl⟩, by simp⟩

theorem takeUnsigned_reads (width column : Nat) :
    Reads row row.length (takeUnsigned row width column) (UnsignedRepr width) := by
  apply (reads_map (takeExact_reads width column) fromLeBytes).congr
  intro n f
  constructor
  · rintro ⟨bytes, rfl, rfl, rfl⟩
    exact ⟨fromLeBytes_lt _, (toLeBytes_fromLeBytes _).symm⟩
  · rintro ⟨hn, rfl⟩
    exact ⟨_, (fromLeBytes_toLeBytes hn).symm, rfl, by simp⟩

theorem takeSigned_reads {width : Nat} (hwidth : 0 < width) (column : Nat) :
    Reads row row.length (takeSigned row width column) (SignedRepr width) := by
  apply (reads_map (takeExact_reads width column) _).congr
  intro x f
  constructor
  · rintro ⟨bytes, hx, rfl, hlen⟩
    exact (toSigned_fromLeBytes_eq_iff hwidth hlen).mp hx.symm
  · rintro ⟨hlo, hhi, rfl⟩
    have hlen : (toLeSigned width x).length = width := by simp
    exact ⟨_, ((toSigned_fromLeBytes_eq_iff hwidth hlen).mpr ⟨hlo, hhi, rfl⟩).symm, rfl, hlen⟩

theorem takeU16_reads (column : Nat) :
    Reads row row.length (takeU16 row column) (UnsignedRepr 2) := by
  refine ((take_reads 2 column).bind (H := fun bytes n h => n = fromLeBytes bytes ∧ h = []) ?_).congr ?_
  · rintro bytes _ ⟨rfl, hlen⟩
    obtain ⟨a, b, rfl⟩ := List.length_eq_two.mp hlen
    exact Reads.lift_of_eq rfl
  · intro n f
    constructor
    · rintro ⟨bytes, g, _, ⟨hg, hlen⟩, ⟨rfl, rfl⟩, rfl⟩
      rw [List.append_nil, hg, ← hlen]
      exact ⟨fromLeBytes_lt bytes, (toLeBytes_fromLeBytes bytes).symm⟩
    · rintro ⟨hn, rfl⟩
      exact ⟨_, _, [], ⟨rfl, by simp⟩, ⟨(fromLeBytes_toLeBytes hn).symm, rfl⟩, by simp⟩

theorem unsignedRepr_one {n : Nat} {f : Bytes} : UnsignedRepr 1 n f ↔ ∃ b : UInt8, n = b.toNat ∧ f = [b] := by
  constructor
  · rintro ⟨hn, rfl⟩
    refine ⟨UInt8.ofNat n, ?_, rfl⟩
    rw [UInt8.toNat_ofNat']
    omega
  · rintro ⟨b, rfl, rfl⟩
    exact ⟨b.toNat_lt, by simp [toLeBytes]⟩

theorem takeByte_unsigned (column : Nat) :
    Reads row row.length (do pure (← takeByte row column).toNat) (UnsignedRepr 1) :=
  (reads_map (takeByte_reads column) UInt8.toNat).congr fun _ _ => unsignedRepr_one.symm

theorem readSigned_reads (column width : Nat) :
    Reads row row.length (readSigned row column width)
      (fun x f => IntegerWidth width ∧ SignedRepr width x f) := by
  simp only [readSigned]
  split
  · exact (takeSigned_reads (by decide) column).congr (by simp [IntegerWidth])
  · exact (takeSigned_reads (by decide) column).congr (by simp [IntegerWidth])
  · exact (takeSigned_reads (by decide) column).congr (by simp [IntegerWidth])
  · exact (takeSigned_reads (by decide) column).congr (by simp [IntegerWidth])
  · exact (Reads.fail le_rfl _).congr (by unfold IntegerWidth; grind)

theorem readUnsigned_reads (column width : Nat) :
    Reads row row.length (readUnsigned row column width)
      (fun n f => IntegerWidth width ∧ UnsignedRepr width n f) := by
  simp only [readUnsigned]
  split
  · exact (takeByte_unsigned column).congr (by simp [IntegerWidth])
  · exact (takeUnsigned_reads 2 column).congr (by simp [IntegerWidth])
  · exact (takeUnsigned_reads 4 column).congr (by simp [IntegerWidth])
  · exact (takeUnsigned_reads 8 column).congr (by simp [IntegerWidth])
  · exact (Reads.fail le_rfl _).congr (by unfold IntegerWidth; grind)

theorem decodeEnum_reads (column width : Nat) (layout : EnumLayout) :
    Reads row row.length (decodeEnum row column width layout)
      (fun v f => layout = .fixedWidthUnsigned ∧ IntegerWidth width ∧
        ∃ n, v = .enum n ∧ UnsignedRepr width n f) := by
  simp only [decodeEnum]
  cases layout with
  | unsupported => exact (Reads.fail le_rfl _).congr (by simp)
  | fixedWidthUnsigned =>
      simp only [reduceCtorEq, ↓reduceIte, true_and]
      split
      any_goals
        apply (reads_map (readUnsigned_reads column _) Value.enum).congr
        intro v f
        simp [IntegerWidth]
      exact (Reads.fail le_rfl _).congr (by unfold IntegerWidth; grind)

theorem takeShortLength_reads (columnIndex : Nat) :
    Reads row row.length (takeShortLength row columnIndex)
      (fun r f => UnsignedRepr 1 r.1 f ∧ r.2 = (r.1 == overflowMarker 1)) := by
  apply (reads_map (takeByte_reads columnIndex) fun b => (b.toNat, b.toNat == 0xff)).congr
  rintro ⟨n, o⟩ f
  simp only [Prod.mk.injEq, overflowMarker, unsignedRepr_one]
  constructor
  · rintro ⟨b, ⟨rfl, rfl⟩, rfl⟩
    exact ⟨⟨b, rfl, rfl⟩, rfl⟩
  · rintro ⟨⟨b, rfl, rfl⟩, rfl⟩
    exact ⟨b, ⟨rfl, rfl⟩, rfl⟩

theorem takeWideLength_reads (columnIndex : Nat) :
    Reads row row.length (takeWideLength row columnIndex)
      (fun r f => UnsignedRepr 2 r.1 f ∧ r.2 = (r.1 == overflowMarker 2)) := by
  apply (reads_map (takeU16_reads columnIndex) fun n => (n, n == 0xffff)).congr
  rintro ⟨n, o⟩ f
  simp only [Prod.mk.injEq, overflowMarker]
  constructor
  · rintro ⟨a, ⟨rfl, rfl⟩, h⟩
    exact ⟨h, rfl⟩
  · rintro ⟨h, rfl⟩
    exact ⟨n, ⟨rfl, rfl⟩, h⟩

theorem takeLength_reads (columnIndex : Nat) (column : ColumnDef) (layout : VariableLengthLayout) :
    Reads row row.length (takeLength row columnIndex column layout)
      (fun r f => UnsignedRepr (lengthWidth column layout) r.1 f ∧
        r.2 = (r.1 == overflowMarker (lengthWidth column layout))) := by
  cases layout with
  | u8 => exact takeShortLength_reads columnIndex
  | u16Le => exact takeWideLength_reads columnIndex
  | declaredWidth wideAtOrAbove =>
      rw [takeLength, lengthWidth]
      by_cases h : wideAtOrAbove ≤ column.width
      · simpa only [ge_iff_le, h, ↓reduceIte] using takeWideLength_reads columnIndex
      · simpa only [ge_iff_le, h, ↓reduceIte] using takeShortLength_reads columnIndex

theorem decodeOverflow_reads (columnIndex : Nat) (layout : VariableOverflowLayout) :
    Reads row row.length (decodeOverflow row columnIndex layout)
      (fun v f => 0 < f.length ∧ layout = .pointer f.length ∧ v = .overflowPointer f) := by
  simp only [decodeOverflow]
  split
  · exact (Reads.fail le_rfl _).congr (by simp)
  · apply (Reads.fail le_rfl _).congr
    intro v f
    simp only [VariableOverflowLayout.pointer.injEq, false_iff, not_and]
    omega
  · next width hwidth =>
    apply (reads_map (take_reads width columnIndex) Value.overflowPointer).congr
    intro v f
    simp only [VariableOverflowLayout.pointer.injEq]
    constructor
    · rintro ⟨a, rfl, rfl, rfl⟩
      exact ⟨Nat.pos_of_ne_zero hwidth, rfl, rfl⟩
    · rintro ⟨-, rfl, rfl⟩
      exact ⟨f, rfl, rfl, rfl⟩

theorem variableRepr_iff {schema : RowSchema} {column : ColumnDef} {v : Value} {f : Bytes} :
    VariableRepr schema column v f ↔ ∃ n g h, UnsignedRepr (lengthWidth column schema.variableLengthLayout) n g ∧
      (if n = overflowMarker (lengthWidth column schema.variableLengthLayout) then
        0 < h.length ∧ schema.variableOverflowLayout = .pointer h.length ∧ v = .overflowPointer h
      else v = .bytes h ∧ h.length = n) ∧ f = g ++ h := by
  have hmarker : 0 < 2 ^ (8 * lengthWidth column schema.variableLengthLayout) := by positivity
  constructor
  · intro hv
    cases hv with
    | bytes data h =>
        have hfits : data.length < 2 ^ (8 * lengthWidth column schema.variableLengthLayout) := by
          rw [overflowMarker] at h
          omega
        refine ⟨data.length, _, data, ⟨hfits, rfl⟩, ?_, rfl⟩
        rw [if_neg (by omega)]
        exact ⟨rfl, rfl⟩
    | overflow pointer hpos h =>
        refine ⟨overflowMarker _, _, pointer, ⟨Nat.sub_lt hmarker Nat.one_pos, rfl⟩, ?_, rfl⟩
        rw [if_pos rfl]
        exact ⟨hpos, h, rfl⟩
  · rintro ⟨n, _, h, ⟨hn, rfl⟩, hv, rfl⟩
    split at hv
    next hm =>
      obtain ⟨hpos, hlayout, rfl⟩ := hv
      rw [hm]
      exact .overflow h hpos hlayout
    next hm =>
      obtain ⟨rfl, rfl⟩ := hv
      apply VariableRepr.bytes
      rw [overflowMarker] at hm ⊢
      omega

theorem decodeVariable_reads (columnIndex : Nat) (column : ColumnDef) (schema : RowSchema) :
    Reads row row.length
      (takeLength row columnIndex column schema.variableLengthLayout >>= fun r =>
        if r.2 then decodeOverflow row columnIndex schema.variableOverflowLayout
        else do pure (.bytes (← take row r.1 columnIndex)))
      (VariableRepr schema column) := by
  have hbytes (n : Nat) := reads_map (@take_reads row n columnIndex) Value.bytes
  refine ((takeLength_reads columnIndex column schema.variableLengthLayout).bind
    (H := fun r v h => if r.2 then 0 < h.length ∧ schema.variableOverflowLayout = .pointer h.length ∧
      v = .overflowPointer h else v = .bytes h ∧ h.length = r.1) ?_).congr ?_
  · rintro ⟨n, o⟩ f -
    cases o with
    | true => simpa using decodeOverflow_reads columnIndex schema.variableOverflowLayout
    | false =>
        apply (hbytes n).congr
        intro v f
        simp only [Bool.false_eq_true, ↓reduceIte]
        constructor
        · rintro ⟨a, rfl, rfl, rfl⟩
          exact ⟨rfl, rfl⟩
        · rintro ⟨rfl, rfl⟩
          exact ⟨f, rfl, rfl, rfl⟩
  · intro v f
    rw [variableRepr_iff]
    constructor
    · rintro ⟨⟨n, o⟩, g, h, ⟨hn, ho⟩, hv, rfl⟩
      simp only [] at hn ho hv
      subst ho
      exact ⟨n, g, h, hn, by simpa using hv, rfl⟩
    · rintro ⟨n, g, h, hn, hv, rfl⟩
      exact ⟨(n, n == overflowMarker _), g, h, ⟨hn, rfl⟩, by simpa using hv, rfl⟩

theorem legacyCoefficient_eq_ok_iff (column : Nat) (digits : Bytes) (cs : List Char) :
    legacyCoefficient column digits = .ok cs ↔ (∀ d ∈ digits, d ≤ 99) ∧ cs = digits.flatMap twoDigits := by
  induction digits generalizing cs with
  | nil => simp [legacyCoefficient, pure, Except.pure, eq_comm]
  | cons d digits ih =>
      rw [legacyCoefficient]
      split
      next hd =>
        have : ¬ d ≤ 99 := by simpa using hd
        simp [fail, this]
      next hd =>
        have hd' : d ≤ 99 := by simpa using hd
        simp only [Library.Faults.bind_eq_ok_iff, ih, pure, Except.pure, Except.ok.injEq, List.forall_mem_cons, hd',
          true_and, List.flatMap_cons]
        constructor
        · rintro ⟨rest, ⟨hall, rfl⟩, rfl⟩
          exact ⟨hall, rfl⟩
        · rintro ⟨hall, rfl⟩
          exact ⟨_, ⟨hall, rfl⟩, rfl⟩

theorem legacyCoefficient_ne_panic (column : Nat) (digits : Bytes) :
    legacyCoefficient column digits ≠ .error .panic := by
  induction digits with
  | nil => simp [legacyCoefficient, pure, Except.pure]
  | cons d digits ih =>
      rw [legacyCoefficient]
      split
      · simp [fail]
      · exact bind_ne_panic ih (by simp [pure, Except.pure])

theorem dropWhile_twoDigits {digits : List Char} {n : Nat} {d : UInt8} (hd : d ≤ 99)
    (h : digits.dropWhile (· == '0') = significant n) :
    (digits ++ twoDigits d).dropWhile (· == '0') = significant (100 * n + d.toNat) := by
  have hd' : d.toNat ≤ 99 := hd
  have h₁ := dropWhile_append_digit (d := d.toNat / 10) (by omega) h
  have h₂ := dropWhile_append_digit (d := d.toNat % 10) (by omega) h₁
  rw [List.append_assoc] at h₂
  rw [show 100 * n + d.toNat = 10 * (10 * n + d.toNat / 10) + d.toNat % 10 by omega]
  exact h₂

theorem dropWhile_flatMap_twoDigits (digits : Bytes) (hdigits : ∀ d ∈ digits, d ≤ 99) {before : List Char}
    {n : Nat} (h : before.dropWhile (· == '0') = significant n) :
    (before ++ digits.flatMap twoDigits).dropWhile (· == '0') =
      significant (digits.foldl (fun n d => 100 * n + d.toNat) n) := by
  induction digits generalizing before n with
  | nil => simpa using h
  | cons d digits ih =>
      obtain ⟨hd, hdigits⟩ := List.forall_mem_cons.mp hdigits
      rw [List.flatMap_cons, ← List.append_assoc, List.foldl_cons]
      exact ih hdigits (dropWhile_twoDigits hd h)

theorem scaledDecimal_eq (exponent : UInt8) (digits : Bytes) (hdigits : ∀ d ∈ digits, d ≤ 99)
    (hne : digits ≠ []) : scaledDecimal exponent (digits.flatMap twoDigits) = legacyDecimal exponent digits := by
  have htrim : trimStartZeros (digits.flatMap twoDigits) = significant (base100 digits) :=
    @dropWhile_flatMap_twoDigits digits hdigits [] 0 rfl
  rw [scaledDecimal, legacyDecimal]
  simp only [htrim, significant_or_zero, hne, ↓reduceIte]
  split
  next h =>
    rw [show ((exponent.toNat : Int) - 192).toNat * 2 = 2 * (exponent.toNat - 192) by omega,
      show 2 * (192 - exponent.toNat) = 0 by omega]
  next h =>
    rw [show (-((exponent.toNat : Int) - 192)).toNat * 2 = 2 * (192 - exponent.toNat) by omega,
      show 2 * (exponent.toNat - 192) = 0 by omega, List.replicate_zero, List.append_nil]

theorem shortDecimal_eq (exponent : UInt8) : shortDecimal exponent = legacyDecimal exponent [] := by
  have : (((128 : Int) - exponent.toNat) < 0) ↔ 128 < exponent := by
    rw [UInt8.lt_iff_toNat_lt]
    change _ ↔ 128 < exponent.toNat
    omega
  simp only [shortDecimal, legacyDecimal, ↓reduceIte, this]

theorem numericToken_reads {α : Type} (column : Nat) (tail : UInt8 → UInt8 → Reader DecodeError α)
    (F : UInt8 → Bytes → α)
    (htail : ∀ count marker, Reads row row.length (tail count marker)
      (fun v f => f.length = count.toNat ∧ (∀ d ∈ f, d ≤ 99) ∧ v = F marker f)) :
    Reads row row.length
      (takeByte row column >>= fun count => takeByte row column >>= fun marker => tail count marker)
      (fun v f => ∃ marker digits, NumericToken marker digits f ∧ v = F marker digits) := by
  refine ((takeByte_reads column).bind fun count _ _ =>
    (takeByte_reads column).bind fun marker _ _ => htail count marker).congr fun v f => ?_
  constructor
  · rintro ⟨count, _, _, rfl, ⟨marker, _, digits, rfl, ⟨hlen, hdigits, rfl⟩, rfl⟩, rfl⟩
    refine ⟨marker, digits, ⟨hlen ▸ count.toNat_lt, hdigits, ?_⟩, rfl⟩
    simp [hlen]
  · rintro ⟨marker, digits, ⟨hlen, hdigits, rfl⟩, rfl⟩
    have hcount : digits.length = (UInt8.ofNat digits.length).toNat := by
      rw [UInt8.toNat_ofNat', Nat.mod_eq_of_lt hlen]
    exact ⟨_, _, marker :: digits, rfl, ⟨marker, _, digits, rfl, ⟨hcount, hdigits, rfl⟩, rfl⟩, rfl⟩

theorem readNumericLegacy_reads (column : Nat) :
    Reads row row.length (readNumericLegacy row column)
      (fun d f => ∃ marker digits, NumericToken marker digits f ∧ d = legacyDecimal marker digits) := by
  apply numericToken_reads column _ _
  intro count exponent
  split
  next hcount =>
    apply (Reads.pure _).congr
    intro d f
    subst hcount
    rw [shortDecimal_eq]
    constructor
    · rintro ⟨rfl, rfl⟩
      exact ⟨rfl, by simp, rfl⟩
    · rintro ⟨hlen, -, rfl⟩
      obtain rfl := List.length_eq_zero_iff.mp hlen
      exact ⟨rfl, rfl⟩
  next hcount =>
    have hpos : count.toNat ≠ 0 := fun h => hcount (UInt8.toNat_inj.mp h)
    refine ((take_reads count.toNat column).bind fun digits _ _ =>
      (Reads.lift le_rfl (legacyCoefficient_ne_panic column digits)).bind
        fun cs _ _ => Reads.pure _).congr fun d f => ?_
    simp only [legacyCoefficient_eq_ok_iff]
    constructor
    · rintro ⟨digits, _, _, ⟨rfl, hlen⟩, ⟨cs, _, _, ⟨⟨hdigits, rfl⟩, rfl⟩, ⟨rfl, rfl⟩, rfl⟩, rfl⟩
      rw [List.append_nil, List.append_nil]
      refine ⟨hlen, hdigits, scaledDecimal_eq _ _ hdigits ?_⟩
      rintro rfl
      exact hpos hlen.symm
    · rintro ⟨hlen, hdigits, rfl⟩
      refine ⟨f, f, [], ⟨rfl, hlen⟩, ⟨_, [], [], ⟨⟨hdigits, rfl⟩, rfl⟩, ⟨?_, rfl⟩, rfl⟩, by simp⟩
      refine (scaledDecimal_eq _ _ hdigits ?_).symm
      rintro rfl
      exact hpos hlen.symm

theorem readNumericEnterpriseMaterialized_reads (column : Nat) :
    Reads row row.length (readNumericEnterpriseMaterialized row column)
      (fun v f => ∃ marker digits, NumericToken marker digits f ∧ v = .enterpriseNumeric ⟨marker, digits⟩) := by
  refine numericToken_reads column _ (fun marker digits => Value.enterpriseNumeric ⟨marker, digits⟩)
    fun count marker => ?_
  split
  next hcount =>
    apply (Reads.pure _).congr
    intro d f
    subst hcount
    constructor
    · rintro ⟨rfl, rfl⟩
      exact ⟨rfl, by simp, rfl⟩
    · rintro ⟨hlen, -, rfl⟩
      obtain rfl := List.length_eq_zero_iff.mp hlen
      exact ⟨rfl, rfl⟩
  next hcount =>
    refine ((take_reads count.toNat column).bind (H := fun digits v h =>
      (∀ d ∈ digits, d ≤ 99) ∧ v = .enterpriseNumeric ⟨marker, digits⟩ ∧ h = []) fun digits _ _ => ?_).congr
        fun v f => ?_
    · cases hfind : digits.find? (· > 99) with
      | none =>
          have hall : ∀ d ∈ digits, d ≤ 99 := by simpa [List.find?_eq_none] using hfind
          exact (Reads.pure _).congr fun v f => ⟨fun ⟨hv, hf⟩ => ⟨hall, hv, hf⟩, fun ⟨_, hv, hf⟩ => ⟨hv, hf⟩⟩
      | some d =>
          have hbad : ¬ ∀ d ∈ digits, d ≤ 99 := by
            intro hall
            have hd := List.find?_some hfind
            have hd' := hall d (List.mem_of_find?_eq_some hfind)
            simp at hd
            exact absurd hd' (by simpa using hd)
          exact (Reads.fail le_rfl _).congr (by simp [hbad])
    · constructor
      · rintro ⟨digits, _, _, ⟨rfl, hlen⟩, ⟨hdigits, rfl, rfl⟩, rfl⟩
        rw [List.append_nil]
        exact ⟨hlen, hdigits, rfl⟩
      · rintro ⟨hlen, hdigits, rfl⟩
        exact ⟨f, f, [], ⟨rfl, hlen⟩, ⟨hdigits, rfl, rfl⟩, by simp⟩

theorem decodeNumericValue_reads (column : Nat) (layout : NumericLayout) :
    Reads row row.length (decodeNumericValue row column layout) (NumericRepr layout) := by
  cases layout with
  | legacyForward =>
      apply (reads_map (readNumericLegacy_reads column) Value.decimal).congr
      intro v f
      constructor
      · rintro ⟨_, rfl, marker, digits, htoken, rfl⟩
        exact ⟨marker, digits, htoken, rfl⟩
      · rintro ⟨marker, digits, htoken, rfl⟩
        exact ⟨_, rfl, marker, digits, htoken, rfl⟩
  | enterpriseMaterializedRaw => exact readNumericEnterpriseMaterialized_reads column

/-- The field decoder reads exactly the field grammar of its column. -/
theorem decodeNonBoolean_reads (columnIndex : Nat) (column : ColumnDef) (schema : RowSchema)
    (hcolumn : column.columnType ≠ .boolean) :
    Reads row row.length (decodeNonBoolean row columnIndex column schema) (FieldRepr schema column) := by
  have hinteger := reads_map (@readSigned_reads row columnIndex column.width) Value.integer
  have hunsigned := reads_map (@readUnsigned_reads row columnIndex column.width) Value.unsigned
  have hword := @takeSigned_reads row 4 (by decide) columnIndex
  have hvariable := @decodeVariable_reads row columnIndex column schema
  rw [decodeNonBoolean]
  cases hc : column.columnType with
  | boolean => exact absurd hc hcolumn
  | char | char2 | text | text2 => exact hvariable.congr fun v f => by simp only [FieldRepr, hc]
  | smallInt | integer | integer2 =>
      apply hinteger.congr
      intro v f
      simp only [FieldRepr, hc]
      exact ⟨fun ⟨x, hv, hw, hx⟩ => ⟨hw, x, hv, hx⟩, fun ⟨hw, x, hv, hx⟩ => ⟨x, hv, hw, hx⟩⟩
  | uInt64 | uInt32 =>
      apply hunsigned.congr
      intro v f
      simp only [FieldRepr, hc]
      exact ⟨fun ⟨n, hv, hw, hn⟩ => ⟨hw, n, hv, hn⟩, fun ⟨hw, n, hv, hn⟩ => ⟨n, hv, hw, hn⟩⟩
  | int64 =>
      simp only [ColumnType.isVariable, Bool.false_eq_true, ↓reduceIte]
      split
      next h => exact (Reads.fail le_rfl _).congr fun v f => by simp [FieldRepr, hc, h]
      next h =>
        apply (reads_map (takeSigned_reads (by decide) columnIndex) Value.integer).congr
        intro v f
        simp only [FieldRepr, hc, not_not.mp h, true_and]
  | numeric => exact (decodeNumericValue_reads columnIndex _).congr fun v f => by simp only [FieldRepr, hc]
  | enum => exact (decodeEnum_reads columnIndex _ _).congr fun v f => by simp only [FieldRepr, hc]
  | date =>
      apply (reads_map hword fun m => Value.date ⟨m⟩).congr
      intro v f
      simp only [FieldRepr, hc]
  | dateTime =>
      refine (hword.bind fun m _ _ =>
        reads_map hword fun s => Value.dateTime ⟨⟨m⟩, m, s⟩).congr fun v f => ?_
      simp only [FieldRepr, hc]
      constructor
      · rintro ⟨m, g, h, hm, ⟨s, rfl, hs⟩, rfl⟩
        exact ⟨m, s, g, h, rfl, hm, hs, rfl⟩
      · rintro ⟨m, s, g, h, rfl, hm, hs, rfl⟩
        exact ⟨m, g, h, hm, ⟨s, rfl, hs⟩, rfl⟩

theorem fieldRepr_ne_null {schema : RowSchema} {column : ColumnDef} {value : Value} {f : Bytes}
    (h : FieldRepr schema column value f) : value ≠ .null := by
  rintro rfl
  rw [FieldRepr, NumericRepr] at h
  cases hc : column.columnType <;> rw [hc] at h <;> cases hl : schema.numericLayout <;> simp_all <;> cases h

/-- Schemas that write all columns but the Booleans alike. -/
structure SameFields (schema schema' : RowSchema) : Prop where
  numeric : schema.numericLayout = schema'.numericLayout
  enum : schema.enumLayout = schema'.enumLayout
  overflow : schema.variableOverflowLayout = schema'.variableOverflowLayout
  length : schema.variableLengthLayout = schema'.variableLengthLayout

theorem SameFields.variableRepr {schema schema' : RowSchema} {column : ColumnDef} {value : Value} {f : Bytes}
    (hsame : SameFields schema schema') (h : VariableRepr schema column value f) :
    VariableRepr schema' column value f := by
  cases h with
  | bytes data h =>
      rw [hsame.length] at h ⊢
      exact .bytes data h
  | overflow pointer hpos h =>
      rw [hsame.overflow] at h
      rw [hsame.length]
      exact .overflow pointer hpos h

theorem SameFields.fieldRepr {schema schema' : RowSchema} {column : ColumnDef} {value : Value} {f : Bytes}
    (hsame : SameFields schema schema') (h : FieldRepr schema column value f) : FieldRepr schema' column value f := by
  rw [FieldRepr] at h ⊢
  cases htype : column.columnType with
  | char | char2 | text | text2 =>
      rw [htype] at h
      exact hsame.variableRepr h
  | enum =>
      rw [htype] at h
      exact hsame.enum ▸ h
  | numeric =>
      rw [htype] at h
      exact hsame.numeric ▸ h
  | smallInt | integer | integer2 | int64 | uInt64 | uInt32 | date | dateTime | boolean =>
      rw [htype] at h
      exact h

end OpenSqlAny.RowFields
