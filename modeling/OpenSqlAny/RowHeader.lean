import OpenSqlAny.RowDecoder
import OpenSqlAny.RowGrammar

namespace OpenSqlAny.RowHeader

open Library.Faults Library.LittleEndian Library.PackedBits RowTypes RowDecoder RowGrammar

variable {schema : RowSchema} {input bitmap : Bytes}

theorem sizeWord_flags_iff {n : Nat} (hn : n < 2 ^ 16) : n &&& rowFlagMask = 0 ↔ n < 2 ^ 13 := by
  constructor
  · intro h
    have hshift : (n >>> 13) &&& (2 ^ 3 - 1) = 0 := by
      have := congrArg (· >>> 13) h
      simpa [Nat.shiftRight_and_distrib, rowFlagMask] using this
    rw [Nat.and_two_pow_sub_one_eq_mod, Nat.shiftRight_eq_div_pow] at hshift
    omega
  · intro h
    have hself : n &&& (2 ^ 13 - 1) = n := Nat.and_two_pow_sub_one_of_lt_two_pow h
    calc n &&& rowFlagMask = n &&& (2 ^ 13 - 1) &&& rowFlagMask := by rw [hself]
      _ = n &&& ((2 ^ 13 - 1) &&& rowFlagMask) := Nat.and_assoc ..
      _ = 0 := Nat.and_zero n

theorem sizeWord_size {n : Nat} (hn : n < 2 ^ 13) : n &&& rowSizeMask = n :=
  Nat.and_two_pow_sub_one_of_lt_two_pow hn

def presenceFlag (schema : RowSchema) (bitmap : Bytes) (entry : ColumnDef × Nat) : Bool :=
  !entry.1.nullable || saysPresent schema.nullBitmapLayout bitmap (bitmapIndex schema entry.2)

def presenceFlags (schema : RowSchema) (bitmap : Bytes) : List Bool :=
  schema.columns.zipIdx.map (presenceFlag schema bitmap)

@[simp] theorem length_presenceFlags : (presenceFlags schema bitmap).length = schema.columns.length := by
  simp [presenceFlags]

theorem saysPresent_eq (layout : NullBitmapLayout) {i : Nat} {byte : UInt8} (h : bitmap[i / 8]? = some byte) :
    (if setMeansPresent layout then byte &&& mask (nullBitOrder layout) (i % 8) != 0
      else !(byte &&& mask (nullBitOrder layout) (i % 8) != 0)) = saysPresent layout bitmap i := by
  rw [and_mask_ne_zero _ _ (Nat.mod_lt _ (by decide)), ← bitAt_of_getElem? h]
  cases layout <;> rfl

theorem countP_take_succ {columns : List ColumnDef} {i : Nat} {column : ColumnDef}
    (hcolumn : columns[i]? = some column) : (columns.take (i + 1)).countP (·.nullable) =
      if column.nullable then (columns.take i).countP (·.nullable) + 1 else (columns.take i).countP (·.nullable) := by
  obtain ⟨hi, rfl⟩ := List.getElem?_eq_some_iff.mp hcolumn
  rw [List.take_succ_eq_append_getElem hi, List.countP_append, List.countP_singleton]
  split <;> simp

theorem bitmapIndex_lt {i : Nat} {column : ColumnDef} (hcolumn : schema.columns[i]? = some column)
    (hnullable : column.nullable = true) : bitmapIndex schema i < schema.nullBitmapBitCount := by
  have hi := (List.getElem?_eq_some_iff.mp hcolumn).1
  rw [bitmapIndex, RowSchema.nullBitmapBitCount, RowSchema.nullableCount]
  cases schema.nullBitmapCoverage with
  | nullableColumns =>
      have hle := (List.take_sublist (i + 1) schema.columns).countP_le (p := fun c => c.nullable)
      rw [countP_take_succ hcolumn, if_pos hnullable] at hle
      exact hle
  | allColumns => exact hi

theorem presenceFrom_eq (hbitmap : bitmap.length = byteCount schema.nullBitmapBitCount)
    (columns : List ColumnDef) (i n : Nat) (hcolumns : columns = schema.columns.drop i)
    (hn : schema.nullBitmapCoverage = .nullableColumns → n = (schema.columns.take i).countP (·.nullable)) :
    presenceFrom schema bitmap columns i n = .ok ((columns.zipIdx i).map (presenceFlag schema bitmap)) := by
  induction columns generalizing i n with
  | nil => rfl
  | cons column columns ih =>
      have hhead : schema.columns[i]? = some column := by
        rw [← List.head?_drop, ← hcolumns, List.head?_cons]
      have hrest : columns = schema.columns.drop (i + 1) := by
        rw [← List.tail_drop, ← hcolumns, List.tail_cons]
      have hstep {k m : Nat} (hk : k = bitmapIndex schema i)
          (hm : presenceFrom schema bitmap columns (i + 1) m =
            .ok ((columns.zipIdx (i + 1)).map (presenceFlag schema bitmap))) :
          (do
            let isNull ← if column.nullable then do
                let byte ← index bitmap (k / 8)
                let set := byte &&& mask (nullBitOrder schema.nullBitmapLayout) (k % 8) != 0
                let fieldPresent := if setMeansPresent schema.nullBitmapLayout then set else !set
                pure (!fieldPresent)
              else pure false
            let present ← presenceFrom schema bitmap columns (i + 1) m
            pure ((!isNull) :: present) : Outcome DecodeError (List Bool)) =
          .ok (((column :: columns).zipIdx i).map (presenceFlag schema bitmap)) := by
        subst hk
        rw [hm, List.zipIdx_cons, List.map_cons]
        cases hnullable : column.nullable with
        | false => simp [presenceFlag, hnullable, bind, Except.bind, pure, Except.pure]
        | true =>
            have hbyte : bitmapIndex schema i / 8 < bitmap.length :=
              hbitmap ▸ lt_byteCount (bitmapIndex_lt hhead hnullable)
            have hflag := saysPresent_eq schema.nullBitmapLayout (List.getElem?_eq_getElem hbyte)
            simp only [index_of_lt hbyte, ↓reduceIte, bind, Except.bind, pure, Except.pure, hflag]
            simp [presenceFlag, hnullable]
      rw [presenceFrom]
      cases hc : schema.nullBitmapCoverage with
      | nullableColumns =>
          refine hstep (by simp only [bitmapIndex, hc, hn hc]) (ih _ _ hrest fun _ => ?_)
          rw [countP_take_succ hhead, hn hc]
      | allColumns => exact hstep (by simp only [bitmapIndex, hc]) (ih _ _ hrest fun h => by simp [hc] at h)

def rawSize (input : Bytes) : Nat := fromLeBytes (input.take 2)

theorem rawSize_lt (input : Bytes) : rawSize input < 2 ^ 16 := by
  refine (fromLeBytes_lt _).trans_le (Nat.pow_le_pow_right (by decide) ?_)
  rw [List.length_take]
  omega

def headerLen (schema : RowSchema) : Nat :=
  2 + carrierLen schema.rowPrefixLayout + byteCount schema.nullBitmapBitCount

def bitmapOf (schema : RowSchema) (row : Bytes) : Bytes :=
  (row.take (headerLen schema)).drop (2 + carrierLen schema.rowPrefixLayout)

def headerOf (schema : RowSchema) (row : Bytes) : RowHeaderAndPresence where
  row := row
  declaredSize := row.length
  flags := 0
  nullBitmap := bitmapOf schema row
  cursor := headerLen schema
  present := presenceFlags schema (bitmapOf schema row)

@[simp] theorem headerOf_row (schema : RowSchema) (row : Bytes) : (headerOf schema row).row = row := rfl

@[simp] theorem headerOf_declaredSize (schema : RowSchema) (row : Bytes) :
    (headerOf schema row).declaredSize = row.length := rfl

@[simp] theorem headerOf_flags (schema : RowSchema) (row : Bytes) : (headerOf schema row).flags = 0 := rfl

@[simp] theorem headerOf_cursor (schema : RowSchema) (row : Bytes) :
    (headerOf schema row).cursor = headerLen schema := rfl

@[simp] theorem headerOf_present (schema : RowSchema) (row : Bytes) :
    (headerOf schema row).present = presenceFlags schema (bitmapOf schema row) := rfl

theorem rowHeaderAndPresence_eq (hlen : 2 ≤ input.length) : rowHeaderAndPresence input schema =
    if rawSize input &&& rowSizeMask < 2 ∨ rawSize input &&& rowSizeMask > input.length then
      fail (.invalidRowSize (rawSize input &&& rowSizeMask) input.length)
    else if rawSize input &&& rowFlagMask ≠ 0 then fail (.unsupportedRowFlags (rawSize input &&& rowFlagMask))
    else if rawSize input < headerLen schema then
      fail (.truncated 0 (carrierLen schema.rowPrefixLayout + byteCount schema.nullBitmapBitCount)
        (rawSize input - 2))
    else .ok (headerOf schema (input.take (rawSize input))) := by
  obtain ⟨x, y, rest, rfl⟩ : ∃ x y rest, input = x :: y :: rest := by
    match input, hlen with
    | x :: y :: rest, _ => exact ⟨x, y, rest, rfl⟩
  have hbegins : prefixLen schema.rowPrefixLayout = carrierLen schema.rowPrefixLayout := by
    cases schema.rowPrefixLayout <;> rfl
  set input := x :: y :: rest with hinput
  have hraw : fromLeBytes [x, y] = rawSize input := rfl
  have hx : index (ε := DecodeError) input 0 = .ok x := rfl
  have hy : index (ε := DecodeError) input 1 = .ok y := rfl
  have hlt := rawSize_lt input
  rw [rowHeaderAndPresence, if_neg (by omega), hx, hy, hbegins]
  change (if fromLeBytes [x, y] &&& rowSizeMask < 2 ∨ _ then _ else _) = _
  rw [hraw]
  split
  · rfl
  next hsize =>
    split
    · rfl
    next hflags =>
      have hraw13 := (sizeWord_flags_iff hlt).mp (not_not.mp hflags)
      rw [sizeWord_size hraw13] at hsize ⊢
      have hslice : slice (ε := DecodeError) input 0 (rawSize input) = .ok (input.take (rawSize input)) := by
        rw [slice_of_le (Nat.zero_le _) (by omega), List.drop_zero]
      have hrow : (input.take (rawSize input)).length = rawSize input := by
        rw [List.length_take]
        omega
      rw [hslice]
      change (if (input.take (rawSize input)).length < _ then _ else _) = _
      rw [hrow]
      change (if rawSize input < headerLen schema then _ else _) = _
      split
      · rfl
      next hfits =>
        rw [headerLen] at hfits
        rw [slice_of_le (by omega) (by omega)]
        change (presenceFrom schema _ schema.columns 0 0 >>= _) = _
        rw [presenceFrom_eq (by simp [List.length_take]; omega) schema.columns 0 0 rfl (fun _ => rfl), not_not.mp hflags]
        simp only [headerOf, hrow]
        rfl

/-- A header is valid when the size word has no flags and fits the input and the header. -/
structure HeaderValid (schema : RowSchema) (input : Bytes) (size : Nat) : Prop where
  le_size : 2 ≤ size
  size_le : size ≤ input.length
  size_lt : size < 2 ^ 13
  word : toLeBytes 2 size <+: input
  fits : headerLen schema ≤ size

theorem HeaderValid.length_row {size : Nat} (hv : HeaderValid schema input size) :
    (input.take size).length = size := by
  rw [List.length_take, Nat.min_eq_left hv.size_le]

theorem rawSize_eq_iff {size : Nat} (hlen : 2 ≤ input.length) (hsize : size < 2 ^ 13) :
    rawSize input = size ↔ toLeBytes 2 size <+: input := by
  rw [rawSize]
  rw [fromLeBytes_eq_iff, List.length_take, Nat.min_eq_left hlen, List.prefix_iff_eq_take, length_toLeBytes]
  constructor
  · exact fun h => h.2.symm
  · exact fun h => ⟨by omega, h.symm⟩

theorem rowHeaderAndPresence_eq_ok_iff (hlen : 2 ≤ input.length) {header : RowHeaderAndPresence} :
    rowHeaderAndPresence input schema = .ok header ↔
      ∃ size, HeaderValid schema input size ∧ header = headerOf schema (input.take size) := by
  have hlt := rawSize_lt input
  rw [rowHeaderAndPresence_eq hlen]
  constructor
  · intro h
    split at h
    · cases h
    split at h
    · cases h
    next hflags =>
      have hraw := (sizeWord_flags_iff hlt).mp (not_not.mp hflags)
      rw [sizeWord_size hraw] at *
      split at h
      · cases h
      cases h
      exact ⟨_, ⟨by omega, by omega, hraw, (rawSize_eq_iff hlen hraw).mp rfl, by omega⟩, rfl⟩
  · rintro ⟨size, hv, rfl⟩
    obtain rfl := (rawSize_eq_iff hlen hv.size_lt).mpr hv.word
    have h₁ := hv.le_size
    have h₂ := hv.size_le
    have h₃ := hv.fits
    rw [sizeWord_size hv.size_lt, (sizeWord_flags_iff hlt).mpr hv.size_lt, if_neg (by omega), if_neg (by simp),
      if_neg (by omega)]

theorem rowHeaderAndPresence_ne_panic (hlen : 2 ≤ input.length) :
    rowHeaderAndPresence input schema ≠ .error .panic := by
  rw [rowHeaderAndPresence_eq hlen]
  simp only [fail]
  split_ifs <;> simp

end OpenSqlAny.RowHeader
