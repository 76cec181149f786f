import OpenSqlAny.HeaderRewriting
import OpenSqlAny.RowTyping

namespace OpenSqlAny.RowWriting

open Library.Faults Library.LittleEndian Library.PackedBits RowTypes RowDecoder RowGrammar RowLoop RowTail RowHeader
open RowSoundness StagedAgreement HeaderRewriting RowTyping

def pointerWidth : VariableOverflowLayout → Nat
  | .unsupported => 0
  | .pointer width => width

/-- The most bytes that a value of the column takes. -/
def fieldBound (schema : RowSchema) (column : ColumnDef) : Nat :=
  match column.columnType with
  | .smallInt | .integer | .integer2 | .int64 | .uInt64 | .uInt32 | .enum => column.width
  | .numeric => 257
  | .date => 4
  | .dateTime => 8
  | .char | .char2 | .text | .text2 =>
      lengthWidth column schema.variableLengthLayout +
        max (overflowMarker (lengthWidth column schema.variableLengthLayout)) (pointerWidth schema.variableOverflowLayout)
  | .boolean => 2

def rowBound (schema : RowSchema) : Nat := headerLen schema + (schema.columns.map (fieldBound schema)).sum

def cellBound (schema : RowSchema) (cell : Cell) : Nat := if cell.2 = .null then 0 else fieldBound schema cell.1

section Fields

variable {schema : RowSchema} {column : ColumnDef} {value : Value}

theorem exists_base100 (w n : Nat) (h : n < 100 ^ w) :
    ∃ digits : Bytes, digits.length = w ∧ (∀ d ∈ digits, d ≤ 99) ∧ base100 digits = n := by
  induction w generalizing n with
  | zero => exact ⟨[], rfl, by simp, (Nat.lt_one_iff.mp h).symm⟩
  | succ w ih =>
      obtain ⟨digits, hlength, hdigits, hvalue⟩ := ih (n / 100) (by rw [Nat.pow_succ] at h; omega)
      have hlast : (UInt8.ofNat (n % 100)).toNat = n % 100 := by
        rw [UInt8.toNat_ofNat']
        omega
      refine ⟨digits ++ [UInt8.ofNat (n % 100)], by rw [List.length_append, hlength]; rfl, ?_, ?_⟩
      · intro d hd
        rcases List.mem_append.mp hd with hd | hd
        · exact hdigits d hd
        · rw [List.mem_singleton.mp hd, UInt8.le_iff_toNat_le, hlast]
          exact Nat.le_of_lt_succ (Nat.mod_lt n (by decide))
      · rw [base100] at hvalue
        rw [base100, List.foldl_append, hvalue, List.foldl_cons, List.foldl_nil, hlast]
        omega

theorem exists_token {d : Decimal} (h : LegacyForm d) :
    ∃ marker digits, digits.length < 256 ∧ (∀ x ∈ digits, x ≤ 99) ∧ d = legacyDecimal marker digits := by
  cases h with
  | short negative n hle hsign =>
      cases negative with
      | false =>
          have hmarker : (UInt8.ofNat (0x80 - n)).toNat = 0x80 - n := by
            rw [UInt8.toNat_ofNat']
            omega
          refine ⟨UInt8.ofNat (0x80 - n), [], by decide, by simp, ?_⟩
          have hsmall : ¬ 0x80 < UInt8.ofNat (0x80 - n) := by
            rw [UInt8.lt_iff_toNat_lt, hmarker]
            exact Nat.not_lt.mpr (Nat.sub_le 0x80 n)
          rw [legacyDecimal, if_pos rfl, decide_eq_false hsmall, hmarker,
            show (0x80 - ((0x80 - n : Nat) : Int)).natAbs = n by omega]
      | true =>
          obtain ⟨hpos, hlt⟩ := hsign rfl
          have hmarker : (UInt8.ofNat (0x80 + n)).toNat = 0x80 + n := by
            rw [UInt8.toNat_ofNat']
            omega
          refine ⟨UInt8.ofNat (0x80 + n), [], by decide, by simp, ?_⟩
          have hlarge : 0x80 < UInt8.ofNat (0x80 + n) := by
            rw [UInt8.lt_iff_toNat_lt, hmarker]
            exact Nat.lt_add_of_pos_right hpos
          rw [legacyDecimal, if_pos rfl, decide_eq_true hlarge, hmarker,
            show (0x80 - ((0x80 + n : Nat) : Int)).natAbs = n by omega]
  | scaled n k hlt hle =>
      obtain ⟨digits, hlength, hdigits, rfl⟩ := exists_base100 255 n hlt
      have hne : digits ≠ [] := List.ne_nil_of_length_pos (by omega)
      have hmarker : (UInt8.ofNat (0xc0 - k)).toNat = 0xc0 - k := by
        rw [UInt8.toNat_ofNat']
        omega
      refine ⟨UInt8.ofNat (0xc0 - k), digits, by omega, hdigits, ?_⟩
      rw [legacyDecimal, if_neg hne, hmarker, Nat.sub_eq_zero_of_le (Nat.sub_le 0xc0 k), Nat.mul_zero,
        List.replicate_zero, List.append_nil, Nat.sub_sub_self hle]
  | shifted n k hlt hle =>
      obtain ⟨digits, hlength, hdigits, rfl⟩ := exists_base100 255 n hlt
      have hne : digits ≠ [] := List.ne_nil_of_length_pos (by omega)
      have hmarker : (UInt8.ofNat (0xc0 + k)).toNat = 0xc0 + k := by
        rw [UInt8.toNat_ofNat']
        omega
      refine ⟨UInt8.ofNat (0xc0 + k), digits, by omega, hdigits, ?_⟩
      rw [legacyDecimal, if_neg hne, hmarker, Nat.add_sub_cancel_left, Nat.sub_eq_zero_of_le (Nat.le_add_right 0xc0 k)]

theorem numericRepr_token {marker : UInt8} {digits : Bytes} (hcolumn : column.columnType = .numeric)
    (hlength : digits.length < 256) (hdigits : ∀ d ∈ digits, d ≤ 99)
    (hvalue : value = match schema.numericLayout with
      | .legacyForward => .decimal (legacyDecimal marker digits)
      | .enterpriseMaterializedRaw => .enterpriseNumeric ⟨marker, digits⟩) :
    ∃ f, FieldRepr schema column value f ∧ f.length ≤ fieldBound schema column := by
  refine ⟨UInt8.ofNat digits.length :: marker :: digits, ?_, ?_⟩
  · simp only [FieldRepr, hcolumn]
    exact ⟨marker, digits, ⟨hlength, hdigits, rfl⟩, hvalue⟩
  · simp only [fieldBound, hcolumn, List.length_cons]
    omega

theorem fieldRepr_variable {f : Bytes} (hcolumn : column.columnType.isVariable = true) :
    FieldRepr schema column value f ↔ VariableRepr schema column value f := by
  cases hc : column.columnType <;> simp only [hc, ColumnType.isVariable, Bool.false_eq_true] at hcolumn <;>
    simp only [FieldRepr, hc]

theorem fieldBound_variable (hcolumn : column.columnType.isVariable = true) :
    fieldBound schema column = lengthWidth column schema.variableLengthLayout +
      max (overflowMarker (lengthWidth column schema.variableLengthLayout))
        (pointerWidth schema.variableOverflowLayout) := by
  cases hc : column.columnType <;> simp only [hc, ColumnType.isVariable, Bool.false_eq_true] at hcolumn <;>
    simp only [fieldBound, hc]

theorem exists_fieldRepr (h : FitsColumn schema column value) (hvalue : value ≠ .null)
    (hcolumn : column.columnType ≠ .boolean) :
    ∃ f, FieldRepr schema column value f ∧ f.length ≤ fieldBound schema column := by
  cases value with
  | null => exact absurd rfl hvalue
  | boolean b => exact absurd h hcolumn
  | integer x =>
      obtain ⟨htype, hwidth, hlong, hlow, hhigh⟩ := h
      refine ⟨toLeSigned column.width x, ?_⟩
      simp only [List.mem_cons, List.not_mem_nil, or_false] at htype
      rcases htype with hc | hc | hc | hc <;> simp only [FieldRepr, fieldBound, hc, length_toLeSigned, le_refl, and_true]
      · exact ⟨hwidth, x, rfl, hlow, hhigh, rfl⟩
      · exact ⟨hwidth, x, rfl, hlow, hhigh, rfl⟩
      · exact ⟨hwidth, x, rfl, hlow, hhigh, rfl⟩
      · have height := hlong hc
        rw [height] at hlow hhigh ⊢
        exact ⟨rfl, x, rfl, hlow, hhigh, rfl⟩
  | unsigned n =>
      obtain ⟨htype, hwidth, hlt⟩ := h
      refine ⟨toLeBytes column.width n, ?_⟩
      simp only [List.mem_cons, List.not_mem_nil, or_false] at htype
      rcases htype with hc | hc <;> simp only [FieldRepr, fieldBound, hc, length_toLeBytes, le_refl, and_true]
      · exact ⟨hwidth, n, rfl, hlt, rfl⟩
      · exact ⟨hwidth, n, rfl, hlt, rfl⟩
  | enum n =>
      obtain ⟨hc, hlayout, hwidth, hlt⟩ := h
      refine ⟨toLeBytes column.width n, ?_⟩
      simp only [FieldRepr, fieldBound, hc, length_toLeBytes, le_refl, and_true]
      exact ⟨hlayout, hwidth, n, rfl, hlt, rfl⟩
  | decimal d =>
      obtain ⟨hc, hlayout, hform⟩ := h
      obtain ⟨marker, digits, hlength, hdigits, rfl⟩ := exists_token hform
      exact numericRepr_token hc hlength hdigits (by rw [hlayout])
  | enterpriseNumeric token =>
      obtain ⟨hc, hlayout, hlength, hdigits⟩ := h
      exact numericRepr_token hc hlength hdigits (by rw [hlayout])
  | overflowPointer pointer =>
      obtain ⟨hvariable, hpos, hlayout⟩ := h
      refine ⟨_, (fieldRepr_variable hvariable).mpr (.overflow pointer hpos hlayout), ?_⟩
      rw [fieldBound_variable hvariable, List.length_append, length_toLeBytes, hlayout]
      exact Nat.add_le_add_left (Nat.le_max_right _ _) _
  | bytes data =>
      obtain ⟨hvariable, hlt⟩ := h
      refine ⟨_, (fieldRepr_variable hvariable).mpr (.bytes data hlt), ?_⟩
      rw [fieldBound_variable hvariable, List.length_append, length_toLeBytes]
      exact Nat.add_le_add_left (hlt.le.trans (Nat.le_max_left _ _)) _
  | date d =>
      obtain ⟨hc, hlow, hhigh⟩ := h
      refine ⟨toLeSigned 4 d.rawMinutes, ?_⟩
      simp only [FieldRepr, fieldBound, hc, length_toLeSigned, le_refl, and_true]
      exact ⟨d.rawMinutes, rfl, hlow, hhigh, rfl⟩
  | dateTime d =>
      obtain ⟨⟨m⟩, minutes, subminute⟩ := d
      obtain ⟨hc, hsame, ⟨hlow, hhigh⟩, hlow', hhigh'⟩ := h
      simp only at hsame hlow hhigh hlow' hhigh'
      subst hsame
      refine ⟨toLeSigned 4 m ++ toLeSigned 4 subminute, ?_⟩
      simp only [FieldRepr, fieldBound, hc, List.length_append, length_toLeSigned, le_refl, and_true]
      exact ⟨m, subminute, _, _, rfl, ⟨hlow, hhigh, rfl⟩, ⟨hlow', hhigh', rfl⟩, rfl⟩

end Fields

section Cells

variable {schema : RowSchema} {cells : List Cell}

def CellFits (schema : RowSchema) (cell : Cell) : Prop := FitsColumn schema cell.1 cell.2

theorem boolean_of_fits {column : ColumnDef} {value : Value} (h : FitsColumn schema column value)
    (hcolumn : column.columnType = .boolean) (hvalue : value ≠ .null) : ∃ b, value = .boolean b := by
  cases value with
  | boolean b => exact ⟨b, rfl⟩
  | null => exact absurd rfl hvalue
  | _ => simp [FitsColumn, hcolumn, ColumnType.isVariable] at h

theorem booleans_of_fits (hfits : ∀ cell ∈ cells, CellFits schema cell)
    (hboolean : ∀ cell ∈ cells, isPresentBoolean cell = true) :
    ∃ (columns : List ColumnDef) (bools : List Bool), (∀ column ∈ columns, column.columnType = .boolean) ∧
      columns.length = bools.length ∧ cells = columns.zip (bools.map .boolean) := by
  induction cells with
  | nil => exact ⟨[], [], by simp, rfl, rfl⟩
  | cons cell cells ih =>
      obtain ⟨hcell, hcells⟩ := List.forall_mem_cons.mp hfits
      obtain ⟨hpresent, hrest⟩ := List.forall_mem_cons.mp hboolean
      obtain ⟨columns, bools, htypes, hlength, rfl⟩ := ih hcells hrest
      obtain ⟨column, value⟩ := cell
      obtain ⟨hcolumn, hvalue⟩ : column.columnType = .boolean ∧ value ≠ .null := of_decide_eq_true hpresent
      obtain ⟨b, rfl⟩ := boolean_of_fits hcell hcolumn hvalue
      refine ⟨column :: columns, b :: bools, List.forall_mem_cons.mpr ⟨hcolumn, htypes⟩, ?_, rfl⟩
      rw [List.length_cons, List.length_cons, hlength]

theorem length_inlineBoolean {layout : BooleanTailLayout} {b : Bool} {g : Bytes} (h : inlineBoolean layout b = some g) :
    g.length ≤ 2 := by
  cases layout <;> simp only [inlineBoolean, Option.some.injEq, reduceCtorEq] at h <;> subst h <;> simp

theorem inline_or_run {layout : BooleanTailLayout} (h : hasTail layout = false) (b : Bool) :
    (∃ g, inlineBoolean layout b = some g) ∨ ∃ order, runOrder layout = some order := by
  cases layout <;> simp [inlineBoolean, runOrder, hasTail] at h ⊢

theorem run_split {cell : Cell} (hfits : ∀ cell' ∈ cell :: cells, cell'.2 ≠ .null → CellFits schema cell')
    (hcell : isPresentBoolean cell = true) :
    ∃ (columns : List ColumnDef) (bools : List Bool) (rest : List Cell),
      cell :: cells = columns.zip (bools.map .boolean) ++ rest ∧ (∀ column ∈ columns, column.columnType = .boolean) ∧
      columns.length = bools.length ∧ bools ≠ [] ∧ ∀ cell' ∈ rest.head?, isPresentBoolean cell' = false := by
  have hrun : ∀ cell' ∈ (cell :: cells).takeWhile isPresentBoolean, isPresentBoolean cell' = true :=
    fun cell' h => List.mem_takeWhile_imp h
  obtain ⟨columns, bools, htypes, hlength, hzip⟩ := @booleans_of_fits schema _ (fun cell' h => by
    obtain ⟨-, hvalue⟩ : cell'.1.columnType = .boolean ∧ cell'.2 ≠ .null := of_decide_eq_true (hrun cell' h)
    exact hfits cell' ((List.takeWhile_prefix isPresentBoolean).subset h) hvalue) hrun
  refine ⟨columns, bools, (cell :: cells).dropWhile isPresentBoolean, ?_, htypes, hlength, ?_, ?_⟩
  · rw [← hzip, List.takeWhile_append_dropWhile]
  · rintro rfl
    rw [List.takeWhile_cons_of_pos hcell] at hzip
    simp at hzip
  · intro cell' h
    have hhead := List.head?_dropWhile_not isPresentBoolean (cell :: cells)
    rw [Option.mem_def.mp h] at hhead
    simpa using hhead

theorem sum_cellBound_run {columns : List ColumnDef} {bools : List Bool}
    (htypes : ∀ column ∈ columns, column.columnType = .boolean) (hlength : columns.length = bools.length) :
    ((columns.zip (bools.map Value.boolean)).map (cellBound schema)).sum = 2 * bools.length := by
  induction columns generalizing bools with
  | nil =>
      obtain rfl := List.length_eq_zero_iff.mp hlength.symm
      rfl
  | cons column columns ih =>
      cases bools with
      | nil => simp at hlength
      | cons b bools =>
          obtain ⟨hcolumn, hcolumns⟩ := List.forall_mem_cons.mp htypes
          have hrest := ih hcolumns (by simpa using hlength)
          have hbound : cellBound schema (column, .boolean b) = 2 := by
            rw [cellBound, if_neg (by simp), fieldBound, hcolumn]
          rw [List.map_cons, List.zip_cons_cons, List.map_cons, List.sum_cons, hrest, hbound, List.length_cons]
          omega

/-- Cells that fit have fields, where those of a sidecar have been taken out. -/
theorem exists_fieldsRepr (hfits : ∀ cell ∈ cells, cell.2 ≠ .null → CellFits schema cell)
    (hsidecar : hasTail schema.booleanTail = true → ∀ cell ∈ cells, isPresentBoolean cell = false) :
    ∃ f, FieldsRepr schema cells.length cells f ∧ f.length ≤ (cells.map (cellBound schema)).sum := by
  induction hn : cells.length using Nat.strongRecOn generalizing cells with
  | ind n ih =>
      cases cells with
      | nil =>
          subst hn
          exact ⟨[], .stop [], Nat.le_refl 0⟩
      | cons cell cells =>
          obtain ⟨hcell, hcells⟩ := List.forall_mem_cons.mp hfits
          have htail : hasTail schema.booleanTail = true → ∀ cell ∈ cells, isPresentBoolean cell = false :=
            fun h cell hmem => hsidecar h cell (List.mem_cons_of_mem _ hmem)
          obtain ⟨column, value⟩ := cell
          subst hn
          obtain ⟨f, hf, hlength⟩ := ih cells.length (Nat.lt_succ_self _) hcells htail rfl
          by_cases hvalue : value = .null
          · subst hvalue
            refine ⟨f, .null hf, ?_⟩
            rwa [List.map_cons, List.sum_cons, cellBound, if_pos rfl, Nat.zero_add]
          · by_cases hcolumn : column.columnType = .boolean
            · obtain ⟨b, rfl⟩ := boolean_of_fits (hcell hvalue) hcolumn hvalue
              have hpresent : isPresentBoolean (column, .boolean b) = true := by simp [isPresentBoolean, hcolumn]
              have hlayout : hasTail schema.booleanTail = false := by
                by_contra htrue
                have habsent := hsidecar (by simpa using htrue) _ List.mem_cons_self
                rw [hpresent] at habsent
                cases habsent
              rcases inline_or_run hlayout b with ⟨g, hg⟩ | ⟨order, horder⟩
              · refine ⟨g ++ f, .inline hcolumn hg hf, ?_⟩
                have hbound : cellBound schema (column, .boolean b) = 2 := by
                  rw [cellBound, if_neg hvalue, fieldBound, hcolumn]
                rw [List.map_cons, List.sum_cons, hbound, List.length_append]
                exact Nat.add_le_add (length_inlineBoolean hg) hlength
              · -- the run is written whole, and the induction goes on behind it
                obtain ⟨columns, bools, rest, hsplit, htypes, hcolumns, hne, hmax⟩ := run_split hfits hpresent
                have htotal : cells.length + 1 = bools.length + rest.length := by
                  have h := congrArg List.length hsplit
                  rwa [List.length_cons, List.length_append, List.length_zip, List.length_map, hcolumns,
                    Nat.min_self] at h
                have hbools := List.length_pos_iff.mpr hne
                have hsubset : ∀ cell ∈ rest, cell ∈ (column, Value.boolean b) :: cells := fun cell hmem => by
                  rw [hsplit]
                  exact List.mem_append_right _ hmem
                obtain ⟨f', hf', hlength'⟩ := ih rest.length (by rw [List.length_cons]; omega)
                  (fun cell hmem => hfits cell (hsubset cell hmem))
                  (fun h cell hmem => hsidecar h cell (hsubset cell hmem)) rfl
                rw [show rest.length = cells.length + 1 - bools.length by omega] at hf'
                refine ⟨pack order bools ++ f', ?_, ?_⟩
                · have hrun := FieldsRepr.run horder htypes hcolumns hne hmax (packs_pack order bools) hf'
                  rw [← hsplit] at hrun
                  exact hrun
                · rw [hsplit, List.map_append, List.sum_append, sum_cellBound_run htypes hcolumns, List.length_append,
                    length_pack, byteCount]
                  omega
            · obtain ⟨g, hg, hbound⟩ := exists_fieldRepr (hcell hvalue) hvalue hcolumn
              refine ⟨g ++ f, .field hg hf, ?_⟩
              rw [List.map_cons, List.sum_cons, cellBound, if_neg hvalue, List.length_append]
              exact Nat.add_le_add hbound hlength

end Cells

def presenceOf (values : List Value) : List Bool := values.map fun value => decide (value ≠ .null)

section Rows

variable {schema : RowSchema} {cells : List Cell} {values : List Value}

/-- What a sidecar takes off the fields is no less than it has itself. -/
theorem sum_bodyCells (hl : hasTail schema.booleanTail = true) :
    ((bodyCells schema.booleanTail cells).map (cellBound schema)).sum + (cells.filter isPresentBoolean).length ≤
      (cells.map (cellBound schema)).sum := by
  induction cells with
  | nil => exact Nat.le_refl 0
  | cons cell cells ih =>
      obtain ⟨column, value⟩ := cell
      rw [bodyCells] at ih ⊢
      simp only [List.map_cons, List.sum_cons]
      by_cases hcolumn : column.columnType = .boolean
      · by_cases hvalue : value = .null
        · subst hvalue
          rw [List.filter_cons_of_neg (by simp [isPresentBoolean])]
          have hbody : cellBound schema (column, bodyValue schema.booleanTail (column, .null)) = 0 := by
            simp [cellBound, bodyValue]
          omega
        · rw [List.filter_cons_of_pos (by simp [isPresentBoolean, hcolumn, hvalue]), List.length_cons]
          have hbody : cellBound schema (column, bodyValue schema.booleanTail (column, value)) = 0 := by
            simp [cellBound, bodyValue, hl, hcolumn]
          have hcell : cellBound schema (column, value) = 2 := by simp [cellBound, hvalue, fieldBound, hcolumn]
          omega
      · rw [List.filter_cons_of_neg (by simp [isPresentBoolean, hcolumn])]
        have hbody : bodyValue schema.booleanTail (column, value) = value := by simp [bodyValue, hcolumn]
        rw [hbody]
        omega

theorem bodyCells_of_no_tail (hl : hasTail schema.booleanTail = false) : bodyCells schema.booleanTail cells = cells := by
  rw [bodyCells]
  conv_rhs => rw [← List.map_id cells]
  apply List.map_congr_left
  intro cell _
  simp [bodyValue, hl]

theorem exists_booleans (hfits : ∀ cell ∈ cells, cell.2 ≠ .null → CellFits schema cell) :
    ∃ bools : List Bool, presentBooleans cells = bools.map .boolean ∧ bools.length = (cells.filter isPresentBoolean).length := by
  have hpresent : ∀ cell ∈ cells.filter isPresentBoolean, isPresentBoolean cell = true :=
    fun cell h => (List.mem_filter.mp h).2
  obtain ⟨columns, bools, -, hlength, hzip⟩ := @booleans_of_fits schema (cells.filter isPresentBoolean) (fun cell h => by
    obtain ⟨-, hvalue⟩ : cell.1.columnType = .boolean ∧ cell.2 ≠ .null := of_decide_eq_true (hpresent cell h)
    exact hfits cell (List.mem_filter.mp h).1 hvalue) hpresent
  refine ⟨bools, ?_, ?_⟩
  · rw [presentBooleans, hzip]
    exact List.map_snd_zip (by rw [List.length_map, hlength])
  · rw [hzip, List.length_zip, List.length_map, hlength, Nat.min_self]

theorem exists_tailRepr (hl : hasTail schema.booleanTail = true)
    (hfits : ∀ cell ∈ cells, cell.2 ≠ .null → CellFits schema cell) :
    ∃ tail, TailRepr schema.booleanTail cells tail ∧ tail.length ≤ (cells.filter isPresentBoolean).length := by
  obtain ⟨bools, hbools, hlength⟩ := exists_booleans hfits
  cases hlayout : schema.booleanTail with
  | bytes => exact ⟨bools.map booleanByte, ⟨bools, hbools, rfl⟩, by rw [List.length_map, hlength]⟩
  | packedMsbFirst =>
      refine ⟨pack .msbFirst bools, ⟨bools, hbools, packs_pack .msbFirst bools⟩, ?_⟩
      rw [length_pack, byteCount, ← hlength]
      omega
  | inlineBytes | inlineU16Le | inlinePackedRunsMsbFirst | inlinePackedRunsLsbFirst =>
      rw [hlayout] at hl
      cases hl

theorem exists_body (hfits : ∀ cell ∈ cells, cell.2 ≠ .null → CellFits schema cell) :
    ∃ fields tail, FieldsRepr schema cells.length (bodyCells schema.booleanTail cells) fields ∧
      TailRepr schema.booleanTail cells tail ∧ fields.length + tail.length ≤ (cells.map (cellBound schema)).sum := by
  cases hl : hasTail schema.booleanTail with
  | true =>
      have hbody : ∀ cell ∈ bodyCells schema.booleanTail cells, cell.2 ≠ .null →
          CellFits schema cell ∧ cell.1.columnType ≠ .boolean := by
        intro cell hmem hvalue
        obtain ⟨cell, hcell, rfl⟩ := List.mem_map.mp hmem
        by_cases hcolumn : cell.1.columnType = .boolean
        · simp [bodyValue, hl, hcolumn] at hvalue
        · have hsame : bodyValue schema.booleanTail cell = cell.2 := by simp [bodyValue, hcolumn]
          rw [hsame] at hvalue ⊢
          exact ⟨hfits cell hcell hvalue, hcolumn⟩
      obtain ⟨fields, hfields, hlength⟩ := exists_fieldsRepr (fun cell hmem hvalue => (hbody cell hmem hvalue).1)
        (fun _ cell hmem => by
          simp only [isPresentBoolean, decide_eq_false_iff_not, not_and, not_not]
          intro hcolumn
          by_contra hvalue
          exact (hbody cell hmem hvalue).2 hcolumn)
      obtain ⟨tail, htail, hlength'⟩ := exists_tailRepr hl hfits
      rw [bodyCells, List.length_map] at hfields
      refine ⟨fields, tail, hfields, htail, ?_⟩
      exact (Nat.add_le_add hlength hlength').trans (sum_bodyCells hl)
  | false =>
      obtain ⟨fields, hfields, hlength⟩ := exists_fieldsRepr hfits (fun h => by rw [hl] at h; cases h)
      refine ⟨fields, [], ?_, (tailRepr_inline_iff hl).mpr rfl, hlength⟩
      rwa [bodyCells_of_no_tail hl]

theorem cellFits_of_wellTyped (h : WellTyped schema values) : ∀ cell ∈ schema.columns.zip values, CellFits schema cell := by
  intro cell hcell
  obtain ⟨i, hi⟩ := List.mem_iff_getElem?.mp hcell
  obtain ⟨hcolumn, hvalue⟩ := List.getElem?_zip_eq_some.mp hi
  exact h.fits i cell.1 cell.2 hcolumn hvalue

theorem bitmapRepr_of_wellTyped (h : WellTyped schema values) :
    BitmapRepr schema values (writeBitmap schema (presenceOf values)) := by
  have hlen : (presenceOf values).length = schema.columns.length := by
    rw [presenceOf, List.length_map, h.length]
  refine (bitmapRepr_iff h.length).mpr ⟨length_writeBitmap hlen, ?_⟩
  have hflags := @presenceFlags_writeBitmap schema _ hlen (fun i column hcolumn hrequired => by
    obtain ⟨hi, -⟩ := List.getElem?_eq_some_iff.mp hcolumn
    obtain ⟨value, hvalue⟩ : ∃ value, values[i]? = some value := ⟨_, List.getElem?_eq_getElem (h.length.symm ▸ hi)⟩
    have hfits := h.fits i column value hcolumn hvalue
    have hne : value ≠ .null := by
      rintro rfl
      exact absurd (hrequired.symm.trans hfits) (by decide)
    rw [presenceOf, List.getElem?_map, hvalue, Option.map_some, decide_eq_true hne])
  rw [hflags, Agrees, presenceOf, List.forall₂_map_left_iff]
  exact List.forall₂_same.mpr fun value _ => decide_eq_true_iff.symm

theorem sum_cellBound_le (columns : List ColumnDef) (values : List Value) :
    ((columns.zip values).map (cellBound schema)).sum ≤ (columns.map (fieldBound schema)).sum := by
  induction columns generalizing values with
  | nil => exact Nat.le_refl 0
  | cons column columns ih =>
      cases values with
      | nil => exact Nat.zero_le _
      | cons value values =>
          rw [List.zip_cons_cons, List.map_cons, List.map_cons, List.sum_cons, List.sum_cons]
          refine Nat.add_le_add ?_ (ih values)
          rw [cellBound]
          split
          · exact Nat.zero_le _
          · exact Nat.le_refl _

/-- Values that fit a schema have a row. -/
theorem exists_row (h : WellTyped schema values) :
    ∃ row, Serializes schema row.length values row ∧ row.length ≤ rowBound schema := by
  obtain ⟨fields, tail, hfields, htail, hlength⟩ := exists_body fun cell hcell _ => cellFits_of_wellTyped h cell hcell
  have hbitmap := bitmapRepr_of_wellTyped h
  have hsum := @sum_cellBound_le schema schema.columns values
  have hcells : (schema.columns.zip values).length = schema.columns.length := by
    rw [List.length_zip, h.length, Nat.min_self]
  rw [hcells] at hfields
  have htotal (size : Nat) : (toLeBytes 2 size ++ List.replicate (carrierLen schema.rowPrefixLayout) 0 ++
      writeBitmap schema (presenceOf values) ++ fields ++ tail).length =
      headerLen schema + (fields.length + tail.length) := by
    simp only [List.length_append, length_toLeBytes, List.length_replicate, hbitmap.1, headerLen, Nat.add_assoc]
  refine ⟨toLeBytes 2 (headerLen schema + (fields.length + tail.length)) ++
    List.replicate (carrierLen schema.rowPrefixLayout) 0 ++
    writeBitmap schema (presenceOf values) ++ fields ++ tail, ?_, ?_⟩
  · rw [htotal]
    exact ⟨h.length, _, _, fields, tail, rfl, List.length_replicate, hbitmap, hfields, htail⟩
  · rw [htotal, rowBound]
    omega

theorem decodeRowExact_row {row : Bytes} (hrow : Serializes schema row.length values row) (hlt : row.length < 2 ^ 13) :
    decodeRowExact row schema = .ok ⟨row.length, row.length, 0, values⟩ := by
  have hle : 2 ≤ row.length := by
    obtain ⟨-, carrier, bitmap, fields, tail, hsplit, -⟩ := hrow
    have hlength := congrArg List.length hsplit
    simp only [List.length_append, length_toLeBytes] at hlength
    omega
  refine decodeRowExact_eq_ok_iff.mpr ⟨decodeRow_eq_ok_iff_rowRepr.mpr ⟨hle, le_rfl, hlt, rfl, le_rfl, ?_⟩, rfl⟩
  change Serializes schema row.length values (row.take row.length)
  rwa [List.take_length]

end Rows

/-- A schema whose rows are never too long for their size is decoded to all of its values: a list of values
comes out of some bytes exactly when each value fits its column. -/
theorem decodable_iff_wellTyped (schema : RowSchema) (hbound : rowBound schema < 2 ^ 13) (values : List Value) :
    (∃ input r, decodeRowExact input schema = .ok r ∧ r.values = values) ↔ WellTyped schema values := by
  constructor
  · rintro ⟨input, r, h, rfl⟩
    exact decodeRow_typed (decodeRowExact_eq_ok_iff.mp h).1
  · intro h
    obtain ⟨row, hrow, hle⟩ := exists_row h
    exact ⟨row, _, decodeRowExact_row hrow (Nat.lt_of_le_of_lt hle hbound), rfl⟩

def legacySystableSchema : RowSchema where
  columns := [
    ⟨1, .integer, 4, false⟩, ⟨2, .smallInt, 2, false⟩, ⟨3, .int64, 8, false⟩, ⟨4, .integer, 4, false⟩,
    ⟨5, .integer, 4, false⟩, ⟨6, .integer, 4, false⟩, ⟨7, .integer, 4, false⟩, ⟨8, .integer, 4, false⟩,
    ⟨9, .integer, 4, false⟩, ⟨10, .integer, 4, false⟩, ⟨11, .integer, 4, false⟩, ⟨12, .char, 128, false⟩,
    ⟨13, .text, 0, false⟩, ⟨14, .text, 0, true⟩, ⟨15, .text, 0, true⟩, ⟨16, .integer, 1, false⟩,
    ⟨17, .integer, 1, true⟩, ⟨18, .text, 0, true⟩, ⟨19, .integer, 1, true⟩, ⟨20, .integer, 4, true⟩,
    ⟨21, .integer, 4, false⟩, ⟨22, .smallInt, 2, false⟩, ⟨23, .integer, 4, false⟩, ⟨24, .text, 0, true⟩]

def legacySyscolumnSchema : RowSchema where
  columns := [
    ⟨1, .integer, 4, false⟩, ⟨2, .integer, 4, false⟩, ⟨3, .char, 1, false⟩, ⟨4, .smallInt, 2, false⟩,
    ⟨5, .char, 1, false⟩, ⟨6, .smallInt, 2, false⟩, ⟨7, .smallInt, 2, false⟩, ⟨8, .integer, 4, false⟩,
    ⟨9, .int64, 8, false⟩, ⟨10, .char, 128, false⟩, ⟨11, .text, 0, true⟩, ⟨12, .text, 0, true⟩,
    ⟨13, .text, 0, true⟩, ⟨14, .smallInt, 2, true⟩]

/-- Both catalog schemas are decoded to all of their rows. -/
theorem decodable_iff_wellTyped_catalogs :
    (∀ values, (∃ input r, decodeRowExact input legacySystableSchema = .ok r ∧ r.values = values) ↔
      WellTyped legacySystableSchema values) ∧
    ∀ values, (∃ input r, decodeRowExact input legacySyscolumnSchema = .ok r ∧ r.values = values) ↔
      WellTyped legacySyscolumnSchema values :=
  ⟨decodable_iff_wellTyped legacySystableSchema (by decide), decodable_iff_wellTyped legacySyscolumnSchema (by decide)⟩

end OpenSqlAny.RowWriting
