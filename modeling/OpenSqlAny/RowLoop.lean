import OpenSqlAny.RowFields

namespace OpenSqlAny.RowLoop

open Library.Faults Library.CursorReader Library.LittleEndian Library.PackedBits
open RowTypes RowDecoder RowGrammar RowFields

def inBody (layout : BooleanTailLayout) (column : ColumnDef) (present : Bool) : Bool :=
  present && !(hasTail layout && decide (column.columnType = .boolean))

/-- The values are NULL just where the presence flags leave no bytes. -/
inductive Linked (layout : BooleanTailLayout) : List ColumnDef → List Bool → List Value → Prop
  | nil : Linked layout [] [] []
  | cons {column : ColumnDef} {p : Bool} {value : Value} {columns : List ColumnDef} {ps : List Bool}
      {values : List Value} (head : value ≠ .null ↔ inBody layout column p = true)
      (tail : Linked layout columns ps values) :
      Linked layout (column :: columns) (p :: ps) (value :: values)

theorem Linked.length {layout : BooleanTailLayout} {columns : List ColumnDef} {ps : List Bool}
    {values : List Value} (h : Linked layout columns ps values) :
    ps.length = columns.length ∧ values.length = columns.length := by
  induction h with
  | nil => exact ⟨rfl, rfl⟩
  | cons _ _ ih => simp [ih]

theorem linked_cons_iff {layout : BooleanTailLayout} {column : ColumnDef} {p : Bool}
    {columns : List ColumnDef} {ps : List Bool} {values : List Value} :
    Linked layout (column :: columns) (p :: ps) values ↔
      ∃ v vs, values = v :: vs ∧ (v ≠ .null ↔ inBody layout column p = true) ∧ Linked layout columns ps vs := by
  constructor
  · rintro ⟨⟩
    exact ⟨_, _, rfl, ‹_›, ‹_›⟩
  · rintro ⟨v, vs, rfl, hv, hvs⟩
    exact .cons hv hvs

theorem linked_append_iff {layout : BooleanTailLayout} {cs ds : List ColumnDef} {ps qs : List Bool}
    {values : List Value} (hlen : ps.length = cs.length) :
    Linked layout (cs ++ ds) (ps ++ qs) values ↔
      ∃ vs ws, values = vs ++ ws ∧ Linked layout cs ps vs ∧ Linked layout ds qs ws := by
  induction cs generalizing ps values with
  | nil =>
      obtain rfl := List.length_eq_zero_iff.mp hlen
      constructor
      · intro h
        exact ⟨[], values, rfl, .nil, h⟩
      · rintro ⟨_, ws, rfl, ⟨⟩, h⟩
        exact h
  | cons c cs ih =>
      cases ps with
      | nil => simp at hlen
      | cons p ps =>
          simp only [List.cons_append, linked_cons_iff]
          constructor
          · rintro ⟨v, _, rfl, hv, h⟩
            obtain ⟨vs, ws, rfl, hvs, hws⟩ := (ih (by simpa using hlen)).mp h
            exact ⟨v :: vs, ws, rfl, ⟨v, vs, rfl, hv, hvs⟩, hws⟩
          · rintro ⟨_, ws, rfl, ⟨v, vs, rfl, hv, hvs⟩, hws⟩
            exact ⟨v, vs ++ ws, rfl, hv, (ih (by simpa using hlen)).mpr ⟨vs, ws, rfl, hvs, hws⟩⟩

theorem linked_split_iff {layout : BooleanTailLayout} {columns : List ColumnDef} {ps : List Bool}
    {values : List Value} (hlen : ps.length = columns.length) (k : Nat) :
    Linked layout columns ps values ↔ ∃ us ws, values = us ++ ws ∧
      Linked layout (columns.take k) (ps.take k) us ∧ Linked layout (columns.drop k) (ps.drop k) ws := by
  have htake : (ps.take k).length = (columns.take k).length := by
    rw [List.length_take, List.length_take, hlen]
  rw [← linked_append_iff htake, List.take_append_drop, List.take_append_drop]

theorem zip_split {columns : List ColumnDef} {us : List Value} (hus : us.length ≤ columns.length) (ws : List Value) :
    columns.zip (us ++ ws) = (columns.take us.length).zip us ++ (columns.drop us.length).zip ws := by
  have hlen : (columns.take us.length).length = us.length := by
    rw [List.length_take, Nat.min_eq_left hus]
  conv_lhs => rw [← List.take_append_drop us.length columns]
  exact List.zip_append hlen

theorem linked_exists (layout : BooleanTailLayout) {columns : List ColumnDef} {ps : List Bool}
    (hlen : ps.length = columns.length) : ∃ values, Linked layout columns ps values := by
  induction columns generalizing ps with
  | nil =>
      obtain rfl := List.length_eq_zero_iff.mp hlen
      exact ⟨[], .nil⟩
  | cons column columns ih =>
      cases ps with
      | nil => simp at hlen
      | cons p ps =>
          obtain ⟨values, h⟩ := @ih ps (by simpa using hlen)
          by_cases hb : inBody layout column p
          · exact ⟨.boolean false :: values, .cons (by simp [hb]) h⟩
          · exact ⟨.null :: values, .cons (by simp [hb]) h⟩

theorem linked_booleans {layout : BooleanTailLayout} (hlayout : hasTail layout = false)
    {columns : List ColumnDef} {ps : List Bool} {bools : List Bool}
    (hps : ∀ p ∈ ps, p = true) (hlen : ps.length = columns.length) (hbools : bools.length = columns.length) :
    Linked layout columns ps (bools.map .boolean) := by
  induction columns generalizing ps bools with
  | nil =>
      obtain rfl := List.length_eq_zero_iff.mp hlen
      obtain rfl := List.length_eq_zero_iff.mp hbools
      exact .nil
  | cons column columns ih =>
      cases ps with
      | nil => simp at hlen
      | cons p ps =>
          cases bools with
          | nil => simp at hbools
          | cons b bools =>
              obtain ⟨hp, hps'⟩ := List.forall_mem_cons.mp hps
              exact .cons (by simp [inBody, hlayout, hp]) (ih hps' (by simpa using hlen) (by simpa using hbools))

def CellRepr (schema : RowSchema) (column : ColumnDef) (value : Value) (f : Bytes) : Prop :=
  (value = .null ∧ f = []) ∨ FieldRepr schema column value f ∨
    (column.columnType = .boolean ∧ ∃ b, value = .boolean b ∧ inlineBoolean schema.booleanTail b = some f)

/-- What the cell of a column leaves behind, when its value goes through `k`. -/
def CellRead {σ : Type} (schema : RowSchema) (column : ColumnDef) (p : Bool) (k : Value → σ) (s : σ) (f : Bytes) :
    Prop :=
  ∃ v, CellRepr schema column v f ∧ (v ≠ .null ↔ inBody schema.booleanTail column p = true) ∧ s = k v

variable {schema : RowSchema}

theorem fieldsRepr_zero_iff {cells : List Cell} {f : Bytes} : FieldsRepr schema 0 cells f ↔ f = [] := by
  constructor
  · intro h
    cases h
    rfl
  · rintro rfl
    exact .stop cells

theorem fieldRepr_not_boolean {column : ColumnDef} {value : Value} {f : Bytes}
    (h : FieldRepr schema column value f) : column.columnType ≠ .boolean := by
  intro hc
  simp [FieldRepr, hc] at h

theorem cellRead_null_iff {σ : Type} {column : ColumnDef} {p : Bool} {k : Value → σ} {s : σ} {f : Bytes}
    (h : inBody schema.booleanTail column p = false) :
    CellRead schema column p k s f ↔ s = k .null ∧ f = [] := by
  constructor
  · rintro ⟨v, hv, hp, rfl⟩
    obtain rfl : v = .null := by simpa [h] using hp
    rcases hv with ⟨-, rfl⟩ | hv | ⟨-, b, hb, -⟩
    · exact ⟨rfl, rfl⟩
    · exact absurd rfl (fieldRepr_ne_null hv)
    · cases hb
  · rintro ⟨rfl, rfl⟩
    exact ⟨.null, .inl ⟨rfl, rfl⟩, by simp [h], rfl⟩

theorem cellRead_field_iff {σ : Type} {column : ColumnDef} {k : Value → σ} {s : σ} {f : Bytes}
    (hcolumn : column.columnType ≠ .boolean) :
    CellRead schema column true k s f ↔ ∃ v, FieldRepr schema column v f ∧ s = k v := by
  constructor
  · rintro ⟨v, hv, hp, rfl⟩
    rcases hv with ⟨rfl, -⟩ | hv | ⟨hc, -⟩
    · simp [inBody, hcolumn] at hp
    · exact ⟨v, hv, rfl⟩
    · exact absurd hc hcolumn
  · rintro ⟨v, hv, rfl⟩
    exact ⟨v, .inr (.inl hv), by simp [inBody, hcolumn, fieldRepr_ne_null hv], rfl⟩

theorem cellRead_boolean_iff {σ : Type} {column : ColumnDef} {k : Value → σ} {s : σ} {f : Bytes}
    (hcolumn : column.columnType = .boolean) (hlayout : hasTail schema.booleanTail = false) :
    CellRead schema column true k s f ↔
      ∃ b, inlineBoolean schema.booleanTail b = some f ∧ s = k (.boolean b) := by
  constructor
  · rintro ⟨v, hv, hp, rfl⟩
    rcases hv with ⟨rfl, -⟩ | hv | ⟨-, b, rfl, hb⟩
    · simp [inBody, hlayout] at hp
    · exact absurd hcolumn (fieldRepr_not_boolean hv)
    · exact ⟨b, hb, rfl⟩
  · rintro ⟨b, hb, rfl⟩
    exact ⟨_, .inr (.inr ⟨hcolumn, b, rfl, hb⟩), by simp [inBody, hlayout], rfl⟩

theorem fieldsRepr_cell_iff {n : Nat} {column : ColumnDef} {value : Value} {cells : List Cell} {f : Bytes}
    (h : runOrder schema.booleanTail = none ∨ column.columnType ≠ .boolean ∨ value = .null) :
    FieldsRepr schema (n + 1) ((column, value) :: cells) f ↔
      ∃ g k, CellRepr schema column value g ∧ FieldsRepr schema n cells k ∧ f = g ++ k := by
  constructor
  · intro hf
    generalize hcells : (column, value) :: cells = xs at hf
    cases hf with
    | null rest =>
        obtain ⟨⟨rfl, rfl⟩, rfl⟩ := hcells
        exact ⟨[], f, .inl ⟨rfl, rfl⟩, rest, rfl⟩
    | field head rest =>
        obtain ⟨⟨rfl, rfl⟩, rfl⟩ := hcells
        exact ⟨_, _, .inr (.inl head), rest, rfl⟩
    | inline hcolumn head rest =>
        obtain ⟨⟨rfl, rfl⟩, rfl⟩ := hcells
        exact ⟨_, _, .inr (.inr ⟨hcolumn, _, rfl, head⟩), rest, rfl⟩
    | @run _ columns bools order _ _ _ horder hcolumns hlength hne hmax head rest =>
        exfalso
        cases columns with
        | nil => exact hne (List.length_eq_zero_iff.mp hlength.symm)
        | cons c columns =>
            cases bools with
            | nil => simp at hlength
            | cons b bools =>
                simp only [List.map_cons, List.zip_cons_cons, List.cons_append, List.cons.injEq,
                  Prod.mk.injEq] at hcells
                obtain ⟨⟨rfl, rfl⟩, -⟩ := hcells
                rcases h with h | h | h
                · simp [h] at horder
                · exact h (hcolumns _ (by simp))
                · simp at h
  · rintro ⟨g, k, hg, hk, rfl⟩
    rcases hg with ⟨rfl, rfl⟩ | hg | ⟨hc, b, rfl, hb⟩
    · exact .null hk
    · exact .field hg hk
    · exact .inline hc hb hk

theorem zip_eq_of_columns {columns : List ColumnDef} {values : List Value} {block : List Cell}
    (hlen : columns.length = values.length) (h : columns.zip values = block) :
    columns = block.map (·.1) ∧ values = block.map (·.2) := by
  subst h
  constructor
  · simp [List.map_fst_zip, hlen]
  · simp [List.map_snd_zip, hlen]

theorem takeWhile_run {xs ys : List Cell} (hxs : ∀ cell ∈ xs, isPresentBoolean cell = true)
    (hys : ∀ cell ∈ ys.head?, isPresentBoolean cell = false) :
    (xs ++ ys).takeWhile isPresentBoolean = xs := by
  rw [List.takeWhile_append_of_pos hxs]
  cases ys with
  | nil => simp
  | cons y ys => simp [hys y rfl]

theorem isPresentBoolean_zip {columns : List ColumnDef} (hcolumns : ∀ c ∈ columns, c.columnType = .boolean)
    (bools : List Bool) : ∀ cell ∈ columns.zip (bools.map Value.boolean), isPresentBoolean cell = true := by
  rintro ⟨c, v⟩ hc
  obtain ⟨b, -, rfl⟩ := List.mem_map.mp (List.of_mem_zip hc).2
  simp [isPresentBoolean, hcolumns c (List.of_mem_zip hc).1]

theorem fieldsRepr_run_iff {n : Nat} {order : BitOrder} {block cells : List Cell} {f : Bytes}
    (horder : runOrder schema.booleanTail = some order) (hne : block ≠ [])
    (hblock : ∀ cell ∈ block, isPresentBoolean cell = true)
    (hmax : ∀ cell ∈ cells.head?, isPresentBoolean cell = false) :
    FieldsRepr schema (n + 1) (block ++ cells) f ↔
      ∃ bools g k, block.map (·.2) = bools.map .boolean ∧ Packs order bools g ∧
        FieldsRepr schema (n + 1 - block.length) cells k ∧ f = g ++ k := by
  constructor
  · intro hf
    obtain ⟨cell, block, rfl⟩ := List.exists_cons_of_ne_nil hne
    have hcell : isPresentBoolean cell = true := hblock cell (by simp)
    generalize hcells : (cell :: block) ++ cells = xs at hf
    cases hf with
    | null rest =>
        obtain ⟨rfl, -⟩ := List.cons.inj hcells
        simp [isPresentBoolean] at hcell
    | field head rest =>
        obtain ⟨rfl, -⟩ := List.cons.inj hcells
        exact absurd (of_decide_eq_true hcell).1 (fieldRepr_not_boolean head)
    | inline hcolumn head rest =>
        cases hl : schema.booleanTail <;> simp [hl, runOrder, inlineBoolean] at horder head
    | @run _ columns bools order' cells' _ _ horder' hcolumns hlength hbne hmax' head rest =>
        obtain rfl : order = order' := by simpa [horder] using horder'
        have hlen : columns.length = (bools.map Value.boolean).length := by simpa using hlength
        have heq : cell :: block = columns.zip (bools.map Value.boolean) := by
          have := congrArg (List.takeWhile isPresentBoolean) hcells
          rwa [takeWhile_run hblock hmax, takeWhile_run (isPresentBoolean_zip hcolumns bools) hmax'] at this
        have hrest : cells = cells' := by
          rw [heq] at hcells
          exact List.append_cancel_left hcells
        subst hrest
        refine ⟨bools, _, _, (zip_eq_of_columns hlen heq.symm).2.symm, head, ?_, rfl⟩
        have hlb : (cell :: block).length = bools.length := by
          rw [heq, List.length_zip, List.length_map, hlength, Nat.min_self]
        rwa [hlb]
  · rintro ⟨bools, g, k, hbools, hg, hk, rfl⟩
    have hlen : block.length = bools.length := by simpa using congrArg List.length hbools
    have hzip : block = (block.map (·.1)).zip (bools.map .boolean) := by
      rw [← hbools, List.zip_map']
      simp
    rw [hzip]
    refine .run horder ?_ (by simpa using hlen) ?_ hmax hg (hlen ▸ hk)
    · intro c hc
      obtain ⟨cell, hcell, rfl⟩ := List.mem_map.mp hc
      exact (of_decide_eq_true (hblock cell hcell)).1
    · rintro rfl
      exact hne (List.length_eq_zero_iff.mp hlen)

def runLength : List ColumnDef → List Bool → Nat
  | column :: columns, p :: ps =>
      if column.columnType = .boolean ∧ p = true then runLength columns ps + 1 else 0
  | _, _ => 0

theorem runLength_le (columns : List ColumnDef) (ps : List Bool) :
    runLength columns ps ≤ columns.length ∧ runLength columns ps ≤ ps.length := by
  induction columns generalizing ps with
  | nil => simp [runLength]
  | cons column columns ih =>
      cases ps with
      | nil => simp [runLength]
      | cons p ps =>
          have := ih ps
          rw [runLength]
          split
          · simp only [List.length_cons]; omega
          · exact ⟨Nat.zero_le _, Nat.zero_le _⟩

theorem runLength_block (columns : List ColumnDef) (ps : List Bool) :
    (∀ c ∈ columns.take (runLength columns ps), c.columnType = .boolean) ∧
      ∀ p ∈ ps.take (runLength columns ps), p = true := by
  induction columns generalizing ps with
  | nil => simp [runLength]
  | cons column columns ih =>
      cases ps with
      | nil => simp [runLength]
      | cons p ps =>
          rw [runLength]
          split
          next h =>
            simp only [List.take_succ_cons, List.forall_mem_cons]
            exact ⟨⟨h.1, (ih ps).1⟩, h.2, (ih ps).2⟩
          next h => simp

theorem runLength_stops (columns : List ColumnDef) (ps : List Bool) :
    runLength (columns.drop (runLength columns ps)) (ps.drop (runLength columns ps)) = 0 := by
  induction columns generalizing ps with
  | nil => simp [runLength]
  | cons column columns ih =>
      cases ps with
      | nil => simp [runLength]
      | cons p ps =>
          by_cases h : column.columnType = .boolean ∧ p = true
          · simpa [runLength, h] using ih ps
          · simp [runLength, h]

theorem runEndFrom_eq {present : List Bool} (columns : List ColumnDef) (e : Nat)
    (hlen : (present.drop e).length = columns.length) :
    runEndFrom present columns e = .ok (e + runLength columns (present.drop e)) := by
  induction columns generalizing e with
  | nil => simp [runEndFrom, runLength, pure, Except.pure]
  | cons column columns ih =>
      have he : e < present.length := by
        rw [List.length_drop, List.length_cons] at hlen
        omega
      rw [runEndFrom, index_of_lt he, List.drop_eq_getElem_cons he, runLength]
      by_cases hc : column.columnType = .boolean
      · cases hp : present[e] with
        | false => simp [hc, bind, Except.bind, pure, Except.pure]
        | true =>
            have := ih (e + 1) (by rw [List.length_drop] at hlen ⊢; simp at hlen; omega)
            simp [hc, bind, Except.bind, this, Nat.add_assoc, Nat.add_comm 1]
      · simp [hc, pure, Except.pure]

theorem inlineBooleanRunEnd_eq {present : List Bool} (hlen : present.length = schema.columns.length)
    (i : Nat) : inlineBooleanRunEnd schema present i =
      .ok (i + runLength (schema.columns.drop i) (present.drop i)) :=
  runEndFrom_eq _ i (by simp [hlen])

def IsBoolean (schema : RowSchema) (present : List Bool) (i : Nat) : Prop :=
  ∃ column, schema.columns[i]? = some column ∧ column.columnType = .boolean ∧ present[i]? = some true

theorem continuesRun_succ_iff {present : List Bool} (hlen : present.length = schema.columns.length)
    {i : Nat} (hi : i < schema.columns.length) :
    (IsBoolean schema present i ∧ continuesRun schema present (i + 1) = .ok true) ∨
      (¬ IsBoolean schema present i ∧ continuesRun schema present (i + 1) = .ok false) := by
  have hp : i < present.length := by omega
  have hb : IsBoolean schema present i ↔ (schema.columns[i]).columnType = .boolean ∧ present[i] = true := by
    simp [IsBoolean, List.getElem?_eq_getElem hi, List.getElem?_eq_getElem hp]
  rw [hb]
  rw [continuesRun, if_pos (Nat.succ_pos i), Nat.add_sub_cancel, index_of_lt hi, index_of_lt hp]
  by_cases hc : (schema.columns[i]).columnType = .boolean
  · cases hpi : present[i] <;> simp [hc, bind, Except.bind]
  · simp [hc, bind, Except.bind, pure, Except.pure]

theorem continuesRun_ne_panic {present : List Bool} (hlen : present.length = schema.columns.length)
    {i : Nat} (hi : i < schema.columns.length) : ∃ b, continuesRun schema present i = .ok b := by
  cases i with
  | zero => exact ⟨false, rfl⟩
  | succ i =>
      rcases continuesRun_succ_iff hlen (i := i) (by omega) with ⟨-, h⟩ | ⟨-, h⟩
      · exact ⟨true, h⟩
      · exact ⟨false, h⟩

/-- No packed run of an earlier column reaches column `i`. -/
def Fresh (schema : RowSchema) (present : List Bool) (i : Nat) : Prop :=
  runOrder schema.booleanTail ≠ none → IsBoolean schema present i →
    continuesRun schema present i = .ok false

def visit {σ : Type} (step : σ → Nat → ColumnDef → Reader DecodeError σ) (columns : List ColumnDef)
    (start : Nat) (s : σ) : Reader DecodeError σ :=
  (columns.zipIdx start).foldlM (fun s entry => step s entry.2 entry.1) s

def applyCells {σ : Type} (effect : σ → Nat → Cell → σ) : σ → Nat → List Cell → σ
  | s, _, [] => s
  | s, i, cell :: cells => applyCells effect (effect s i cell) (i + 1) cells

theorem applyCells_append {σ : Type} (effect : σ → Nat → Cell → σ) (s : σ) (i : Nat)
    (xs ys : List Cell) : applyCells effect s i (xs ++ ys) =
      applyCells effect (applyCells effect s i xs) (i + xs.length) ys := by
  induction xs generalizing s i with
  | nil => rfl
  | cons x xs ih =>
      rw [List.cons_append, applyCells, applyCells, ih, List.length_cons]
      congr 1
      omega

theorem applyCells_take_append {σ : Type} (effect : σ → Nat → Cell → σ) (s : σ) (i t : Nat)
    (xs ys : List Cell) : applyCells effect s i ((xs ++ ys).take t) =
      applyCells effect (applyCells effect s i (xs.take t)) (i + xs.length) (ys.take (t - xs.length)) := by
  rw [List.take_append, applyCells_append]
  by_cases h : xs.length ≤ t
  · rw [List.length_take, Nat.min_eq_right h]
  · rw [Nat.sub_eq_zero_of_le (by omega), List.take_zero, applyCells, applyCells]

theorem applyCells_inv {σ : Type} {effect : σ → Nat → Cell → σ} {Inv : σ → Prop}
    (h : ∀ s i cell, Inv s → Inv (effect s i cell)) {s : σ} (hs : Inv s) (i : Nat) (cells : List Cell) :
    Inv (applyCells effect s i cells) := by
  induction cells generalizing s i with
  | nil => exact hs
  | cons cell cells ih => exact ih (h s i cell hs) (i + 1)

variable {row : Bytes} {limit through : Nat} {present : List Bool} {σ : Type}
  {step : σ → Nat → ColumnDef → Reader DecodeError σ} {effect : σ → Nat → Cell → σ} {Inv : σ → Prop}

/-- What a loop body must do for the loop to read the fields: read single
cells, read a whole run at its first column, and skip the rest of a run. -/
structure Visits (row : Bytes) (limit through : Nat) (schema : RowSchema) (present : List Bool)
    (step : σ → Nat → ColumnDef → Reader DecodeError σ) (effect : σ → Nat → Cell → σ) (Inv : σ → Prop) :
    Prop where
  inv : ∀ s i cell, Inv s → Inv (effect s i cell)
  single : ∀ {s i column p}, Inv s → i < through → schema.columns[i]? = some column →
    present[i]? = some p →
    (runOrder schema.booleanTail = none ∨ column.columnType ≠ .boolean ∨ p = false) →
    Reads row limit (step s i column) (CellRead schema column p fun v => effect s i (column, v))
  run : ∀ {s i column order}, Inv s → i < through → schema.columns[i]? = some column →
    runOrder schema.booleanTail = some order → IsBoolean schema present i →
    continuesRun schema present i = .ok false →
    Reads row limit (step s i column) (fun s' f => ∃ bools,
      bools.length = runLength (schema.columns.drop i) (present.drop i) ∧ Packs order bools f ∧
      s' = applyCells effect s i
        (((schema.columns.drop i).zip (bools.map .boolean)).take (through - i)))
  interior : ∀ {s i column order}, schema.columns[i]? = some column →
    runOrder schema.booleanTail = some order → IsBoolean schema present i →
    continuesRun schema present i = .ok true → step s i column = pure s

theorem visit_nil (s : σ) (i : Nat) : visit step [] i s = pure s := rfl

theorem visit_cons (column : ColumnDef) (columns : List ColumnDef) (i : Nat) (s : σ) :
    visit step (column :: columns) i s = step s i column >>= visit step columns (i + 1) := rfl

theorem visit_append (xs ys : List ColumnDef) (i : Nat) (s : σ) :
    visit step (xs ++ ys) i s = visit step xs i s >>= visit step ys (i + xs.length) := by
  rw [visit, List.zipIdx_append, List.foldlM_append]
  rfl

theorem Visits.skip (hv : Visits row limit through schema present step effect Inv) {order : BitOrder}
    (horder : runOrder schema.booleanTail = some order) (columns : List ColumnDef) (i : Nat) (s : σ)
    (h : ∀ j column, columns[j]? = some column → schema.columns[i + j]? = some column ∧
      IsBoolean schema present (i + j) ∧ continuesRun schema present (i + j) = .ok true) :
    visit step columns i s = pure s := by
  induction columns generalizing i with
  | nil => rfl
  | cons column columns ih =>
      obtain ⟨hc, hb, hr⟩ := h 0 column rfl
      rw [Nat.add_zero] at hc hb hr
      rw [visit_cons, hv.interior hc horder hb hr, pure_bind]
      apply ih (i + 1)
      intro j c hj
      rw [Nat.add_assoc, Nat.add_comm 1]
      exact h (j + 1) c hj

theorem isBoolean_of_lt_runLength {i j : Nat} (hlen : present.length = schema.columns.length)
    (hj : j < runLength (schema.columns.drop i) (present.drop i)) : IsBoolean schema present (i + j) := by
  obtain ⟨hle, -⟩ := runLength_le (schema.columns.drop i) (present.drop i)
  obtain ⟨hcs, hps⟩ := runLength_block (schema.columns.drop i) (present.drop i)
  rw [List.length_drop] at hle
  have hi : i + j < schema.columns.length := by omega
  have hp : i + j < present.length := by omega
  refine ⟨schema.columns[i + j], List.getElem?_eq_getElem hi, ?_, ?_⟩
  · refine hcs _ (List.mem_iff_getElem?.mpr ⟨j, ?_⟩)
    rw [List.getElem?_take_of_lt hj, List.getElem?_drop, List.getElem?_eq_getElem hi]
  · rw [List.getElem?_eq_getElem hp, Option.some.injEq]
    refine hps _ (List.mem_iff_getElem?.mpr ⟨j, ?_⟩)
    rw [List.getElem?_take_of_lt hj, List.getElem?_drop, List.getElem?_eq_getElem hp]

theorem not_isBoolean_runEnd (i : Nat) :
    ¬ IsBoolean schema present (i + runLength (schema.columns.drop i) (present.drop i)) := by
  have hstop := runLength_stops (schema.columns.drop i) (present.drop i)
  rw [List.drop_drop, List.drop_drop] at hstop
  rintro ⟨column, hc, hb, hp⟩
  obtain ⟨hi, hc⟩ := List.getElem?_eq_some_iff.mp hc
  obtain ⟨hi', hp⟩ := List.getElem?_eq_some_iff.mp hp
  rw [List.drop_eq_getElem_cons hi, List.drop_eq_getElem_cons hi', runLength, hc, hp] at hstop
  simp [hb] at hstop

theorem Fresh.succ (hlen : present.length = schema.columns.length) {i : Nat} (hi : i < schema.columns.length)
    (h : runOrder schema.booleanTail = none ∨ ¬ IsBoolean schema present i) : Fresh schema present (i + 1) := by
  intro hne hb
  rcases h with h | h
  · exact absurd h hne
  · rcases continuesRun_succ_iff hlen hi with ⟨hb', -⟩ | ⟨-, hr⟩
    · exact absurd hb' h
    · exact hr

theorem hasTail_of_runOrder {layout : BooleanTailLayout} {order : BitOrder}
    (h : runOrder layout = some order) : hasTail layout = false := by
  cases layout <;> simp_all [runOrder, hasTail]

theorem linked_block {layout : BooleanTailLayout} {columns : List ColumnDef} {ps : List Bool}
    {values : List Value} (h : Linked layout columns ps values) (hlayout : hasTail layout = false)
    (hcolumns : ∀ c ∈ columns, c.columnType = .boolean) (hps : ∀ p ∈ ps, p = true) :
    ∀ cell ∈ columns.zip values, isPresentBoolean cell = true := by
  induction h with
  | nil => simp
  | cons head tail ih =>
      obtain ⟨hc, hcolumns⟩ := List.forall_mem_cons.mp hcolumns
      obtain ⟨hp, hps⟩ := List.forall_mem_cons.mp hps
      rw [List.zip_cons_cons, List.forall_mem_cons]
      refine ⟨?_, ih hcolumns hps⟩
      simp [isPresentBoolean, hc, head, inBody, hlayout, hp]

theorem linked_head {layout : BooleanTailLayout} {columns : List ColumnDef} {ps : List Bool}
    {values : List Value} (h : Linked layout columns ps values) (hrun : runLength columns ps = 0) :
    ∀ cell ∈ (columns.zip values).head?, isPresentBoolean cell = false := by
  cases h with
  | nil => simp
  | @cons column p value _ _ _ head tail =>
      simp only [List.zip_cons_cons, List.head?_cons, Option.mem_some_iff, forall_eq']
      by_cases hc : column.columnType = .boolean
      · cases p with
        | true => simp [runLength, hc] at hrun
        | false => simpa [isPresentBoolean, hc, inBody] using head
      · simp [isPresentBoolean, hc]

theorem Visits.visit_run (hv : Visits row limit through schema present step effect Inv)
    (hlen : present.length = schema.columns.length) {order : BitOrder}
    (horder : runOrder schema.booleanTail = some order) {i r : Nat}
    (hr : runLength (schema.columns.drop i) (present.drop i) = r + 1) (s : σ) :
    visit step ((schema.columns.drop (i + 1)).take (through - (i + 1))) (i + 1) s =
      visit step ((schema.columns.drop (i + (r + 1))).take (through - (i + (r + 1)))) (i + (r + 1)) s := by
  obtain ⟨hle, -⟩ := runLength_le (schema.columns.drop i) (present.drop i)
  rw [hr, List.length_drop] at hle
  have hinterior (j : Nat) (hj : j < r) : IsBoolean schema present (i + 1 + j) ∧
      continuesRun schema present (i + 1 + j) = .ok true := by
    have hb : IsBoolean schema present (i + j) := isBoolean_of_lt_runLength hlen (by omega)
    have hb' : IsBoolean schema present (i + (j + 1)) := isBoolean_of_lt_runLength hlen (by omega)
    rw [show i + 1 + j = i + j + 1 by omega]
    refine ⟨hb', ?_⟩
    rcases continuesRun_succ_iff hlen (i := i + j) (by omega) with ⟨-, h⟩ | ⟨h, -⟩
    · exact h
    · exact absurd hb h
  set rest := (schema.columns.drop (i + 1)).take (through - (i + 1)) with hrest
  have hskip : visit step (rest.take r) (i + 1) s = pure s := by
    apply hv.skip horder _ _ _
    intro j column hj
    obtain ⟨hj', -⟩ := List.getElem?_eq_some_iff.mp hj
    have hjr : j < r := by
      rw [List.length_take] at hj'
      omega
    refine ⟨?_, hinterior j hjr⟩
    have hjt : j < through - (i + 1) := by
      simp only [hrest, List.length_take] at hj'
      omega
    rw [List.getElem?_take_of_lt hjr, hrest, List.getElem?_take_of_lt hjt, List.getElem?_drop] at hj
    exact hj
  have hdrop : rest.drop r = (schema.columns.drop (i + (r + 1))).take (through - (i + (r + 1))) := by
    rw [hrest, List.drop_take, List.drop_drop]
    congr 1
    · omega
    · congr 1
      omega
  rw [← List.take_append_drop r rest, visit_append, hskip, pure_bind, hdrop]
  by_cases hlong : i + (r + 1) ≤ through
  · congr 1
    simp only [hrest, List.length_take, List.length_drop]
    omega
  · rw [show through - (i + (r + 1)) = 0 by omega, List.take_zero, visit_nil, visit_nil]

/-- From column `i` on the loop reads exactly the fields, and applies the effects of their cells. -/
def ReadsFrom (row : Bytes) (limit through : Nat) (schema : RowSchema) (present : List Bool)
    (step : σ → Nat → ColumnDef → Reader DecodeError σ) (effect : σ → Nat → Cell → σ) (i : Nat) (s : σ) : Prop :=
  Reads row limit (visit step ((schema.columns.drop i).take (through - i)) i s)
    (fun s' f => ∃ vs, Linked schema.booleanTail (schema.columns.drop i) (present.drop i) vs ∧
      FieldsRepr schema (through - i) ((schema.columns.drop i).zip vs) f ∧
      s' = applyCells effect s i (((schema.columns.drop i).zip vs).take (through - i)))

theorem readsFrom_stop (hlen : present.length = schema.columns.length) {i : Nat} (hi : through ≤ i) (s : σ) :
    ReadsFrom row limit through schema present step effect i s := by
  obtain ⟨vs, hvs⟩ := @linked_exists schema.booleanTail (schema.columns.drop i) (present.drop i)
    (by simp [hlen])
  rw [ReadsFrom, Nat.sub_eq_zero_of_le hi, List.take_zero, visit_nil]
  apply (Reads.pure s).congr
  intro s' f
  simp only [fieldsRepr_zero_iff, List.take_zero, applyCells]
  exact ⟨fun ⟨hs, hf⟩ => ⟨vs, hvs, hf, hs⟩, fun ⟨_, _, hf, hs⟩ => ⟨hs, hf⟩⟩

theorem fieldsRepr_block_iff {columns : List ColumnDef} {ps : List Bool} {order : BitOrder} {n r : Nat}
    {us ws : List Value} {f : Bytes} (hlayout : hasTail schema.booleanTail = false) (hr : r + 1 ≤ columns.length)
    (hcolumns : ∀ c ∈ columns.take (r + 1), c.columnType = .boolean) (hps : ∀ p ∈ ps.take (r + 1), p = true)
    (hstop : runLength (columns.drop (r + 1)) (ps.drop (r + 1)) = 0)
    (horder : runOrder schema.booleanTail = some order)
    (hus : Linked schema.booleanTail (columns.take (r + 1)) (ps.take (r + 1)) us)
    (hws : Linked schema.booleanTail (columns.drop (r + 1)) (ps.drop (r + 1)) ws) :
    FieldsRepr schema (n + 1) (columns.zip (us ++ ws)) f ↔
      ∃ bools g k, us = bools.map .boolean ∧ Packs order bools g ∧
        FieldsRepr schema (n + 1 - (r + 1)) ((columns.drop (r + 1)).zip ws) k ∧ f = g ++ k := by
  have hclen : (columns.take (r + 1)).length = r + 1 := by rw [List.length_take]; omega
  have hulen : us.length = r + 1 := hus.length.2.trans hclen
  have hblock : ((columns.take (r + 1)).zip us).length = r + 1 := by
    rw [List.length_zip, hclen, hulen, Nat.min_self]
  have hne : (columns.take (r + 1)).zip us ≠ [] := List.length_pos_iff.mp (by omega)
  rw [zip_split (by omega), hulen, fieldsRepr_run_iff horder hne (linked_block hus hlayout hcolumns hps)
    (linked_head hws hstop), List.map_snd_zip (by omega), hblock]

theorem applyCells_block {columns : List ColumnDef} {us : List Value} {i r : Nat} (hr : r + 1 ≤ columns.length)
    (hulen : us.length = r + 1) (ws : List Value) (s : σ) :
    applyCells effect s i ((columns.zip (us ++ ws)).take (through - i)) =
      applyCells effect (applyCells effect s i ((columns.zip us).take (through - i)))
        (i + (r + 1)) (((columns.drop (r + 1)).zip ws).take (through - (i + (r + 1)))) := by
  have hzip := zip_split (by omega : us.length ≤ columns.length) ws
  have hus := zip_split (by omega : us.length ≤ columns.length) []
  have hblock : ((columns.take (r + 1)).zip us).length = r + 1 := by
    rw [List.length_zip, List.length_take, hulen]
    omega
  rw [List.append_nil, List.zip_nil_right, List.append_nil] at hus
  rw [hzip, hus, hulen, applyCells_take_append, hblock, Nat.sub_sub]

theorem run_cells_iff {columns : List ColumnDef} {ps : List Bool} {order : BitOrder} {i r : Nat}
    (hlayout : hasTail schema.booleanTail = false) (hlen : ps.length = columns.length)
    (hr : r + 1 ≤ columns.length) (hcolumns : ∀ c ∈ columns.take (r + 1), c.columnType = .boolean)
    (hps : ∀ p ∈ ps.take (r + 1), p = true)
    (hstop : runLength (columns.drop (r + 1)) (ps.drop (r + 1)) = 0)
    (horder : runOrder schema.booleanTail = some order) (hi : i < through) {s s' : σ} {f : Bytes} :
    (∃ vs, Linked schema.booleanTail columns ps vs ∧ FieldsRepr schema (through - i) (columns.zip vs) f ∧
      s' = applyCells effect s i ((columns.zip vs).take (through - i))) ↔
    ∃ a g h, (∃ bools, bools.length = r + 1 ∧ Packs order bools g ∧
        a = applyCells effect s i ((columns.zip (bools.map .boolean)).take (through - i))) ∧
      (∃ vs, Linked schema.booleanTail (columns.drop (r + 1)) (ps.drop (r + 1)) vs ∧
        FieldsRepr schema (through - (i + (r + 1))) ((columns.drop (r + 1)).zip vs) h ∧
        s' = applyCells effect a (i + (r + 1))
          (((columns.drop (r + 1)).zip vs).take (through - (i + (r + 1))))) ∧ f = g ++ h := by
  have hclen : (columns.take (r + 1)).length = r + 1 := by rw [List.length_take]; omega
  have hplen : (ps.take (r + 1)).length = r + 1 := by rw [List.length_take]; omega
  have hfields {us ws : List Value}
      (hus : Linked schema.booleanTail (columns.take (r + 1)) (ps.take (r + 1)) us)
      (hws : Linked schema.booleanTail (columns.drop (r + 1)) (ps.drop (r + 1)) ws) {f : Bytes} :
      FieldsRepr schema (through - i) (columns.zip (us ++ ws)) f ↔
        ∃ bools g k, us = bools.map .boolean ∧ Packs order bools g ∧
          FieldsRepr schema (through - (i + (r + 1))) ((columns.drop (r + 1)).zip ws) k ∧ f = g ++ k := by
    rw [show through - i = through - i - 1 + 1 by omega,
      fieldsRepr_block_iff hlayout hr hcolumns hps hstop horder hus hws,
      show through - i - 1 + 1 - (r + 1) = through - (i + (r + 1)) by omega]
  constructor
  · rintro ⟨_, hvs, hf, rfl⟩
    obtain ⟨us, ws, rfl, hus, hws⟩ := (linked_split_iff hlen (r + 1)).mp hvs
    have hulen : us.length = r + 1 := hus.length.2.trans hclen
    rw [applyCells_block hr hulen ws]
    obtain ⟨bools, g, k, rfl, hg, hk, rfl⟩ := (hfields hus hws).mp hf
    exact ⟨_, g, k, ⟨bools, by simpa using hulen, hg, rfl⟩, ⟨ws, hws, hk, rfl⟩, rfl⟩
  · rintro ⟨_, g, h, ⟨bools, hb, hg, rfl⟩, ⟨ws, hws, hk, rfl⟩, rfl⟩
    have hus : Linked schema.booleanTail (columns.take (r + 1)) (ps.take (r + 1)) (bools.map .boolean) :=
      linked_booleans hlayout hps (hplen.trans hclen.symm) (hb.trans hclen.symm)
    refine ⟨bools.map .boolean ++ ws, (linked_split_iff hlen (r + 1)).mpr ⟨_, ws, rfl, hus, hws⟩,
      (hfields hus hws).mpr ⟨bools, g, h, rfl, hg, hk, rfl⟩, ?_⟩
    rw [applyCells_block hr (by simpa using hb)]

theorem Visits.step_safe (hv : Visits row row.length through schema present step effect Inv)
    (hlen : present.length = schema.columns.length) {s : σ} {i : Nat} {column : ColumnDef} (hs : Inv s)
    (hi : i < through) (hcolumn : schema.columns[i]? = some column) : Safe row (step s i column) Inv := by
  have hic := (List.getElem?_eq_some_iff.mp hcolumn).1
  have hpresent : present[i]? = some present[i] := List.getElem?_eq_getElem (by omega)
  by_cases hsingle : runOrder schema.booleanTail = none ∨ column.columnType ≠ .boolean ∨ present[i] = false
  · apply (hv.single hs hi hcolumn hpresent hsingle).safe.mono
    rintro _ ⟨f, v, -, -, rfl⟩
    exact hv.inv s i _ hs
  · simp only [not_or, not_not, Bool.not_eq_false] at hsingle
    obtain ⟨hne, hb, hp⟩ := hsingle
    obtain ⟨order, horder⟩ := Option.ne_none_iff_exists'.mp hne
    have hboolean : IsBoolean schema present i := ⟨column, hcolumn, hb, by rw [hpresent, hp]⟩
    obtain ⟨b, hruns⟩ := continuesRun_ne_panic hlen hic
    cases b with
    | false =>
        apply (hv.run hs hi hcolumn horder hboolean hruns).safe.mono
        rintro _ ⟨f, bools, -, -, rfl⟩
        exact applyCells_inv hv.inv hs _ _
    | true =>
        rw [hv.interior hcolumn horder hboolean hruns]
        exact Safe.pure hs

theorem visit_safe {columns : List ColumnDef} (hcolumns : columns <+: schema.columns)
    (hstep : ∀ s i column, Inv s → i < columns.length → schema.columns[i]? = some column →
      Safe row (step s i column) Inv) {s : σ} (hs : Inv s) : Safe row (visit step columns 0 s) Inv := by
  apply Safe.foldlM _ _ s hs
  rintro s ⟨column, i⟩ he hs
  obtain ⟨-, hi, heq⟩ := List.mem_zipIdx he
  have hi' : i < columns.length := by omega
  apply hstep s i column hs hi'
  rw [List.prefix_iff_getElem?.mp hcolumns i hi']
  simp [heq]

theorem Visits.readsFrom_single (hv : Visits row limit through schema present step effect Inv)
    {i : Nat} {s : σ} (hs : Inv s) (hi : i < through) (hic : i < schema.columns.length) (hip : i < present.length)
    (hsingle : runOrder schema.booleanTail = none ∨ schema.columns[i].columnType ≠ .boolean ∨ present[i] = false)
    (hrest : ∀ s, Inv s → ReadsFrom row limit through schema present step effect (i + 1) s) :
    ReadsFrom row limit through schema present step effect i s := by
  have hcell (v : Value) (hv : v ≠ .null ↔ inBody schema.booleanTail schema.columns[i] present[i] = true) :
      runOrder schema.booleanTail = none ∨ schema.columns[i].columnType ≠ .boolean ∨ v = .null := by
    refine hsingle.imp_right (Or.imp_right fun hp => ?_)
    by_contra hne
    simpa [inBody, hp] using hv.mp hne
  have hread := (hv.single hs hi (List.getElem?_eq_getElem hic) (List.getElem?_eq_getElem hip) hsingle).bind
    fun s₁ _ ⟨v, _, _, hs₁⟩ => hrest s₁ (hs₁ ▸ hv.inv _ _ _ hs)
  rw [ReadsFrom, List.drop_eq_getElem_cons hic, List.drop_eq_getElem_cons hip,
    show through - i = (through - (i + 1)) + 1 by omega, List.take_succ_cons, visit_cons]
  apply hread.congr
  intro s' f
  simp only [linked_cons_iff]
  constructor
  · rintro ⟨s₁, g, k, ⟨v, hg, hv', rfl⟩, ⟨vs, hvs, hk, rfl⟩, rfl⟩
    exact ⟨v :: vs, ⟨v, vs, rfl, hv', hvs⟩,
      (fieldsRepr_cell_iff (hcell v hv')).mpr ⟨g, k, hg, hk, rfl⟩, rfl⟩
  · rintro ⟨_, ⟨v, vs, rfl, hv', hvs⟩, hf, rfl⟩
    obtain ⟨g, k, hg, hk, rfl⟩ := (fieldsRepr_cell_iff (hcell v hv')).mp hf
    exact ⟨_, g, k, ⟨v, hg, hv', rfl⟩, ⟨vs, hvs, hk, rfl⟩, rfl⟩

theorem Visits.readsFrom_run (hv : Visits row limit through schema present step effect Inv)
    (hlen : present.length = schema.columns.length) {order : BitOrder}
    (horder : runOrder schema.booleanTail = some order) {i r : Nat} {s : σ} (hs : Inv s) (hi : i < through)
    (hic : i < schema.columns.length) (hboolean : IsBoolean schema present i)
    (hruns : continuesRun schema present i = .ok false)
    (hr : runLength (schema.columns.drop i) (present.drop i) = r + 1)
    (hrest : ∀ s, Inv s → ReadsFrom row limit through schema present step effect (i + (r + 1)) s) :
    ReadsFrom row limit through schema present step effect i s := by
  obtain ⟨hle, hle'⟩ := runLength_le (schema.columns.drop i) (present.drop i)
  obtain ⟨hblock, hflags⟩ := runLength_block (schema.columns.drop i) (present.drop i)
  have hstop := runLength_stops (schema.columns.drop i) (present.drop i)
  have hread := (hv.run hs hi (List.getElem?_eq_getElem hic) horder hboolean hruns).bind
    fun s₁ _ ⟨bools, _, _, hs₁⟩ => hrest s₁ (hs₁ ▸ applyCells_inv hv.inv hs _ _)
  have hloop : visit step ((schema.columns.drop i).take (through - i)) i s =
      step s i schema.columns[i] >>= fun s₁ => visit step
        ((schema.columns.drop (i + (r + 1))).take (through - (i + (r + 1)))) (i + (r + 1)) s₁ := by
    rw [List.drop_eq_getElem_cons hic, show through - i = (through - (i + 1)) + 1 by omega,
      List.take_succ_cons, visit_cons]
    congr 1
    funext s₁
    exact hv.visit_run hlen horder hr s₁
  have hlen' : (present.drop i).length = (schema.columns.drop i).length := by
    rw [List.length_drop, List.length_drop, hlen]
  rw [ReadsFrom, hloop]
  apply hread.congr
  intro s' f
  rw [hr] at hle hle' hblock hflags hstop ⊢
  rw [run_cells_iff (hasTail_of_runOrder horder) hlen' hle hblock hflags hstop horder hi, List.drop_drop,
    List.drop_drop]

/-- A loop that visits columns reads exactly the fields grammar and applies
the effects of the cells it has read. -/
theorem Visits.reads (hv : Visits row limit through schema present step effect Inv)
    (hlen : present.length = schema.columns.length) (hthrough : through ≤ schema.columns.length)
    (m i : Nat) (s : σ) (hm : schema.columns.length - i ≤ m) (hfresh : Fresh schema present i) (hs : Inv s) :
    ReadsFrom row limit through schema present step effect i s := by
  induction m generalizing i s with
  | zero => exact readsFrom_stop hlen (by omega) s
  | succ m ih =>
      by_cases hi : i < through
      case neg => exact readsFrom_stop hlen (by omega) s
      have hic : i < schema.columns.length := by omega
      have hip : i < present.length := by omega
      have hcolumn := List.getElem?_eq_getElem hic
      have hpresent := List.getElem?_eq_getElem hip
      by_cases hsingle : runOrder schema.booleanTail = none ∨ schema.columns[i].columnType ≠ .boolean ∨
          present[i] = false
      case pos =>
        have hnext : Fresh schema present (i + 1) := by
          apply Fresh.succ hlen hic
          refine hsingle.imp_right ?_
          rintro h ⟨c, hc, hb, hp⟩
          obtain rfl : schema.columns[i] = c := by simpa [hcolumn] using hc
          rcases h with h | h
          · exact h hb
          · simp [hpresent, h] at hp
        exact hv.readsFrom_single hs hi hic hip hsingle (fun s₁ hs₁ => ih (i + 1) s₁ (by omega) hnext hs₁)
      case neg =>
        simp only [not_or, not_not, Bool.not_eq_false] at hsingle
        obtain ⟨hne, hb, hp⟩ := hsingle
        obtain ⟨order, horder⟩ := Option.ne_none_iff_exists'.mp hne
        have hboolean : IsBoolean schema present i := ⟨_, hcolumn, hb, by rw [hpresent, hp]⟩
        obtain ⟨r, hr⟩ : ∃ r, runLength (schema.columns.drop i) (present.drop i) = r + 1 := by
          rw [List.drop_eq_getElem_cons hic, List.drop_eq_getElem_cons hip, runLength, if_pos ⟨hb, hp⟩]
          exact ⟨_, rfl⟩
        have hnext : Fresh schema present (i + (r + 1)) := by
          intro _ hb'
          exact absurd hb' (hr ▸ not_isBoolean_runEnd i)
        exact hv.readsFrom_run hlen horder hs hi hic hboolean (hfresh hne hboolean) hr
          (fun s₁ hs₁ => ih (i + (r + 1)) s₁ (by omega) hnext hs₁)

end OpenSqlAny.RowLoop
