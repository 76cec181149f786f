import OpenSqlAny.RowReading

namespace OpenSqlAny.RowTail

open Library.Faults Library.LittleEndian Library.PackedBits
open RowTypes RowDecoder RowGrammar RowLoop RowReading

variable {layout : BooleanTailLayout} {columns : List ColumnDef} {ps bools : List Bool}
  {vs fs : List Value} {tail : Bytes}

def HoldsBit (layout : BooleanTailLayout) (tail : Bytes) (j : Nat) (b : Bool) : Prop :=
  match layout with
  | .bytes => tail[j]? = some (booleanByte b)
  | .packedMsbFirst => j / 8 < tail.length ∧ bitAt .msbFirst tail j = b
  | _ => False

theorem tailBoolean_eq_ok_iff {j columnIndex : Nat} {b : Bool} :
    tailBoolean layout tail j columnIndex = .ok b ↔ HoldsBit layout tail j b := by
  cases layout with
  | bytes =>
      simp only [tailBoolean, HoldsBit, Library.Faults.bind_eq_ok_iff, index_eq_ok_iff, decodeBooleanByte_eq_ok_iff]
      exact ⟨fun ⟨_, h, hb⟩ => hb ▸ h, fun h => ⟨_, h, rfl⟩⟩
  | packedMsbFirst =>
      simp only [tailBoolean, HoldsBit, Library.Faults.bind_eq_ok_iff, index_eq_ok_iff, pure, Except.pure,
        Except.ok.injEq, and_mask_ne_zero _ _ (Nat.mod_lt j (by decide : 0 < 8))]
      constructor
      · rintro ⟨byte, h, rfl⟩
        exact ⟨(List.getElem?_eq_some_iff.mp h).1, bitAt_of_getElem? h⟩
      · rintro ⟨h, rfl⟩
        exact ⟨_, List.getElem?_eq_getElem h, (bitAt_of_getElem? (List.getElem?_eq_getElem h)).symm⟩
  | inlineBytes | inlineU16Le | inlinePackedRunsMsbFirst | inlinePackedRunsLsbFirst =>
      simp [tailBoolean, HoldsBit, panicked]

theorem tailBoolean_ne_panic (hlayout : hasTail layout = true) {n j : Nat} (hj : j < n)
    (hlen : tail.length = requiredTail layout n) (columnIndex : Nat) :
    tailBoolean layout tail j columnIndex ≠ .error .panic := by
  cases layout with
  | bytes =>
      have hj' : j < tail.length := hlen ▸ hj
      simp only [tailBoolean, index_of_lt hj']
      exact decodeBooleanByte_ne_panic _ _
  | packedMsbFirst =>
      have hj' : j / 8 < tail.length := hlen ▸ lt_byteCount hj
      simp [tailBoolean, index_of_lt hj', bind, Except.bind, pure, Except.pure]
  | inlineBytes | inlineU16Le | inlinePackedRunsMsbFirst | inlinePackedRunsLsbFirst => simp [hasTail] at hlayout

theorem inBody_eq_iff {column : ColumnDef} {p : Bool} : inBody layout column p = p ↔
    ¬ (hasTail layout = true ∧ column.columnType = .boolean ∧ p = true) := by
  cases p <;> simp [inBody, imp_iff_not_or]

def tailColumns (layout : BooleanTailLayout) : List ColumnDef → List Bool → Nat → List (ColumnDef × Nat)
  | column :: columns, p :: ps, i =>
      if hasTail layout ∧ column.columnType = .boolean ∧ p = true then
        (column, i) :: tailColumns layout columns ps (i + 1)
      else tailColumns layout columns ps (i + 1)
  | _, _, _ => []

/-- `fs` has the Booleans where the sidecar's columns are and the body's values elsewhere. -/
inductive Merged (layout : BooleanTailLayout) :
    List ColumnDef → List Bool → List Value → List Bool → List Value → Prop
  | nil : Merged layout [] [] [] [] []
  | sidecar {column : ColumnDef} {b : Bool} {columns : List ColumnDef} {ps bools : List Bool}
      {vs fs : List Value} (hlayout : hasTail layout = true) (hcolumn : column.columnType = .boolean)
      (rest : Merged layout columns ps vs bools fs) :
      Merged layout (column :: columns) (true :: ps) (.null :: vs) (b :: bools) (.boolean b :: fs)
  | body {column : ColumnDef} {p : Bool} {v : Value} {columns : List ColumnDef} {ps bools : List Bool}
      {vs fs : List Value} (h : inBody layout column p = p) (hv : v ≠ .null ↔ p = true)
      (rest : Merged layout columns ps vs bools fs) :
      Merged layout (column :: columns) (p :: ps) (v :: vs) bools (v :: fs)

def Agrees (ps : List Bool) (fs : List Value) : Prop := List.Forall₂ (fun p v => v ≠ .null ↔ p = true) ps fs

theorem Merged.linked (h : Merged layout columns ps vs bools fs) : Linked layout columns ps vs := by
  induction h with
  | nil => exact .nil
  | sidecar hlayout hcolumn _ ih => exact .cons (by simp [inBody, hlayout, hcolumn]) ih
  | body h hv _ ih => exact .cons (h.symm ▸ hv) ih

theorem Merged.agrees (h : Merged layout columns ps vs bools fs) : Agrees ps fs := by
  induction h with
  | nil => exact .nil
  | sidecar _ _ _ ih => exact .cons (by simp) ih
  | body _ hv _ ih => exact .cons hv ih

theorem Merged.bodyCells (h : Merged layout columns ps vs bools fs) :
    columns.zip vs = bodyCells layout (columns.zip fs) := by
  rw [RowGrammar.bodyCells]
  induction h with
  | nil => rfl
  | sidecar hlayout hcolumn _ ih => simp [bodyValue, hlayout, hcolumn, ih]
  | @body column p v _ _ _ _ _ h hv _ ih =>
      simp only [List.zip_cons_cons, List.map_cons, ih, bodyValue]
      split
      next hb =>
        have hp : p = false := by simpa [inBody, hb] using h
        have hnull : v = .null := by simpa [hp] using hv
        rw [hnull]
      next => rfl

theorem Merged.length_bools (h : Merged layout columns ps vs bools fs) (i : Nat) :
    (tailColumns layout columns ps i).length = bools.length := by
  induction h generalizing i with
  | nil => rfl
  | sidecar hlayout hcolumn _ ih => simp [tailColumns, hlayout, hcolumn, ih]
  | body h _ _ ih =>
      rw [tailColumns, if_neg (inBody_eq_iff.mp h), ih]

theorem Merged.booleans (h : Merged layout columns ps vs bools fs) :
    if hasTail layout then presentBooleans (columns.zip fs) = bools.map .boolean else bools = [] := by
  induction h with
  | nil => split <;> rfl
  | sidecar hlayout hcolumn _ ih =>
      rw [if_pos hlayout] at ih ⊢
      rw [presentBooleans] at ih ⊢
      rw [List.zip_cons_cons, List.filter_cons_of_pos (by simp [isPresentBoolean, hcolumn]), List.map_cons, ih,
        List.map_cons]
  | @body column p v _ _ _ _ _ h hv _ ih =>
      split
      next hl =>
        rw [if_pos hl] at ih
        rw [presentBooleans] at ih ⊢
        have : ¬ isPresentBoolean (column, v) = true := by
          rintro hb
          obtain ⟨hc, hne⟩ : column.columnType = .boolean ∧ v ≠ .null := of_decide_eq_true hb
          simp [inBody, hl, hc, hv.mp hne] at h
        rw [List.zip_cons_cons, List.filter_cons_of_neg this, ih]
      next hl => rwa [if_neg hl] at ih

theorem merged_exists (hlen : columns.length = fs.length) (hagrees : Agrees ps fs)
    (hbools : if hasTail layout then presentBooleans (columns.zip fs) = bools.map .boolean else bools = []) :
    ∃ vs, Merged layout columns ps vs bools fs := by
  induction columns generalizing ps fs bools with
  | nil =>
      obtain rfl := List.length_eq_zero_iff.mp hlen.symm
      cases hagrees
      obtain rfl : bools = [] := by
        split at hbools
        · simpa [presentBooleans] using hbools.symm
        · exact hbools
      exact ⟨[], .nil⟩
  | cons column columns ih =>
      cases hagrees with
      | nil => simp at hlen
      | @cons p v ps fs hv hagrees =>
          have hlen' : columns.length = fs.length := by simpa using hlen
          rw [presentBooleans] at hbools
          by_cases hb : hasTail layout = true ∧ isPresentBoolean (column, v) = true
          · obtain ⟨hl, hp⟩ := hb
            obtain ⟨hc, hne⟩ := of_decide_eq_true hp
            rw [if_pos hl, List.zip_cons_cons, List.filter_cons_of_pos hp, List.map_cons] at hbools
            obtain ⟨b, bools, rfl, rfl, hrest⟩ := List.map_eq_cons_iff.mp hbools.symm
            obtain ⟨vs, hvs⟩ := ih hlen' hagrees (by rw [if_pos hl]; exact hrest.symm)
            obtain rfl := hv.mp hne
            exact ⟨_, .sidecar hl hc hvs⟩
          · have hrest : if hasTail layout then presentBooleans (columns.zip fs) = bools.map .boolean
                else bools = [] := by
              split at hbools
              next hl =>
                rw [if_pos hl]
                rwa [List.zip_cons_cons, List.filter_cons_of_neg (fun hp => hb ⟨hl, hp⟩)] at hbools
              next hl => rwa [if_neg hl]
            obtain ⟨vs, hvs⟩ := ih hlen' hagrees hrest
            refine ⟨_, .body (inBody_eq_iff.mpr ?_) hv hvs⟩
            rintro ⟨hl, hc, hp⟩
            exact hb ⟨hl, by simp [isPresentBoolean, hc, hv, hp]⟩

/-- The bits of the sidecar from position `k` on. -/
def HoldsFrom (layout : BooleanTailLayout) (tail : Bytes) (k : Nat) (bools : List Bool) : Prop :=
  ∀ j b, bools[j]? = some b → HoldsBit layout tail (k + j) b

theorem holdsFrom_cons_iff {k : Nat} {b : Bool} :
    HoldsFrom layout tail k (b :: bools) ↔ HoldsBit layout tail k b ∧ HoldsFrom layout tail (k + 1) bools := by
  constructor
  · intro h
    refine ⟨h 0 b rfl, fun j c hj => ?_⟩
    rw [Nat.add_assoc, Nat.add_comm 1]
    exact h (j + 1) c hj
  · rintro ⟨hb, h⟩ j c hj
    cases j with
    | zero =>
        obtain rfl : b = c := by simpa using hj
        exact hb
    | succ j =>
        rw [Nat.add_comm j 1, ← Nat.add_assoc]
        exact h j c hj

def TailBits (layout : BooleanTailLayout) (bools : List Bool) (tail : Bytes) : Prop :=
  match layout with
  | .bytes => tail = bools.map booleanByte
  | .packedMsbFirst => Packs .msbFirst bools tail
  | _ => tail = []

theorem holdsFrom_zero_iff (hlayout : hasTail layout = false → bools = []) :
    tail.length = requiredTail layout bools.length ∧ HoldsFrom layout tail 0 bools ↔
      TailBits layout bools tail := by
  simp only [HoldsFrom, TailBits]
  simp only [Nat.zero_add]
  cases layout with
  | bytes =>
      simp only [requiredTail, HoldsBit]
      constructor
      · rintro ⟨hlen, h⟩
        apply List.ext_getElem (by simpa using hlen)
        intro j hj hj'
        have := h j _ (List.getElem?_eq_getElem (by simpa using hj'))
        rw [List.getElem?_eq_getElem hj, Option.some.injEq] at this
        simpa using this
      · rintro rfl
        exact ⟨by simp, fun j b hj => by simp [hj]⟩
  | packedMsbFirst =>
      simp only [requiredTail, HoldsBit, Packs]
      refine and_congr_right fun hlen => ⟨fun h j hj => (h j _ (List.getElem?_eq_getElem hj)).2, ?_⟩
      intro h j b hb
      obtain ⟨hj, rfl⟩ := List.getElem?_eq_some_iff.mp hb
      exact ⟨hlen ▸ lt_byteCount hj, h j hj⟩
  | inlineBytes | inlineU16Le | inlinePackedRunsMsbFirst | inlinePackedRunsLsbFirst =>
      obtain rfl := hlayout rfl
      simp [requiredTail]

theorem Merged.tailRepr_iff (h : Merged layout columns ps vs bools fs) :
    TailRepr layout (columns.zip fs) tail ↔
      tail.length = requiredTail layout bools.length ∧ HoldsFrom layout tail 0 bools := by
  have hbools := h.booleans
  rw [holdsFrom_zero_iff fun hl => by simpa [hl] using hbools]
  have hinj {cs : List Bool} : bools.map Value.boolean = cs.map .boolean ↔ cs = bools := by
    rw [List.map_inj_right (by simp), eq_comm]
  cases layout with
  | bytes | packedMsbFirst =>
      simp only [hasTail, ↓reduceIte] at hbools
      simp [TailRepr, TailBits, hbools, hinj]
  | inlineBytes | inlineU16Le | inlinePackedRunsMsbFirst | inlinePackedRunsLsbFirst => rfl

theorem Merged.length_tail (h : Merged layout columns ps vs bools fs) (ht : TailRepr layout (columns.zip fs) tail) :
    tail.length = requiredTail layout (tailColumns layout columns ps 0).length := by
  rw [(h.tailRepr_iff.mp ht).1, h.length_bools]

theorem tailRepr_booleans {cells : List Cell} (h : TailRepr layout cells tail) : ∃ bools : List Bool,
    if hasTail layout then presentBooleans cells = bools.map .boolean else bools = [] := by
  cases layout with
  | bytes | packedMsbFirst => exact ⟨h.choose, h.choose_spec.1⟩
  | inlineBytes | inlineU16Le | inlinePackedRunsMsbFirst | inlinePackedRunsLsbFirst => exact ⟨[], rfl⟩

theorem tailRepr_inline_iff (hl : hasTail layout = false) {cells : List Cell} : TailRepr layout cells tail ↔ tail = [] := by
  cases layout with
  | bytes | packedMsbFirst => cases hl
  | inlineBytes | inlineU16Le | inlinePackedRunsMsbFirst | inlinePackedRunsLsbFirst => rfl

theorem tailLoop_spec {σ : Type} (Inv : σ → Prop) (act : σ → ColumnDef × Nat → Bool → σ)
    {step : σ → ColumnDef × Nat → Nat → Outcome DecodeError σ} (cols : List (ColumnDef × Nat)) (k : Nat)
    (hinv : ∀ s c b, Inv s → Inv (act s c b))
    (hstep : ∀ s c j, Inv s → c ∈ cols → step s c j = tailBoolean layout tail j c.2 >>= fun b => .ok (act s c b))
    (hbits : ∀ j c, k ≤ j → j < k + cols.length → tailBoolean layout tail j c ≠ .error .panic) {s : σ} (hs : Inv s) :
    (cols.zipIdx k).foldlM (fun s e => step s e.1 e.2) s ≠ .error .panic ∧
    ∀ s', (cols.zipIdx k).foldlM (fun s e => step s e.1 e.2) s = .ok s' ↔
      ∃ bools, bools.length = cols.length ∧ HoldsFrom layout tail k bools ∧
        s' = (cols.zip bools).foldl (fun s e => act s e.1 e.2) s := by
  induction cols generalizing k s with
  | nil =>
      refine ⟨by simp [pure, Except.pure], fun s' => ?_⟩
      simp [pure, Except.pure, HoldsFrom, eq_comm]
  | cons c cols ih =>
      have hnext (b : Bool) := ih (k + 1) (fun s c' j hs hc => hstep s c' j hs (List.mem_cons_of_mem _ hc))
        (fun j c' hj hj' => hbits j c' (by omega) (by rw [List.length_cons]; omega)) (hinv s c b hs)
      have heq : ((c :: cols).zipIdx k).foldlM (fun s e => step s e.1 e.2) s =
          tailBoolean layout tail k c.2 >>= fun b =>
            (cols.zipIdx (k + 1)).foldlM (fun s e => step s e.1 e.2) (act s c b) := by
        rw [List.zipIdx_cons, List.foldlM_cons, hstep s c k hs (by simp), bind_assoc]
        rfl
      rw [heq]
      refine ⟨bind_ne_panic (hbits k c.2 le_rfl (by simp)) fun b _ => (hnext b).1, fun s' => ?_⟩
      simp only [Library.Faults.bind_eq_ok_iff, tailBoolean_eq_ok_iff, (hnext _).2]
      constructor
      · rintro ⟨b, hb, bools, hlen, hh, rfl⟩
        exact ⟨b :: bools, by simp [hlen], holdsFrom_cons_iff.mpr ⟨hb, hh⟩, rfl⟩
      · rintro ⟨bools, hlen, hh, rfl⟩
        cases bools with
        | nil => simp at hlen
        | cons b bools =>
            obtain ⟨hb, hh⟩ := holdsFrom_cons_iff.mp hh
            exact ⟨b, hb, bools, by simpa using hlen, hh, rfl⟩

theorem hasTail_of_mem_tailColumns {c : ColumnDef × Nat} {i : Nat} (hc : c ∈ tailColumns layout columns ps i) :
    hasTail layout = true ∧ c.2 < i + columns.length := by
  induction columns generalizing ps i with
  | nil => simp [tailColumns] at hc
  | cons column columns ih =>
      cases ps with
      | nil => simp [tailColumns] at hc
      | cons p ps =>
          rw [tailColumns] at hc
          rw [List.length_cons]
          split at hc
          next h =>
            rcases List.mem_cons.mp hc with rfl | hc
            · exact ⟨h.1, by simp⟩
            · obtain ⟨hl, hlt⟩ := ih hc
              exact ⟨hl, by omega⟩
          next =>
            obtain ⟨hl, hlt⟩ := ih hc
            exact ⟨hl, by omega⟩

theorem tailBits_ne_panic {i : Nat} (hlen : tail.length = requiredTail layout (tailColumns layout columns ps i).length)
    (j c : Nat) (hj : j < 0 + (tailColumns layout columns ps i).length) :
    tailBoolean layout tail j c ≠ .error .panic := by
  rw [Nat.zero_add] at hj
  exact tailBoolean_ne_panic (hasTail_of_mem_tailColumns (List.getElem_mem hj)).1 hj hlen c

theorem merged_of_linked (h : Linked layout columns ps vs) (i : Nat)
    (hlen : bools.length = (tailColumns layout columns ps i).length) :
    ∃ fs, Merged layout columns ps vs bools fs := by
  induction h generalizing i bools with
  | nil =>
      obtain rfl := List.length_eq_zero_iff.mp hlen
      exact ⟨[], .nil⟩
  | @cons column p value columns ps vs head rest ih =>
      rw [tailColumns] at hlen
      split at hlen
      next hb =>
        obtain ⟨hl, hc, rfl⟩ := hb
        obtain rfl : value = .null := by simpa [inBody, hl, hc] using head
        cases bools with
        | nil => simp at hlen
        | cons b bools =>
            obtain ⟨fs, hfs⟩ := ih (i + 1) (by simpa using hlen)
            exact ⟨_, .sidecar hl hc hfs⟩
      next hb =>
        have hbody := inBody_eq_iff.mpr hb
        obtain ⟨fs, hfs⟩ := ih (i + 1) hlen
        exact ⟨_, .body hbody (hbody ▸ head) hfs⟩

theorem Merged.set_eq (h : Merged layout columns ps vs bools fs) (before : List Value) :
    ((tailColumns layout columns ps before.length).zip bools).foldl
      (fun values e => values.set e.1.2 (.boolean e.2)) (before ++ vs) = before ++ fs := by
  induction h generalizing before with
  | nil => rfl
  | @sidecar column b columns ps bools vs fs hlayout hcolumn _ ih =>
      have := ih (before ++ [.boolean b])
      simp only [List.length_append, List.length_singleton] at this
      simp only [tailColumns, hlayout, hcolumn, and_self, ↓reduceIte, List.zip_cons_cons, List.foldl_cons]
      simpa using this
  | @body column p v columns ps bools vs fs h hv _ ih =>
      have := ih (before ++ [v])
      simp only [List.length_append, List.length_singleton] at this
      rw [tailColumns, if_neg (inBody_eq_iff.mp h)]
      simpa using this

/-- The loop over the sidecar succeeds just on its Booleans, and puts them in place. -/
theorem decodeTail_spec (h : Linked layout columns ps vs)
    (hlen : tail.length = requiredTail layout (tailColumns layout columns ps 0).length) :
    decodeTail layout tail ((tailColumns layout columns ps 0).map (·.2)) vs ≠ .error .panic ∧
    ∀ fs, decodeTail layout tail ((tailColumns layout columns ps 0).map (·.2)) vs = .ok fs ↔
      ∃ bools, Merged layout columns ps vs bools fs ∧ HoldsFrom layout tail 0 bools := by
  have hstep (values : List Value) (c : ColumnDef × Nat) (j : Nat) (hvalues : values.length = columns.length)
      (hc : c ∈ tailColumns layout columns ps 0) : (do
        let value ← tailBoolean layout tail j c.2
        assign values c.2 (.boolean value)) =
          tailBoolean layout tail j c.2 >>= fun b => .ok (values.set c.2 (.boolean b)) := by
    have hlt := (hasTail_of_mem_tailColumns hc).2
    exact congrArg _ (funext fun b => assign_of_lt (by omega) _)
  have hloop : decodeTail layout tail ((tailColumns layout columns ps 0).map (·.2)) vs =
      (tailColumns layout columns ps 0).zipIdx.foldlM (fun values e => do
        let value ← tailBoolean layout tail e.2 e.1.2
        assign values e.1.2 (.boolean value)) vs := by
    rw [decodeTail, List.zipIdx_map, List.foldlM_map]
    rfl
  obtain ⟨hne, hok⟩ := tailLoop_spec (fun values : List Value => values.length = columns.length)
    (fun values c b => values.set c.2 (.boolean b)) (tailColumns layout columns ps 0) 0 (by simp) hstep
    (fun j c _ hj => tailBits_ne_panic hlen j c hj) h.length.2
  rw [hloop]
  refine ⟨hne, fun fs => (hok fs).trans ?_⟩
  constructor
  · rintro ⟨bools, hbools, hh, rfl⟩
    obtain ⟨fs, hm⟩ := merged_of_linked h 0 hbools
    exact ⟨bools, (hm.set_eq []) ▸ hm, hh⟩
  · rintro ⟨bools, hm, hh⟩
    exact ⟨bools, (hm.length_bools 0).symm, hh, (hm.set_eq []).symm⟩

end OpenSqlAny.RowTail
