import Mathlib.Data.Prod.Lex
import OpenSqlAny.Library.RankedSearch
import OpenSqlAny.SlottedPages

namespace OpenSqlAny.SlotScanning

open Library.LittleEndian Library.RankedSearch PageStores SlottedPages

/-- Words that a scan takes from a position on, when prev is the last live slot it has seen. -/
structure Takable (read : Nat → Nat) (pos prev : Nat) (seenLive : Bool) (ws : List Nat) : Prop where
  words : ∀ i (h : i < ws.length), ws[i] = read (pos + 2 * i)
  fits : ws ≠ [] → pos + 2 * ws.length ≤ searchLimit
  head_live : seenLive = false → ws.head? ≠ some 0
  offsets : ∀ w ∈ liveOf ws, isSlotOffset w
  descending : (prev :: liveOf ws).Pairwise (· > ·)

/-- All the words that the scan takes: the next one stops it. -/
structure Taken (read : Nat → Nat) (pos prev : Nat) (seenLive : Bool) (ws : List Nat) : Prop
    extends Takable read pos prev seenLive ws where
  stops : pos + 2 * ws.length + 1 < searchLimit →
    ¬ (read (pos + 2 * ws.length) = 0 ∧ (seenLive = true ∨ ws ≠ [])) ∧
    ¬ (isSlotOffset (read (pos + 2 * ws.length)) ∧
      ∀ w ∈ prev :: liveOf ws, read (pos + 2 * ws.length) < w)

theorem liveOf_cons_zero (ws : List Nat) : liveOf (0 :: ws) = liveOf ws := rfl

theorem liveOf_cons_of_ne {w : Nat} (h : w ≠ 0) (ws : List Nat) : liveOf (w :: ws) = w :: liveOf ws :=
  List.filter_cons_of_pos (by simpa using h)

theorem isSlotOffset_ne_zero {w : Nat} (h : isSlotOffset w) : w ≠ 0 := by
  have hmin := h.1
  simp only [slotOffsetMin] at hmin
  omega

section Loops

variable {read : Nat → Nat} {pos prev : Nat} {seenLive : Bool} {ws : List Nat}

theorem taken_nil_iff : Taken read pos prev seenLive [] ↔ (pos + 1 < searchLimit →
    ¬ (read pos = 0 ∧ seenLive = true) ∧ ¬ (isSlotOffset (read pos) ∧ read pos < prev)) := by
  constructor
  · intro h hpos
    simpa [liveOf] using h.stops hpos
  · intro h
    refine ⟨⟨by simp, by simp, by simp, by simp [liveOf], by simp [liveOf]⟩, ?_⟩
    intro hpos
    simpa [liveOf] using h hpos

theorem taken_words_cons {w : Nat} (hw : read pos = w)
    (h : ∀ i (hi : i < ws.length), ws[i] = read (pos + 2 + 2 * i)) :
    ∀ i (hi : i < (w :: ws).length), (w :: ws)[i] = read (pos + 2 * i) := by
  intro i hi
  cases i with
  | zero => exact hw.symm
  | succ i =>
      rw [List.getElem_cons_succ, h i (by simpa using hi)]
      congr 1
      omega

theorem taken_cons_zero (hpos : pos + 1 < searchLimit) (hw : read pos = 0) (hseen : seenLive = true)
    (h : Taken read (pos + 2) prev true ws) : Taken read pos prev seenLive (0 :: ws) := by
  have hend : pos + 2 * (0 :: ws).length = pos + 2 + 2 * ws.length := by
    rw [List.length_cons]
    omega
  refine ⟨⟨taken_words_cons hw h.words, ?_, by simp [hseen], h.offsets, h.descending⟩, ?_⟩
  · intro _
    rw [hend]
    cases ws with
    | nil => exact hpos
    | cons x ws => exact h.fits (List.cons_ne_nil x ws)
  · rw [hend, liveOf_cons_zero]
    intro hin
    obtain ⟨hzero, hslot⟩ := h.stops hin
    exact ⟨fun hstop => hzero ⟨hstop.1, .inl rfl⟩, hslot⟩

theorem taken_cons_live (hpos : pos + 1 < searchLimit) (hslot : isSlotOffset (read pos))
    (hprev : read pos < prev) (h : Taken read (pos + 2) (read pos) true ws) :
    Taken read pos prev seenLive (read pos :: ws) := by
  have hne := isSlotOffset_ne_zero hslot
  have hend : pos + 2 * (read pos :: ws).length = pos + 2 + 2 * ws.length := by
    rw [List.length_cons]
    omega
  have hbelow := (List.pairwise_cons.mp h.descending).1
  refine ⟨⟨taken_words_cons rfl h.words, ?_, by simp [hne], ?_, ?_⟩, ?_⟩
  · intro _
    rw [hend]
    cases ws with
    | nil => exact hpos
    | cons x ws => exact h.fits (List.cons_ne_nil x ws)
  · rw [liveOf_cons_of_ne hne]
    exact List.forall_mem_cons.mpr ⟨hslot, h.offsets⟩
  · rw [liveOf_cons_of_ne hne]
    refine List.pairwise_cons.mpr ⟨List.forall_mem_cons.mpr ⟨hprev, ?_⟩, h.descending⟩
    intro w hw
    exact Nat.lt_trans (hbelow w hw) hprev
  · rw [hend, liveOf_cons_of_ne hne]
    intro hin
    obtain ⟨hzero, hnext⟩ := h.stops hin
    refine ⟨fun hstop => hzero ⟨hstop.1, .inl rfl⟩, ?_⟩
    intro hstop
    exact hnext ⟨hstop.1, (List.forall_mem_cons.mp hstop.2).2⟩

theorem scanLoop_taken (read : Nat → Nat) (pos : Nat) (slots : List Nat) (prev : Nat) (seenLive : Bool) :
    ∃ ws, scanLoop read pos slots prev seenLive = (pos + 2 * ws.length, slots ++ ws) ∧
      Taken read pos prev seenLive ws := by
  fun_induction scanLoop read pos slots prev seenLive with
  | case1 pos slots prev seenLive hpos hzero ih =>
      obtain ⟨ws, hrun, htaken⟩ := ih
      refine ⟨0 :: ws, ?_, taken_cons_zero hpos hzero.1 hzero.2 (hzero.2 ▸ htaken)⟩
      rw [hrun, List.append_assoc, List.length_cons]
      congr 1
      omega
  | case2 pos slots prev seenLive hpos hzero hslot ih =>
      obtain ⟨ws, hrun, htaken⟩ := ih
      refine ⟨read pos :: ws, ?_, taken_cons_live hpos hslot.1 hslot.2 htaken⟩
      rw [hrun, List.append_assoc, List.length_cons]
      congr 1
      omega
  | case3 pos slots prev seenLive hpos hzero hslot =>
      exact ⟨[], by simp, taken_nil_iff.mpr (fun _ => ⟨hzero, hslot⟩)⟩
  | case4 pos slots prev seenLive hpos =>
      exact ⟨[], by simp, taken_nil_iff.mpr (fun h => absurd h hpos)⟩

theorem words_begin {ws' : List Nat} (h : ∀ i (hi : i < ws.length), ws[i] = read (pos + 2 * i))
    (h' : ∀ i (hi : i < ws'.length), ws'[i] = read (pos + 2 * i)) (hle : ws.length ≤ ws'.length) :
    ws' = ws ++ ws'.drop ws.length := by
  have htake : ws'.take ws.length = ws := by
    apply List.ext_getElem
    · rw [List.length_take]
      omega
    · intro i hi hi'
      rw [List.getElem_take, h' i (by omega), h i hi']
  calc ws' = ws'.take ws.length ++ ws'.drop ws.length := (List.take_append_drop _ _).symm
    _ = ws ++ ws'.drop ws.length := by rw [htake]

theorem takable_begins_taken {ws' : List Nat} (h : Takable read pos prev seenLive ws)
    (h' : Taken read pos prev seenLive ws') : ∃ rest, ws' = ws ++ rest := by
  by_cases hle : ws.length ≤ ws'.length
  · exact ⟨_, words_begin h.words h'.words hle⟩
  · exfalso
    have hsplit := words_begin h'.words h.words (by omega)
    have hin : ws'.length < ws.length := by omega
    rw [List.drop_eq_getElem_cons hin] at hsplit
    have hword := h.words ws'.length hin
    have hfits := h.fits (List.ne_nil_of_length_pos (by omega))
    obtain ⟨hzero, hslot⟩ := h'.stops (by omega)
    rw [hword] at hsplit
    by_cases hdeleted : read (pos + 2 * ws'.length) = 0
    · refine hzero ⟨hdeleted, ?_⟩
      cases hws : ws' with
      | cons x ws' => exact .inr (List.cons_ne_nil x ws')
      | nil =>
          cases hseen : seenLive with
          | true => exact .inl rfl
          | false =>
              rw [hws] at hsplit hdeleted
              have hhead := h.head_live hseen
              rw [hsplit] at hhead
              exact absurd (congrArg some hdeleted) hhead
    · have hlive : liveOf ws = liveOf ws' ++ read (pos + 2 * ws'.length) ::
          liveOf (ws.drop (ws'.length + 1)) := by
        rw [← liveOf_cons_of_ne hdeleted, liveOf, liveOf, liveOf, ← List.filter_append, ← hsplit]
      apply hslot
      refine ⟨h.offsets _ ?_, ?_⟩
      · rw [hlive]
        exact List.mem_append_right _ List.mem_cons_self
      · intro w hw
        have hdescending := h.descending
        rw [hlive, ← List.cons_append] at hdescending
        exact (List.pairwise_append.mp hdescending).2.2 w hw _ List.mem_cons_self

end Loops

/-- An array of slots that a directory can be: it lies before the rows it points at. -/
structure SlotArray (read : Nat → Nat) (first : Nat) (ws : List Nat) : Prop where
  words : ∀ i (h : i < ws.length), ws[i] = read (first + 2 * i)
  fits : first + 2 * ws.length ≤ searchLimit
  head_live : ws.head? ≠ some 0
  offsets : ∀ w ∈ liveOf ws, isSlotOffset w
  descending : (liveOf ws).Pairwise (· > ·)
  enough : minLiveSlots ≤ (liveOf ws).length
  clear : ∀ w ∈ liveOf ws, first + 2 * ws.length ≤ w

/-- The word behind the array is neither zero nor a further slot. -/
def Ended (read : Nat → Nat) (first : Nat) (ws : List Nat) : Prop :=
  first + 2 * ws.length + 1 < searchLimit →
    read (first + 2 * ws.length) ≠ 0 ∧
    ¬ (isSlotOffset (read (first + 2 * ws.length)) ∧
      ∀ w ∈ liveOf ws, read (first + 2 * ws.length) < w)

section Arrays

variable {read : Nat → Nat} {first : Nat} {ws : List Nat}

theorem isSlotOffset_lt {w : Nat} (h : isSlotOffset w) : w < 0x10000 := by
  have hmax := h.2
  simp only [slotOffsetMax, trailerStart] at hmax
  omega

theorem SlotArray.ne_nil (h : SlotArray read first ws) : ws ≠ [] := by
  intro hnil
  have henough := h.enough
  rw [hnil] at henough
  exact absurd henough (by decide)

theorem SlotArray.exists_min (h : SlotArray read first ws) : ∃ least, (liveOf ws).min? = some least := by
  cases hmin : (liveOf ws).min? with
  | some least => exact ⟨least, rfl⟩
  | none =>
      have henough := h.enough
      rw [List.min?_eq_none_iff.mp hmin] at henough
      exact absurd henough (by decide)

theorem SlotArray.takable (h : SlotArray read first ws) : Takable read first 0x10000 false ws :=
  ⟨h.words, fun _ => h.fits, fun _ => h.head_live, h.offsets,
    List.pairwise_cons.mpr ⟨fun w hw => isSlotOffset_lt (h.offsets w hw), h.descending⟩⟩

theorem ended_iff_stops (hne : ws ≠ []) : Ended read first ws ↔
    (first + 2 * ws.length + 1 < searchLimit →
      ¬ (read (first + 2 * ws.length) = 0 ∧ (false = true ∨ ws ≠ [])) ∧
      ¬ (isSlotOffset (read (first + 2 * ws.length)) ∧
        ∀ w ∈ 0x10000 :: liveOf ws, read (first + 2 * ws.length) < w)) := by
  rw [Ended]
  apply imp_congr_right
  intro _
  have hbelow : (isSlotOffset (read (first + 2 * ws.length)) ∧
      ∀ w ∈ liveOf ws, read (first + 2 * ws.length) < w) ↔
      (isSlotOffset (read (first + 2 * ws.length)) ∧
        ∀ w ∈ 0x10000 :: liveOf ws, read (first + 2 * ws.length) < w) := by
    apply and_congr_right
    intro hslot
    rw [List.forall_mem_cons]
    exact (and_iff_right (isSlotOffset_lt hslot)).symm
  rw [hbelow]
  simp [hne]

theorem SlotArray.taken (h : SlotArray read first ws) (hended : Ended read first ws) :
    Taken read first 0x10000 false ws :=
  ⟨h.takable, (ended_iff_stops h.ne_nil).mp hended⟩

end Arrays

section Scans

variable {plain : Bytes} {bigEndian : Bool}

/-- What a scan says of the page where it finds a directory. -/
structure Describes (plain : Bytes) (start : Nat) (bigEndian : Bool) (d : SlotDirectory) : Prop where
  scanStart : d.scanStart = start
  byteOrder : d.bigEndian = bigEndian
  leadingZero : d.leadingZero = decide (hasLeadingZero (readU16 bigEndian plain) start)
  arrayStart : d.arrayStart = if d.leadingZero then start + 2 else start
  endOffset : d.endOffset = d.arrayStart + 2 * d.slots.length
  array : SlotArray (readU16 bigEndian plain) d.arrayStart d.slots
  ended : Ended (readU16 bigEndian plain) d.arrayStart d.slots

theorem scanFrom_describes {start : Nat} {d : SlotDirectory} (h : scanFrom plain start bigEndian = some d) :
    Describes plain start bigEndian d := by
  simp only [scanFrom] at h
  generalize hfirst : (if decide (hasLeadingZero (readU16 bigEndian plain) start) = true then start + 2 else start) =
    first at h
  obtain ⟨ws, hrun, htaken⟩ := scanLoop_taken (readU16 bigEndian plain) first [] 0x10000 false
  rw [List.nil_append] at hrun
  simp only [hrun] at h
  split at h
  · cases h
  · rename_i henough
    rw [Nat.not_lt] at henough
    split at h
    · cases h
    · rename_i least hleast
      split at h
      · cases h
      · rename_i hclear
        cases h
        have hmin := (List.min?_eq_some_iff.mp hleast).2
        have hne : ws ≠ [] := by
          rintro rfl
          exact absurd henough (by decide)
        refine ⟨rfl, rfl, rfl, hfirst.symm, rfl, ⟨htaken.words, htaken.fits hne, htaken.head_live rfl, htaken.offsets,
          (List.pairwise_cons.mp htaken.descending).2, henough, ?_⟩, (ended_iff_stops hne).mpr htaken.stops⟩
        intro w hw
        exact Nat.le_trans (Nat.le_of_not_lt hclear) (hmin w hw)

theorem scanLoop_array {read : Nat → Nat} {first : Nat} {ws : List Nat} (h : SlotArray read first ws)
    (hended : Ended read first ws) : scanLoop read first [] 0x10000 false = (first + 2 * ws.length, ws) := by
  have htaken := h.taken hended
  obtain ⟨ws', hrun, htaken'⟩ := scanLoop_taken read first [] 0x10000 false
  obtain ⟨rest, hrest⟩ := takable_begins_taken htaken.toTakable htaken'
  obtain ⟨rest', hrest'⟩ := takable_begins_taken htaken'.toTakable htaken
  have hsame : ws' = ws := by
    have hlen := congrArg List.length hrest
    have hlen' := congrArg List.length hrest'
    rw [List.length_append] at hlen hlen'
    have hnil : rest = [] := List.eq_nil_of_length_eq_zero (by omega)
    rw [hrest, hnil, List.append_nil]
  rw [hrun, List.nil_append, hsame]

theorem SlotArray.first_slot {read : Nat → Nat} {first : Nat} {ws : List Nat} (h : SlotArray read first ws) :
    isSlotOffset (read first) := by
  have hpos : 0 < ws.length := List.length_pos_of_ne_nil h.ne_nil
  have hword : ws[0] = read first := h.words 0 hpos
  have hlive : ws[0] ∈ liveOf ws := by
    have hne : ws[0] ≠ 0 := by
      intro hzero
      apply h.head_live
      rw [List.head?_eq_getElem?, List.getElem?_eq_getElem hpos, hzero]
    rw [liveOf, List.mem_filter]
    exact ⟨List.getElem_mem hpos, by simpa using hne⟩
  rw [← hword]
  exact h.offsets _ hlive

theorem Describes.scanFrom {start : Nat} {d : SlotDirectory} (h : Describes plain start bigEndian d) :
    scanFrom plain start bigEndian = some d := by
  obtain ⟨scanStart, arrayStart, endOffset, slots, leadingZero, bigEndian'⟩ := d
  obtain ⟨hstart, horder, hlead, hfirst, hend, harray, hended⟩ := h
  simp only at hstart horder hlead hfirst hend harray hended
  subst hstart horder hend
  obtain ⟨least, hleast⟩ := harray.exists_min
  have hclear := harray.clear least (List.min?_eq_some_iff.mp hleast).1
  simp only [SlottedPages.scanFrom, ← hlead, ← hfirst, scanLoop_array harray hended, hleast,
    if_neg (Nat.not_lt.mpr harray.enough), if_neg (Nat.not_lt.mpr hclear)]

theorem scanFrom_eq_some_iff {start : Nat} {d : SlotDirectory} :
    scanFrom plain start bigEndian = some d ↔ Describes plain start bigEndian d :=
  ⟨scanFrom_describes, Describes.scanFrom⟩

theorem scanFrom_complete {first : Nat} {ws : List Nat} (h : SlotArray (readU16 bigEndian plain) first ws)
    (hended : Ended (readU16 bigEndian plain) first ws) :
    ∃ d, scanFrom plain first bigEndian = some d ∧ d.slots = ws := by
  have hfirst := isSlotOffset_ne_zero h.first_slot
  have hnolead : ¬ hasLeadingZero (readU16 bigEndian plain) first := fun hlead => hfirst hlead.2.1
  have hdescribes : Describes plain first bigEndian
      ⟨first, first, first + 2 * ws.length, ws, false, bigEndian⟩ :=
    ⟨rfl, rfl, (decide_eq_false hnolead).symm, rfl, rfl, h, hended⟩
  exact ⟨_, hdescribes.scanFrom, rfl⟩

end Scans

section Searches

/-- More live slots rank higher, and among as many the longer array. -/
def rank (d : SlotDirectory) : ℕ ×ₗ ℕ := toLex (d.liveCount, d.slots.length)

theorem isBetter_iff {cand best : SlotDirectory} : isBetter cand best ↔ rank best < rank cand := by
  rw [isBetter, rank, rank, Prod.Lex.toLex_lt_toLex]
  constructor
  · rintro (hlive | ⟨hlive, hlength⟩)
    · exact .inl hlive
    · exact .inr ⟨hlive.symm, hlength⟩
  · rintro (hlive | ⟨hlive, hlength⟩)
    · exact .inl hlive
    · exact .inr ⟨hlive.symm, hlength⟩

theorem keepBetter_eq (best : Option SlotDirectory) (cand : SlotDirectory) :
    keepBetter best cand = keepHigher rank best cand := by
  cases best with
  | none => rfl
  | some b => exact if_congr isBetter_iff rfl rfl

theorem findSlotDirectory_eq_search (plain : Bytes) :
    findSlotDirectory plain = search rank (fun attempt => scanFrom plain attempt.1 attempt.2) attempts := by
  rw [findSlotDirectory, search]
  congr 1
  funext best attempt
  cases scanFrom plain attempt.1 attempt.2 with
  | none => rfl
  | some cand => exact keepBetter_eq best cand

theorem mem_attempts_iff {start : Nat} {bigEndian : Bool} :
    (start, bigEndian) ∈ attempts ↔ start < searchLimit := by
  rw [attempts, List.mem_flatMap]
  constructor
  · rintro ⟨s, hs, hmem⟩
    rw [List.mem_range] at hs
    simp only [List.mem_cons, Prod.mk.injEq, List.not_mem_nil, or_false] at hmem
    omega
  · intro h
    refine ⟨start, List.mem_range.mpr h, ?_⟩
    cases bigEndian <;> simp

theorem findSlotDirectory_describes {plain : Bytes} {d : SlotDirectory} (h : findSlotDirectory plain = some d) :
    ∃ start bigEndian, start < searchLimit ∧ Describes plain start bigEndian d := by
  rw [findSlotDirectory_eq_search] at h
  obtain ⟨⟨start, bigEndian⟩, hattempt, hscan⟩ := (firstBest_search h).exists_mem
  exact ⟨start, bigEndian, mem_attempts_iff.mp hattempt, scanFrom_eq_some_iff.mp hscan⟩

theorem liveCount_le_of_rank_le {c d : SlotDirectory} (h : rank c ≤ rank d) : c.liveCount ≤ d.liveCount := by
  rw [rank, rank, Prod.Lex.toLex_le_toLex] at h
  rcases h with hlive | ⟨hlive, -⟩
  · exact hlive.le
  · exact hlive.le

/-- The search finds a directory with at least as many live slots as any array of the page. -/
theorem findSlotDirectory_of_array {plain : Bytes} {bigEndian : Bool} {first : Nat} {ws : List Nat}
    (h : SlotArray (readU16 bigEndian plain) first ws) (hended : Ended (readU16 bigEndian plain) first ws) :
    ∃ d, findSlotDirectory plain = some d ∧ (liveOf ws).length ≤ d.liveCount := by
  obtain ⟨cand, hscan, rfl⟩ := scanFrom_complete h hended
  have hpos := List.length_pos_of_ne_nil h.ne_nil
  have hfits := h.fits
  have hattempt : (first, bigEndian) ∈ attempts := mem_attempts_iff.mpr (by omega)
  cases hfound : findSlotDirectory plain with
  | none =>
      rw [findSlotDirectory_eq_search, search_eq_none_iff] at hfound
      rw [hfound _ hattempt] at hscan
      cases hscan
  | some d =>
      rw [findSlotDirectory_eq_search] at hfound
      exact ⟨d, rfl, liveCount_le_of_rank_le ((firstBest_search hfound).highest _ hattempt cand hscan)⟩

/-- The search finds a directory with enough live slots exactly when the page holds such an array
that the scan can end. -/
theorem findSlotDirectory_iff (plain : Bytes) (n : Nat) :
    (∃ d, findSlotDirectory plain = some d ∧ n ≤ d.liveCount) ↔
      ∃ bigEndian first ws, SlotArray (readU16 bigEndian plain) first ws ∧
        Ended (readU16 bigEndian plain) first ws ∧ n ≤ (liveOf ws).length := by
  constructor
  · rintro ⟨d, hd, hn⟩
    obtain ⟨start, bigEndian, -, hdescribes⟩ := findSlotDirectory_describes hd
    exact ⟨bigEndian, d.arrayStart, d.slots, hdescribes.array, hdescribes.ended, hn⟩
  · rintro ⟨bigEndian, first, ws, harray, hended, hn⟩
    obtain ⟨d, hd, hle⟩ := findSlotDirectory_of_array harray hended
    exact ⟨d, hd, Nat.le_trans hn hle⟩

end Searches

end OpenSqlAny.SlotScanning
