import Mathlib.Data.List.GetD
import OpenSqlAny.SlotDirectories

namespace OpenSqlAny.WrittenDirectories

open Library.LittleEndian PageStores SlottedPages SlotScanning SlotFreeSpace SlotDirectories

/-- A little-endian array of row offsets among zeros, where the rows begin behind all that the search reads.
An array at offset 1 would leave no room for the zero word before it. -/
structure WrittenDirectory (plain : Bytes) (first : Nat) (offsets : List Nat) : Prop where
  zero_before : ∀ i < first, plain.getD i 0 = 0
  words : ∀ i (h : i < offsets.length), u16le plain (first + 2 * i) = offsets[i]
  zero_behind : ∀ i, first + 2 * offsets.length ≤ i → i < searchLimit → plain.getD i 0 = 0
  room : first + 2 * offsets.length + 2 ≤ searchLimit
  apart : first ≠ 1
  rows : ∀ off ∈ offsets, off = 0 ∨ searchLimit ≤ off ∧ off < trailerStart
  head_live : offsets.head? ≠ some 0
  last_live : offsets.getLast? ≠ some 0
  descending : (liveOf offsets).Pairwise (· > ·)
  enough : minLiveSlots ≤ (liveOf offsets).length

def slotsOf (first : Nat) (offsets : List Nat) : List Nat :=
  offsets ++ List.replicate ((searchLimit - (first + 2 * offsets.length)) / 2) 0

def directoryOf (first : Nat) (offsets : List Nat) : SlotDirectory :=
  ⟨first - 2, first, first + 2 * (slotsOf first offsets).length, slotsOf first offsets, decide (first ≠ 0), false⟩

section Counts

variable {ws offsets : List Nat}

theorem length_liveOf_take (h : ∀ i (hi : i < ws.length), ws[i] ≠ 0 → offsets.getD i 0 ≠ 0) :
    (liveOf ws).length ≤ (liveOf (offsets.take ws.length)).length := by
  induction ws generalizing offsets with
  | nil => exact Nat.zero_le _
  | cons w ws ih =>
      cases offsets with
      | nil =>
          have hzero : ∀ x ∈ w :: ws, x = 0 := by
            intro x hx
            obtain ⟨i, hi, rfl⟩ := List.mem_iff_getElem.mp hx
            by_contra hne
            exact h i hi hne rfl
          have hnone : liveOf (w :: ws) = [] := by
            rw [liveOf, List.filter_eq_nil_iff]
            intro x hx
            simpa using hzero x hx
          rw [hnone]
          exact Nat.zero_le _
      | cons off offsets =>
          have hrest := @ih offsets fun i hi hne => h (i + 1) (Nat.succ_lt_succ hi) hne
          rw [List.length_cons, List.take_succ_cons]
          by_cases hw : w = 0
          · rw [hw, liveOf_cons_zero]
            exact hrest.trans ((List.sublist_cons_self off _).filter _).length_le
          · have hoff : off ≠ 0 := h 0 (Nat.succ_pos _) hw
            rw [liveOf_cons_of_ne hw, liveOf_cons_of_ne hoff, List.length_cons, List.length_cons]
            exact Nat.succ_le_succ hrest

theorem length_liveOf_drop (m : Nat) : (liveOf (offsets.drop m)).length ≤ (liveOf offsets).length :=
  ((List.drop_sublist m offsets).filter _).length_le

theorem length_liveOf_le_of_shift {m : Nat}
    (h : ∀ i (hi : i < ws.length), ws[i] ≠ 0 → offsets.getD (m + i) 0 ≠ 0) :
    (liveOf ws).length ≤ (liveOf offsets).length := by
  have hshift : ∀ i (hi : i < ws.length), ws[i] ≠ 0 → (offsets.drop m).getD i 0 ≠ 0 := by
    intro i hi hne
    rw [List.getD_eq_getElem?_getD, List.getElem?_drop, ← List.getD_eq_getElem?_getD]
    exact h i hi hne
  calc (liveOf ws).length ≤ (liveOf ((offsets.drop m).take ws.length)).length := length_liveOf_take hshift
    _ ≤ (liveOf (offsets.drop m)).length := ((List.take_sublist _ _).filter _).length_le
    _ ≤ (liveOf offsets).length := length_liveOf_drop m

theorem length_liveOf_le_of_last {m : Nat} {last : Nat}
    (h : ∀ i (hi : i < ws.length), ws[i] ≠ 0 → offsets.getD (m + i) 0 ≠ 0)
    (hlast : last ≠ 0 → ∃ off ∈ offsets.drop (m + ws.length), off ≠ 0) :
    (liveOf (ws ++ [last])).length ≤ (liveOf offsets).length := by
  have hshift : ∀ i (hi : i < ws.length), ws[i] ≠ 0 → (offsets.drop m).getD i 0 ≠ 0 := by
    intro i hi hne
    rw [List.getD_eq_getElem?_getD, List.getElem?_drop, ← List.getD_eq_getElem?_getD]
    exact h i hi hne
  have hfront := length_liveOf_take hshift
  have hback : (liveOf [last]).length ≤ (liveOf ((offsets.drop m).drop ws.length)).length := by
    by_cases hzero : last = 0
    · rw [hzero]
      exact Nat.zero_le _
    · obtain ⟨off, hmem, hoff⟩ := hlast hzero
      rw [liveOf_cons_of_ne hzero, List.drop_drop]
      apply List.length_pos_of_mem (a := off)
      rw [liveOf, List.mem_filter]
      exact ⟨hmem, by simpa using hoff⟩
  have hsplit : liveOf (offsets.drop m) =
      liveOf ((offsets.drop m).take ws.length) ++ liveOf ((offsets.drop m).drop ws.length) := by
    rw [liveOf, liveOf, liveOf, ← List.filter_append, List.take_append_drop]
  have hwords : liveOf (ws ++ [last]) = liveOf ws ++ liveOf [last] := List.filter_append ..
  calc (liveOf (ws ++ [last])).length = (liveOf ws).length + (liveOf [last]).length := by
        rw [hwords, List.length_append]
    _ ≤ (liveOf (offsets.drop m)).length := by rw [hsplit, List.length_append]; exact Nat.add_le_add hfront hback
    _ ≤ (liveOf offsets).length := length_liveOf_drop m

theorem lower_of_live (h : (liveOf ws).Pairwise (· > ·)) {i j : Nat} (hij : i < j) (hj : j < ws.length)
    (hi0 : ws[i] ≠ 0) (hj0 : ws[j] ≠ 0) : ws[j] < ws[i] := by
  rw [liveOf, List.pairwise_filter, List.pairwise_iff_getElem] at h
  exact h i j (hij.trans hj) hj hij (by simpa using hi0) (by simpa using hj0)

end Counts

section Words

variable {plain : Bytes} {first i : Nat} {offsets : List Nat}

theorem low_byte (h : WrittenDirectory plain first offsets) (hi : first + 2 * i < searchLimit) :
    (plain.getD (first + 2 * i) 0).toNat = offsets.getD i 0 % 256 := by
  by_cases hin : i < offsets.length
  · have hword := h.words i hin
    have hbyte := (plain.getD (first + 2 * i) 0).toNat_lt
    have hentry : offsets.getD i 0 = offsets[i] := List.getD_eq_getElem _ _ hin
    rw [u16le] at hword
    omega
  · rw [h.zero_behind _ (by omega) hi, List.getD_eq_default _ _ (by omega)]
    rfl

theorem high_byte (h : WrittenDirectory plain first offsets) (hi : first + 2 * i + 1 < searchLimit) :
    (plain.getD (first + 2 * i + 1) 0).toNat = offsets.getD i 0 / 256 := by
  by_cases hin : i < offsets.length
  · have hword := h.words i hin
    have hbyte := (plain.getD (first + 2 * i) 0).toNat_lt
    have hentry : offsets.getD i 0 = offsets[i] := List.getD_eq_getElem _ _ hin
    rw [u16le] at hword
    omega
  · rw [h.zero_behind _ (by omega) hi, List.getD_eq_default _ _ (by omega)]
    rfl

theorem readU16_little (pos : Nat) :
    readU16 false plain pos = (plain.getD pos 0).toNat + 256 * (plain.getD (pos + 1) 0).toNat := rfl

theorem readU16_big (pos : Nat) :
    readU16 true plain pos = 256 * (plain.getD pos 0).toNat + (plain.getD (pos + 1) 0).toNat := rfl

theorem even_little (h : WrittenDirectory plain first offsets) (hi : first + 2 * i + 1 < searchLimit) :
    readU16 false plain (first + 2 * i) = offsets.getD i 0 := by
  rw [readU16_little, low_byte h (by omega), high_byte h hi]
  omega

theorem even_big (h : WrittenDirectory plain first offsets) (hi : first + 2 * i + 1 < searchLimit) :
    readU16 true plain (first + 2 * i) = 256 * (offsets.getD i 0 % 256) + offsets.getD i 0 / 256 := by
  rw [readU16_big, low_byte h (by omega), high_byte h hi]

theorem odd_little (h : WrittenDirectory plain first offsets) (hi : first + 2 * i + 2 < searchLimit) :
    readU16 false plain (first + 2 * i + 1) = offsets.getD i 0 / 256 + 256 * (offsets.getD (i + 1) 0 % 256) := by
  rw [readU16_little, high_byte h (by omega), ← low_byte h (i := i + 1) (by omega)]
  rfl

theorem odd_big (h : WrittenDirectory plain first offsets) (hi : first + 2 * i + 2 < searchLimit) :
    readU16 true plain (first + 2 * i + 1) = 256 * (offsets.getD i 0 / 256) + offsets.getD (i + 1) 0 % 256 := by
  rw [readU16_big, high_byte h (by omega), ← low_byte h (i := i + 1) (by omega)]
  rfl

theorem offset_bounds (h : WrittenDirectory plain first offsets) (i : Nat) :
    offsets.getD i 0 = 0 ∨ 768 ≤ offsets.getD i 0 ∧ offsets.getD i 0 < 4080 := by
  by_cases hin : i < offsets.length
  · rw [List.getD_eq_getElem?_getD, List.getElem?_eq_getElem hin, Option.getD_some]
    exact h.rows _ (List.getElem_mem hin)
  · exact .inl (List.getD_eq_default _ _ (by omega))

theorem offsets_ne_nil (h : WrittenDirectory plain first offsets) : offsets ≠ [] := by
  intro hnil
  have henough := h.enough
  rw [hnil] at henough
  exact absurd henough (by decide)

theorem first_offset (h : WrittenDirectory plain first offsets) : 768 ≤ offsets.getD 0 0 := by
  rcases offset_bounds h 0 with hzero | hlive
  · have hpos := List.length_pos_of_ne_nil (offsets_ne_nil h)
    have hhead := h.head_live
    rw [List.getD_eq_getElem?_getD, List.getElem?_eq_getElem hpos, Option.getD_some] at hzero
    rw [List.head?_eq_getElem?, List.getElem?_eq_getElem hpos, hzero] at hhead
    exact absurd rfl hhead
  · exact hlive.1

theorem last_offset (h : WrittenDirectory plain first offsets) : 768 ≤ offsets.getD (offsets.length - 1) 0 := by
  rcases offset_bounds h (offsets.length - 1) with hzero | hlive
  · have hpos := List.length_pos_of_ne_nil (offsets_ne_nil h)
    have hlast := h.last_live
    have hin : offsets.length - 1 < offsets.length := by omega
    rw [List.getD_eq_getElem?_getD, List.getElem?_eq_getElem hin, Option.getD_some] at hzero
    rw [List.getLast?_eq_getElem?, List.getElem?_eq_getElem hin, hzero] at hlast
    exact absurd rfl hlast
  · exact hlive.1

end Words

section Directories

variable {plain : Bytes} {first : Nat} {offsets : List Nat}

theorem length_slotsOf (h : WrittenDirectory plain first offsets) :
    (slotsOf first offsets).length = (searchLimit - first) / 2 := by
  have hroom := h.room
  rw [slotsOf, List.length_append, List.length_replicate]
  omega

theorem liveOf_slotsOf (first : Nat) (offsets : List Nat) : liveOf (slotsOf first offsets) = liveOf offsets :=
  liveOf_append_zeros offsets _

theorem getD_slotsOf (first : Nat) (offsets : List Nat) (i : Nat) :
    (slotsOf first offsets).getD i 0 = offsets.getD i 0 := by
  rw [slotsOf, List.getD_eq_getElem?_getD, List.getElem?_append]
  by_cases hin : i < offsets.length
  · rw [if_pos hin, List.getD_eq_getElem?_getD]
  · rw [if_neg hin, List.getD_eq_default _ _ (by omega), List.getElem?_replicate]
    split <;> rfl

theorem slotArray (h : WrittenDirectory plain first offsets) :
    SlotArray (readU16 false plain) first (slotsOf first offsets) := by
  have hroom := h.room
  have hlength := length_slotsOf h
  refine ⟨?_, by omega, ?_, ?_, ?_, ?_, ?_⟩
  · intro i hi
    rw [even_little h (by omega), ← getD_slotsOf first, List.getD_eq_getElem?_getD, List.getElem?_eq_getElem hi,
      Option.getD_some]
  · rw [slotsOf, List.head?_append_of_ne_nil _ (offsets_ne_nil h)]
    exact h.head_live
  · rw [liveOf_slotsOf]
    intro off hoff
    obtain ⟨hmem, hne⟩ := List.mem_filter.mp hoff
    rcases h.rows off hmem with hzero | ⟨hlow, hhigh⟩
    · exact absurd hzero (by simpa using hne)
    · exact ⟨(by decide : 0x20 ≤ 0x300).trans hlow, hhigh⟩
  · rw [liveOf_slotsOf]
    exact h.descending
  · rw [liveOf_slotsOf]
    exact h.enough
  · rw [liveOf_slotsOf]
    intro off hoff
    obtain ⟨hmem, hne⟩ := List.mem_filter.mp hoff
    rcases h.rows off hmem with hzero | ⟨hlow, -⟩
    · exact absurd hzero (by simpa using hne)
    · omega

/-- The zeros lead to the end of what the search reads, so nothing has to stop the scan. -/
theorem slotArray_ended (h : WrittenDirectory plain first offsets) :
    Ended (readU16 false plain) first (slotsOf first offsets) := by
  intro hin
  have hroom := h.room
  rw [length_slotsOf h] at hin
  omega

theorem sentinel_iff (h : WrittenDirectory plain first offsets) : Sentinel (readU16 false plain) first ↔ first ≠ 0 := by
  have hapart := h.apart
  constructor
  · intro hsentinel
    have hlow := hsentinel.1
    omega
  · intro hne
    refine ⟨by omega, ?_⟩
    rw [readU16_little, h.zero_before _ (by omega), h.zero_before _ (by omega)]
    rfl

theorem firstStart_eq (h : WrittenDirectory plain first offsets) :
    firstStart (readU16 false plain) first = first - 2 := by
  by_cases hne : first ≠ 0
  · exact if_pos ((sentinel_iff h).mpr hne)
  · rw [firstStart, if_neg fun hsentinel => hne ((sentinel_iff h).mp hsentinel)]
    omega

theorem describes_directoryOf (h : WrittenDirectory plain first offsets) :
    Describes plain (first - 2) false (directoryOf first offsets) := by
  have hdescribes := describes_firstStart (slotArray h) (slotArray_ended h)
  simp only [firstStart_eq h, sentinel_iff h] at hdescribes
  exact hdescribes

end Directories

section Scans

variable {plain : Bytes} {first : Nat} {offsets ws : List Nat} {bigEndian : Bool}

theorem liveOf_even (h : WrittenDirectory plain first offsets) {m : Nat}
    (hws : SlotArray (readU16 bigEndian plain) (first + 2 * m) ws) :
    (liveOf ws).length ≤ (liveOf offsets).length := by
  apply length_liveOf_le_of_shift (m := m)
  intro i hi hne hzero
  have hfits := hws.fits
  have hpos : first + 2 * m + 2 * i = first + 2 * (m + i) := by omega
  rw [hws.words i hi, hpos] at hne
  cases bigEndian with
  | false =>
      rw [even_little h (by omega)] at hne
      exact hne hzero
  | true =>
      rw [even_big h (by omega), hzero] at hne
      exact hne rfl

/-- Between the words of the array a little-endian scan takes the high byte of one and the low byte of the next,
and the high byte alone is no offset. -/
theorem liveOf_odd_little (h : WrittenDirectory plain first offsets) {m : Nat}
    (hws : SlotArray (readU16 false plain) (first + 2 * m + 1) ws) :
    (liveOf ws).length ≤ (liveOf offsets).length := by
  apply length_liveOf_le_of_shift (m := m + 1)
  intro i hi hne hzero
  have hfits := hws.fits
  have hpos : first + 2 * m + 1 + 2 * i = first + 2 * (m + i) + 1 := by omega
  have hnext : m + 1 + i = m + i + 1 := by omega
  have hslot := hws.offsets ws[i] (List.mem_filter.mpr ⟨List.getElem_mem hi, by simpa using hne⟩)
  have hbounds := offset_bounds h (m + i)
  rw [hnext] at hzero
  rw [hws.words i hi, hpos, odd_little h (by omega), hzero] at hslot
  have hlow : 0x20 ≤ offsets.getD (m + i) 0 / 256 + 256 * (0 % 256) := hslot.1
  omega

/-- A big-endian scan between the words takes the high byte of a slot with the low byte of the next one. Behind
a deleted slot the low byte stands alone, and the next word is higher. -/
theorem liveOf_odd_big (h : WrittenDirectory plain first offsets) {m : Nat}
    (hws : SlotArray (readU16 true plain) (first + 2 * m + 1) ws) :
    (liveOf ws).length ≤ (liveOf offsets).length := by
  have hfits := hws.fits
  have hword (i : Nat) (hi : i < ws.length) :
      ws[i] = 256 * (offsets.getD (m + i) 0 / 256) + offsets.getD (m + i + 1) 0 % 256 := by
    have hpos : first + 2 * m + 1 + 2 * i = first + 2 * (m + i) + 1 := by omega
    rw [hws.words i hi, hpos, odd_big h (by omega)]
  have hinner (i : Nat) (hi : i + 1 < ws.length) (hne : ws[i] ≠ 0) : offsets.getD (m + i) 0 ≠ 0 := by
    intro hzero
    have hthis := hword i (by omega)
    have hnext := hword (i + 1) hi
    have hbounds := offset_bounds h (m + i + 1)
    rw [hzero] at hthis
    rw [← Nat.add_assoc m i 1] at hnext
    have hstep : i < i + 1 := Nat.lt_succ_self i
    have hlower := lower_of_live hws.descending hstep hi hne (by omega)
    omega
  rcases List.eq_nil_or_concat ws with hnil | ⟨front, last, hconcat⟩
  · exact absurd hnil hws.ne_nil
  · rw [List.concat_eq_append] at hconcat
    subst hconcat
    have hlength : (front ++ [last]).length = front.length + 1 := List.length_append
    apply length_liveOf_le_of_last (m := m)
    · intro i hi hne
      have hsame : (front ++ [last])[i] = front[i] := List.getElem_append_left hi
      exact hinner i (by omega) (hsame ▸ hne)
    · intro hne
      have hthis := hword front.length (by omega)
      rw [List.getElem_concat_length rfl] at hthis
      have hlive (j : Nat) (hj : offsets.getD (m + front.length + j) 0 ≠ 0) :
          ∃ off ∈ offsets.drop (m + front.length), off ≠ 0 := by
        have hin : m + front.length + j < offsets.length := by
          by_contra hout
          exact hj (List.getD_eq_default _ _ (by omega))
        refine ⟨_, ?_, hj⟩
        rw [List.getD_eq_getElem?_getD, List.getElem?_eq_getElem hin, Option.getD_some, ← List.getElem_drop]
        · exact List.getElem_mem _
        · rw [List.length_drop]
          omega
      by_cases hzero : offsets.getD (m + front.length) 0 = 0
      · apply hlive 1
        intro hnext
        rw [hzero, hnext] at hthis
        exact hne hthis
      · exact hlive 0 hzero

/-- Whatever the byte order, no scan from the array on has more live slots. -/
theorem liveOf_behind (h : WrittenDirectory plain first offsets) {start : Nat}
    (hws : SlotArray (readU16 bigEndian plain) start ws) (hstart : first ≤ start) :
    (liveOf ws).length ≤ (liveOf offsets).length := by
  rcases Nat.even_or_odd' (start - first) with ⟨m, heven | hodd⟩
  · have hat : start = first + 2 * m := by omega
    rw [hat] at hws
    exact liveOf_even h hws
  · have hat : start = first + 2 * m + 1 := by omega
    rw [hat] at hws
    cases bigEndian with
    | false => exact liveOf_odd_little h hws
    | true => exact liveOf_odd_big h hws

theorem start_before (h : WrittenDirectory plain first offsets) {start : Nat}
    (hws : SlotArray (readU16 bigEndian plain) start ws) (hstart : start < first) : first = start + 1 := by
  by_contra hne
  apply isSlotOffset_ne_zero hws.first_slot
  exact readU16_zero (h.zero_before _ hstart) (h.zero_before _ (by omega))

theorem not_before_big (h : WrittenDirectory plain first offsets) {start : Nat} (hstart : start < first)
    (hws : SlotArray (readU16 true plain) start ws) : False := by
  obtain rfl := start_before h hws hstart
  have henough : 8 ≤ (liveOf ws).length := hws.enough
  have hlength : (liveOf ws).length ≤ ws.length := List.length_filter_le ..
  have hroom := h.room
  have hfits := hws.fits
  have hfirst := first_offset h
  have hlow := low_byte h (i := 0) (by omega)
  have hword : ws[0] = 256 * (plain.getD start 0).toNat + (plain.getD (start + 1) 0).toNat := hws.words 0 (by omega)
  rw [h.zero_before start (Nat.lt_succ_self start)] at hword
  rw [Nat.mul_zero, Nat.add_zero] at hlow
  rw [hlow] at hword
  have hnext : ws[1] = 256 * (offsets.getD 0 0 / 256) + offsets.getD 1 0 % 256 :=
    (hws.words 1 (by omega)).trans (odd_big h (i := 0) (by omega))
  have hlive : ws[0] ≠ 0 := by
    have hslot : ws[0] = readU16 true plain start := hws.words 0 (by omega)
    rw [hslot]
    exact isSlotOffset_ne_zero hws.first_slot
  have hlower := lower_of_live hws.descending Nat.zero_lt_one (by omega) hlive (by omega)
  have hzero : (0 : UInt8).toNat = 0 := rfl
  omega

theorem before_little (h : WrittenDirectory plain first offsets) {start : Nat} (hstart : start < first)
    (hws : SlotArray (readU16 false plain) start ws) :
    (liveOf ws).length ≤ (liveOf offsets).length ∧ ws.length ≤ offsets.length := by
  obtain rfl := start_before h hws hstart
  have hroom := h.room
  have hfits := hws.fits
  have hpos := List.length_pos_of_ne_nil (offsets_ne_nil h)
  have hword (i : Nat) (hi : i + 1 < ws.length) : ws[i + 1] =
      offsets.getD i 0 / 256 + 256 * (offsets.getD (i + 1) 0 % 256) := by
    have hat : start + 2 * (i + 1) = start + 1 + 2 * i + 1 := by omega
    rw [hws.words (i + 1) hi, hat, odd_little h (by omega)]
  have hslot (i : Nat) (hi : i < ws.length) (hne : ws[i] ≠ 0) : 0x20 ≤ ws[i] :=
    (hws.offsets ws[i] (List.mem_filter.mpr ⟨List.getElem_mem hi, by simpa using hne⟩)).1
  constructor
  · apply length_liveOf_le_of_shift (m := 0)
    intro i hi hne hzero
    rw [Nat.zero_add] at hzero
    cases i with
    | zero =>
        have hfirst := first_offset h
        omega
    | succ i =>
        have hlow := hslot (i + 1) hi hne
        have hbounds := offset_bounds h i
        rw [hword i hi, hzero] at hlow
        omega
  · by_contra hlonger
    have hin : offsets.length - 1 + 1 < ws.length := by omega
    have hlast := last_offset h
    have hbounds := offset_bounds h (offsets.length - 1)
    have hend : offsets.getD (offsets.length - 1 + 1) 0 = 0 := List.getD_eq_default _ _ (by omega)
    have hthis := hword (offsets.length - 1) hin
    rw [hend] at hthis
    have hlow := hslot (offsets.length - 1 + 1) hin (by omega)
    omega

end Scans

/-- The search finds a written directory, with the zero words behind it as deleted slots. -/
theorem findSlotDirectory_written {plain : Bytes} {first : Nat} {offsets : List Nat}
    (h : WrittenDirectory plain first offsets) : findSlotDirectory plain = some (directoryOf first offsets) := by
  have hroom := h.room
  have hapart := h.apart
  have hlength := length_slotsOf h
  have hlive : (directoryOf first offsets).liveCount = (liveOf offsets).length :=
    congrArg List.length (liveOf_slotsOf first offsets)
  have hslots : (directoryOf first offsets).slots.length = (searchLimit - first) / 2 := hlength
  have hranks {start : Nat} {bigEndian : Bool} {c : SlotDirectory} (hc : Describes plain start bigEndian c) :
      rank c ≤ rank (directoryOf first offsets) ∧
        (start < first - 2 → rank c < rank (directoryOf first offsets)) := by
    have harray := hc.array
    have hfits := harray.fits
    rw [rank, rank, Prod.Lex.toLex_le_toLex, Prod.Lex.toLex_lt_toLex, hlive, hslots]
    by_cases hbefore : c.arrayStart < first
    · cases bigEndian with
      | true => exact (not_before_big h hbefore harray).elim
      | false =>
          obtain ⟨hless, hshorter⟩ := before_little h hbefore harray
          have hfewer : c.slots.length < (searchLimit - first) / 2 := by omega
          rcases Nat.lt_or_eq_of_le hless with hlt | heq
          · exact ⟨.inl hlt, fun _ => .inl hlt⟩
          · exact ⟨.inr ⟨heq, hfewer.le⟩, fun _ => .inr ⟨heq, hfewer⟩⟩
    · have hless := liveOf_behind h harray (Nat.le_of_not_lt hbefore)
      have hlater : first - 2 ≤ start := by
        have hstart := firstStart_le_start hc
        rw [firstStart] at hstart
        split at hstart <;> omega
      refine ⟨?_, fun hearlier => absurd hearlier (Nat.not_lt.mpr hlater)⟩
      rcases Nat.lt_or_eq_of_le hless with hlt | heq
      · exact .inl hlt
      · exact .inr ⟨heq, by simp only; omega⟩
  rw [findSlotDirectory_eq_some_iff]
  refine ⟨?_, describes_directoryOf h, fun start bigEndian c _ hc => (hranks hc).1, ?_⟩
  · change first - 2 < searchLimit
    omega
  · intro start bigEndian c _ hc hturn
    apply (hranks hc).2
    rw [turn, turn, Prod.Lex.toLex_lt_toLex] at hturn
    rcases hturn with hlower | ⟨-, horder⟩
    · exact hlower
    · exact absurd (Bool.lt_iff.mp horder).2 Bool.false_ne_true

end OpenSqlAny.WrittenDirectories
