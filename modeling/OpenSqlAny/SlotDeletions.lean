import Mathlib.Data.List.DropRight
import OpenSqlAny.SlotDirectories

namespace OpenSqlAny.SlotDeletions

open Library.LittleEndian PageStores SlottedPages SlotScanning SlotFreeSpace SlotDirectories

def betweenLive (slots : List Nat) : List Nat := (slots.dropWhile (· = 0)).rdropWhile (· = 0)

/-- Deleted slots lie between live ones, and only these are counted. -/
structure DeletedInterior (d : SlotDirectory) : Prop where
  between : ∀ i : Nat, d.slots[i]? = some 0 →
    (∃ j < i, ∃ w, d.slots[j]? = some w ∧ w ≠ 0) ∧ ∃ j > i, ∃ w, d.slots[j]? = some w ∧ w ≠ 0
  last_live : ∃ w, d.slots.getLast? = some w ∧ w ≠ 0
  counted : d.deletedCount = (betweenLive d.slots).count 0

section Slots

variable {slots : List Nat} {d : SlotDirectory}

theorem exists_trimmed (ws : List Nat) : ∃ xs k, ws = xs ++ List.replicate k 0 ∧ xs.getLast? ≠ some 0 := by
  induction ws using List.reverseRecOn with
  | nil => exact ⟨[], 0, rfl, by simp⟩
  | append_singleton ws w ih =>
      by_cases hw : w = 0
      · obtain ⟨xs, k, rfl, hlast⟩ := ih
        refine ⟨xs, k + 1, ?_, hlast⟩
        rw [hw, List.append_assoc, List.replicate_succ']
      · refine ⟨ws ++ [w], 0, by simp, ?_⟩
        rw [List.getLast?_append, List.getLast?_singleton]
        simpa using hw

theorem betweenLive_eq (hhead : slots.head? ≠ some 0) (hlast : slots.getLast? ≠ some 0) :
    betweenLive slots = slots := by
  have hfirst : slots.dropWhile (· = 0) = slots := by
    cases slots with
    | nil => rfl
    | cons w slots =>
        have hw : w ≠ 0 := by simpa using hhead
        rw [List.dropWhile_cons_of_neg (by simpa using hw)]
  rw [betweenLive, hfirst, List.rdropWhile_eq_self_iff]
  intro hne hzero
  apply hlast
  rw [List.getLast?_eq_getLast_of_ne_nil hne, of_decide_eq_true hzero]

theorem deletedCount_eq (d : SlotDirectory) : d.deletedCount = d.slots.count 0 := by
  have hsplit := d.slots.length_eq_countP_add_countP (· == 0)
  have hlive : d.liveCount = d.slots.countP (fun w => decide ¬(w == 0) = true) := by
    rw [SlotDirectory.liveCount, liveOf, List.countP_eq_length_filter]
    congr 2
    funext w
    simp
  rw [SlotDirectory.deletedCount, hlive, List.count_eq_countP]
  omega

theorem deletedInterior_iff_last (hne : d.slots ≠ []) (hhead : d.slots.head? ≠ some 0) :
    DeletedInterior d ↔ d.slots.getLast? ≠ some 0 := by
  have hpos := List.length_pos_of_ne_nil hne
  constructor
  · intro h hzero
    obtain ⟨w, hw, hlive⟩ := h.last_live
    rw [hw] at hzero
    exact hlive (Option.some.inj hzero)
  · intro hlast
    have hends : ∃ w, d.slots.getLast? = some w ∧ w ≠ 0 := by
      rw [List.getLast?_eq_getLast_of_ne_nil hne] at hlast ⊢
      exact ⟨_, rfl, fun hzero => hlast (congrArg some hzero)⟩
    refine ⟨?_, hends, ?_⟩
    · intro i hi
      obtain ⟨hin, -⟩ := List.getElem?_eq_some_iff.mp hi
      have hfirst : d.slots[0]? = some d.slots[0] := List.getElem?_eq_getElem hpos
      rw [List.head?_eq_getElem?] at hhead
      obtain ⟨w, hw, hlive⟩ := hends
      rw [List.getLast?_eq_getElem?] at hw hlast
      refine ⟨⟨0, ?_, d.slots[0], hfirst, ?_⟩, ⟨d.slots.length - 1, ?_, w, hw, hlive⟩⟩
      · apply Nat.pos_of_ne_zero
        rintro rfl
        exact hhead hi
      · intro hzero
        rw [hfirst, hzero] at hhead
        exact hhead rfl
      · have hother : i ≠ d.slots.length - 1 := by
          rintro rfl
          exact hlast hi
        omega
    · rw [deletedCount_eq, betweenLive_eq hhead hlast]

end Slots

structure PageArray where
  bigEndian : Bool
  first : Nat
  slots : List Nat
  zeros : Nat

def PageArray.words (a : PageArray) : List Nat := a.slots ++ List.replicate a.zeros 0

def PageArray.liveEnd (a : PageArray) : Nat := a.first + 2 * a.slots.length

def PageArray.directory (plain : Bytes) (a : PageArray) : SlotDirectory where
  scanStart := firstStart (readU16 a.bigEndian plain) a.first
  arrayStart := a.first
  endOffset := a.first + 2 * a.words.length
  slots := a.words
  leadingZero := decide (Sentinel (readU16 a.bigEndian plain) a.first)
  bigEndian := a.bigEndian

/-- The page holds an array up to its last live slot, and this many zero words before the scan ends. -/
structure OnPage (plain : Bytes) (a : PageArray) : Prop where
  last_live : a.slots.getLast? ≠ some 0
  array : SlotArray (readU16 a.bigEndian plain) a.first a.words
  ended : Ended (readU16 a.bigEndian plain) a.first a.words

/-- The word right behind the last live slot is zero, and a scan can reach it. -/
def ZeroBehind (plain : Bytes) (a : PageArray) : Prop :=
  a.liveEnd + 1 < searchLimit ∧ readU16 a.bigEndian plain a.liveEnd = 0

/-- More live slots, or as many and more words, or as many of both and tried earlier. -/
def Outranks (plain : Bytes) (b a : PageArray) : Prop :=
  rank (a.directory plain) < rank (b.directory plain) ∨
    rank (a.directory plain) = rank (b.directory plain) ∧
      turn (b.directory plain).scanStart b.bigEndian < turn (a.directory plain).scanStart a.bigEndian

section Arrays

variable {plain : Bytes} {a : PageArray} {d : SlotDirectory} {start : Nat} {bigEndian : Bool}

theorem zeros_pos_iff (h : OnPage plain a) : 0 < a.zeros ↔ ZeroBehind plain a := by
  have hlength : a.words.length = a.slots.length + a.zeros := by
    rw [PageArray.words, List.length_append, List.length_replicate]
  constructor
  · intro hpos
    have hfits := h.array.fits
    have hin : a.slots.length < a.words.length := by omega
    have hword := h.array.words a.slots.length hin
    have hzero : a.words[a.slots.length] = 0 := by
      simp only [PageArray.words]
      rw [List.getElem_append_right (Nat.le_refl _), List.getElem_replicate]
    refine ⟨?_, ?_⟩
    · rw [PageArray.liveEnd]
      omega
    · rw [PageArray.liveEnd, ← hword, hzero]
  · rintro ⟨hin, hzero⟩
    by_contra hnone
    have hsame : a.words.length = a.slots.length := by omega
    have hended := h.ended
    rw [Ended, hsame] at hended
    exact (hended hin).1 hzero

theorem describes_directory (h : OnPage plain a) :
    Describes plain (a.directory plain).scanStart a.bigEndian (a.directory plain) :=
  describes_firstStart h.array h.ended

theorem scanStart_lt (h : OnPage plain a) : (a.directory plain).scanStart < searchLimit :=
  Nat.lt_of_le_of_lt firstStart_le (array_lt_searchLimit h.array)

theorem exists_onPage (h : Describes plain start bigEndian d) :
    ∃ a, OnPage plain a ∧ a.bigEndian = bigEndian ∧ a.first = d.arrayStart ∧ a.words = d.slots := by
  obtain ⟨slots, zeros, hsplit, hlast⟩ := exists_trimmed d.slots
  have harray := h.array
  have hended := h.ended
  rw [hsplit] at harray hended
  exact ⟨⟨bigEndian, d.arrayStart, slots, zeros⟩, ⟨hlast, harray, hended⟩, rfl, rfl, hsplit.symm⟩

theorem rank_directory (h : a.words = d.slots) : rank (a.directory plain) = rank d := by
  have hslots : (a.directory plain).slots = d.slots := h
  rw [rank, rank, SlotDirectory.liveCount, SlotDirectory.liveCount, hslots]

theorem turn_le {s t : Nat} (h : s ≤ t) (bigEndian : Bool) : turn s bigEndian ≤ turn t bigEndian := by
  rw [turn, turn, Prod.Lex.toLex_le_toLex]
  rcases Nat.lt_or_eq_of_le h with hlt | rfl
  · exact .inl hlt
  · exact .inr ⟨rfl, le_refl bigEndian⟩

/-- The search finds an array exactly when no other array of the page outranks it. -/
theorem preferred_directory_iff (h : OnPage plain a) :
    Preferred plain (a.directory plain) ↔ ∀ b, OnPage plain b → ¬Outranks plain b a := by
  constructor
  · intro hpreferred b hb houtranks
    have hle := hpreferred.highest _ _ _ (scanStart_lt hb) (describes_directory hb)
    rcases houtranks with hhigher | ⟨hequal, hearlier⟩
    · exact absurd hle hhigher.not_ge
    · have hlt := hpreferred.first _ _ _ (scanStart_lt hb) (describes_directory hb) hearlier
      exact absurd hequal hlt.ne'
  · intro hunbeaten
    have hhighest : ∀ start bigEndian c, start < searchLimit → Describes plain start bigEndian c →
        rank c ≤ rank (a.directory plain) := by
      intro start bigEndian c _ hc
      obtain ⟨b, hb, -, -, hwords⟩ := exists_onPage hc
      rw [← rank_directory hwords]
      exact le_of_not_gt fun hhigher => hunbeaten b hb (.inl hhigher)
    refine ⟨scanStart_lt h, describes_directory h, hhighest, ?_⟩
    intro start bigEndian c hstart hc hearlier
    refine lt_of_le_of_ne (hhighest start bigEndian c hstart hc) ?_
    intro hequal
    obtain ⟨b, hb, rfl, hfirst, hwords⟩ := exists_onPage hc
    have hstarts : (b.directory plain).scanStart ≤ start := by
      have hle := firstStart_le_start hc
      rwa [← hfirst] at hle
    refine hunbeaten b hb (.inr ⟨?_, lt_of_le_of_lt (turn_le hstarts b.bigEndian) hearlier⟩)
    rw [rank_directory hwords, hequal]

theorem eq_directory_of_preferred (h : Preferred plain d) : ∃ a, OnPage plain a ∧ d = a.directory plain := by
  obtain ⟨a, ha, horder, hfirst, hwords⟩ := exists_onPage h.described
  refine ⟨a, ha, ?_⟩
  have hlead : d.leadingZero = decide (Sentinel (readU16 d.bigEndian plain) d.arrayStart) := by
    rw [Bool.eq_iff_iff, decide_eq_true_eq, h.leadingZero_iff]
  have hstart := h.scanStart_eq
  have hend := h.described.endOffset
  obtain ⟨scanStart, arrayStart, endOffset, slots, leadingZero, bigEndian⟩ := d
  simp only at horder hfirst hwords hlead hstart hend
  rw [PageArray.directory, horder, hfirst, hwords, hstart, hlead, hend]

theorem deletedInterior_directory (h : OnPage plain a) :
    DeletedInterior (a.directory plain) ↔ ¬ZeroBehind plain a := by
  rw [← zeros_pos_iff h, deletedInterior_iff_last h.array.ne_nil h.array.head_live]
  change a.words.getLast? ≠ some 0 ↔ _
  rw [PageArray.words, List.getLast?_append, List.getLast?_replicate]
  by_cases hzeros : a.zeros = 0
  · rw [if_pos hzeros, Option.none_or]
    simp [hzeros, h.last_live]
  · rw [if_neg hzeros, Option.some_or]
    have hpos : 0 < a.zeros := Nat.pos_of_ne_zero hzeros
    simp [hpos]

end Arrays

/-- The slots that count as deleted are the interior ones exactly when every array of the page with a
zero word right behind it is outranked by another. -/
theorem parse_deletedInterior_iff (page : Page) :
    (∀ d, (SlottedPage.parse page).directory = some d → DeletedInterior d) ↔
      ∀ a, OnPage page.bytes a → ZeroBehind page.bytes a → ∃ b, OnPage page.bytes b ∧ Outranks page.bytes b a := by
  rw [SlottedPage.parse_directory]
  constructor
  · intro h a ha hzero
    by_contra hnone
    have hpreferred := (preferred_directory_iff ha).mpr fun b hb hout => hnone ⟨b, hb, hout⟩
    exact (deletedInterior_directory ha).mp (h _ (findSlotDirectory_eq_some_iff.mpr hpreferred)) hzero
  · intro h d hd
    have hpreferred := findSlotDirectory_eq_some_iff.mp hd
    obtain ⟨a, ha, rfl⟩ := eq_directory_of_preferred hpreferred
    rw [deletedInterior_directory ha]
    intro hzero
    obtain ⟨b, hb, hout⟩ := h a ha hzero
    exact (preferred_directory_iff ha).mp hpreferred b hb hout

section FreeSpace

def rowSlotBytes : Bytes := [0xE0, 0x0F, 0xF8, 0x0E, 0, 0x0E, 0, 0x0D, 0, 0x0C, 0, 0x0B, 0, 0x0A, 0, 0x09]

def freeSpaceBytes : Bytes := rowSlotBytes ++ (List.replicate 0x8F0 0 ++ List.replicate 0x700 1)

theorem length_freeSpaceBytes : freeSpaceBytes.length = pageSize := by
  rw [freeSpaceBytes, List.length_append, List.length_append, List.length_replicate, List.length_replicate]
  rfl

theorem freeSpace_zero {bigEndian : Bool} {pos : Nat} (hlow : 16 ≤ pos) (hhigh : pos + 1 < searchLimit) :
    readU16 bigEndian freeSpaceBytes pos = 0 := by
  have hbytes : ∀ i, 16 ≤ i → i < searchLimit → freeSpaceBytes.getD i 0 = 0 := by
    intro i hi hlt
    have hin : i - 16 < 0x8F0 := by
      simp only [searchLimit] at hlt
      omega
    rw [freeSpaceBytes, List.getD_eq_getElem?_getD, List.getElem?_append_right hi,
      List.getElem?_append_left (by rwa [List.length_replicate]), List.getElem?_replicate]
    split <;> rfl
  exact readU16_zero (hbytes pos hlow (by omega)) (hbytes (pos + 1) (by omega) hhigh)

theorem freeSpace_start {bigEndian : Bool} {first : Nat} {ws : List Nat}
    (h : SlotArray (readU16 bigEndian freeSpaceBytes) first ws) : first = 0 := by
  have hfits := h.fits
  have hslot := h.first_slot
  by_contra hfirst
  by_cases hone : first = 1
  · subst hone
    cases bigEndian with
    | false => exact absurd hslot (by decide)
    | true => exact absurd hslot (by decide)
  · have hfew : (liveOf ws).length ≤ 7 := by
      apply length_liveOf_le
      intro i hi hin
      rw [h.words i hin, freeSpace_zero (by omega) (by omega)]
    have henough : 8 ≤ (liveOf ws).length := h.enough
    omega

def rowSlots : List Nat := [0xFE0, 0xEF8, 0xE00, 0xD00, 0xC00, 0xB00, 0xA00, 0x900]

theorem length_rowSlots (k : Nat) : (rowSlots ++ List.replicate k 0).length = 8 + k := by
  rw [List.length_append, List.length_replicate]
  rfl

theorem freeSpaceArray :
    SlotArray (readU16 false freeSpaceBytes) 0 (rowSlots ++ List.replicate 376 0) := by
  have hslots : ∀ i (h : i < rowSlots.length), rowSlots[i] = readU16 false freeSpaceBytes (0 + 2 * i) := by decide
  have hclear : ∀ w ∈ liveOf rowSlots, searchLimit ≤ w := by decide
  refine ⟨?_, ?_, by decide, ?_, ?_, ?_, ?_⟩
  · intro i hi
    rw [length_rowSlots] at hi
    by_cases hin : i < rowSlots.length
    · rw [List.getElem_append_left hin]
      exact hslots i hin
    · have hlow : 8 ≤ i := Nat.le_of_not_lt hin
      rw [List.getElem_append_right (Nat.le_of_not_lt hin), List.getElem_replicate, freeSpace_zero]
      · omega
      · simp only [searchLimit]
        omega
  · rw [length_rowSlots]
    rfl
  · rw [liveOf_append_zeros]
    decide
  · rw [liveOf_append_zeros]
    decide
  · rw [liveOf_append_zeros]
    decide
  · rw [liveOf_append_zeros, length_rowSlots]
    exact hclear

/-- All words of the free space below the search limit count as deleted slots. -/
theorem parse_freeSpace_deleted :
    ∃ d, (SlottedPage.parse ⟨0, freeSpaceBytes, length_freeSpaceBytes⟩).directory = some d ∧
      ¬DeletedInterior d := by
  have hlimit : Ended (readU16 false freeSpaceBytes) 0 (rowSlots ++ List.replicate 376 0) := by
    intro hin
    rw [length_rowSlots] at hin
    exact absurd hin (by decide)
  obtain ⟨d, hd, -⟩ := findSlotDirectory_of_array freeSpaceArray hlimit
  refine ⟨d, by rw [SlottedPage.parse_directory, hd], ?_⟩
  have hdescribed := (findSlotDirectory_eq_some_iff.mp hd).described
  have harray := hdescribed.array
  have hended := hdescribed.ended
  have henough : 8 ≤ d.slots.length :=
    Nat.le_trans harray.enough (List.length_filter_le _ _)
  have hstart := freeSpace_start harray
  rw [hstart] at harray hended
  have hlong : 384 ≤ d.slots.length := by
    by_contra hshort
    have hin : 0 + 2 * d.slots.length + 1 < searchLimit := by
      simp only [searchLimit]
      omega
    exact (hended hin).1 (freeSpace_zero (by omega) hin)
  have hfits : 0 + 2 * d.slots.length ≤ 0x300 := harray.fits
  have hlast : d.slots.length - 1 < d.slots.length := by omega
  intro hinterior
  apply (deletedInterior_iff_last harray.ne_nil harray.head_live).mp hinterior
  rw [List.getLast?_eq_getElem?, List.getElem?_eq_getElem hlast, harray.words _ hlast, freeSpace_zero]
  · omega
  · simp only [searchLimit]
    omega

end FreeSpace

end OpenSqlAny.SlotDeletions
