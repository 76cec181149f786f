import OpenSqlAny.SlotFreeSpace

namespace OpenSqlAny.SlotDirectories

open Library.LittleEndian Library.RankedSearch PageStores SlottedPages SlotScanning SlotFreeSpace

/-- Lower starts are tried first, and little-endian before big-endian. -/
def turn (start : Nat) (bigEndian : Bool) : ℕ ×ₗ Bool := toLex (start, bigEndian)

section Attempts

theorem attempts_ascending : attempts.Pairwise (fun a b => turn a.1 a.2 < turn b.1 b.2) := by
  rw [attempts, List.pairwise_flatMap]
  constructor
  · intro start _
    simp [turn, Prod.Lex.toLex_lt_toLex]
  · refine List.pairwise_lt_range.imp ?_
    intro s t hlt a ha b hb
    have hs : a.1 = s := by
      simp only [List.mem_cons, List.not_mem_nil, or_false] at ha
      rcases ha with rfl | rfl <;> rfl
    have ht : b.1 = t := by
      simp only [List.mem_cons, List.not_mem_nil, or_false] at hb
      rcases hb with rfl | rfl <;> rfl
    rw [turn, turn, Prod.Lex.toLex_lt_toLex, hs, ht]
    exact .inl hlt

theorem mem_before_iff {before after : List (Nat × Bool)} {a b : Nat × Bool}
    (h : attempts = before ++ a :: after) : b ∈ before ↔ b ∈ attempts ∧ turn b.1 b.2 < turn a.1 a.2 := by
  have hascending := attempts_ascending
  rw [h, List.pairwise_append, List.pairwise_cons] at hascending
  obtain ⟨-, ⟨hafter, -⟩, hbefore⟩ := hascending
  rw [h]
  constructor
  · intro hb
    exact ⟨List.mem_append_left _ hb, hbefore b hb a List.mem_cons_self⟩
  · rintro ⟨hmem, hlt⟩
    rcases List.mem_append.mp hmem with hb | hb
    · exact hb
    · rcases List.mem_cons.mp hb with rfl | hb
      · exact absurd hlt (lt_irrefl _)
      · exact absurd hlt (hafter b hb).not_gt

end Attempts

section Preferences

variable {plain : Bytes} {d : SlotDirectory}

/-- The directory of a page: no other ranks above it, and those that rank like it are tried later. -/
structure Preferred (plain : Bytes) (d : SlotDirectory) : Prop where
  tried : d.scanStart < searchLimit
  described : Describes plain d.scanStart d.bigEndian d
  highest : ∀ start bigEndian c, start < searchLimit → Describes plain start bigEndian c → rank c ≤ rank d
  first : ∀ start bigEndian c, start < searchLimit → Describes plain start bigEndian c →
    turn start bigEndian < turn d.scanStart d.bigEndian → rank c < rank d

theorem findSlotDirectory_eq_some_iff : findSlotDirectory plain = some d ↔ Preferred plain d := by
  rw [findSlotDirectory_eq_search, search_eq_some_iff]
  constructor
  · rintro ⟨⟨before, ⟨start, bigEndian⟩, after, hsplit, hscan, hbefore⟩, hhighest⟩
    have hmem : (start, bigEndian) ∈ attempts := hsplit ▸ List.mem_append_right _ List.mem_cons_self
    have hdescribes := scanFrom_describes hscan
    obtain rfl := hdescribes.scanStart
    obtain rfl := hdescribes.byteOrder
    refine ⟨mem_attempts_iff.mp hmem, hdescribes, ?_, ?_⟩
    · intro start bigEndian c hstart hc
      exact hhighest (start, bigEndian) (mem_attempts_iff.mpr hstart) c hc.scanFrom
    · intro start bigEndian c hstart hc hturn
      have hearlier := (mem_before_iff (b := (start, bigEndian)) hsplit).mpr ⟨mem_attempts_iff.mpr hstart, hturn⟩
      exact hbefore _ hearlier c hc.scanFrom
  · intro h
    obtain ⟨before, after, hsplit⟩ := List.append_of_mem (mem_attempts_iff.mpr h.tried)
    refine ⟨⟨before, (d.scanStart, d.bigEndian), after, hsplit, h.described.scanFrom, ?_⟩, ?_⟩
    · rintro ⟨start, bigEndian⟩ hb c hc
      obtain ⟨hmem, hturn⟩ := (mem_before_iff hsplit).mp hb
      exact h.first start bigEndian c (mem_attempts_iff.mp hmem) (scanFrom_describes hc) hturn
    · rintro ⟨start, bigEndian⟩ hmem c hc
      exact h.highest start bigEndian c (mem_attempts_iff.mp hmem) (scanFrom_describes hc)

def Sentinel (read : Nat → Nat) (first : Nat) : Prop := 2 ≤ first ∧ read (first - 2) = 0

instance (read : Nat → Nat) (first : Nat) : Decidable (Sentinel read first) :=
  inferInstanceAs (Decidable (_ ∧ _))

/-- The first start whose scan reads the array. -/
def firstStart (read : Nat → Nat) (first : Nat) : Nat := if Sentinel read first then first - 2 else first

variable {bigEndian : Bool} {start first : Nat} {ws : List Nat}

theorem describes_firstStart (h : SlotArray (readU16 bigEndian plain) first ws)
    (hended : Ended (readU16 bigEndian plain) first ws) :
    Describes plain (firstStart (readU16 bigEndian plain) first) bigEndian
      ⟨firstStart (readU16 bigEndian plain) first, first, first + 2 * ws.length, ws,
        decide (Sentinel (readU16 bigEndian plain) first), bigEndian⟩ := by
  have hfits := h.fits
  have hpos := List.length_pos_of_ne_nil h.ne_nil
  by_cases hsentinel : Sentinel (readU16 bigEndian plain) first
  · have hstart : firstStart (readU16 bigEndian plain) first = first - 2 := if_pos hsentinel
    have hback : first - 2 + 2 = first := Nat.sub_add_cancel hsentinel.1
    have hlead : hasLeadingZero (readU16 bigEndian plain) (first - 2) := by
      refine ⟨by omega, hsentinel.2, ?_⟩
      rw [hback]
      exact h.first_slot
    rw [hstart]
    refine ⟨rfl, rfl, ?_, ?_, rfl, h, hended⟩
    · simp only [hsentinel, hlead]
    · simp only [hsentinel, decide_true, if_true, hback]
  · have hstart : firstStart (readU16 bigEndian plain) first = first := if_neg hsentinel
    have hnolead : ¬hasLeadingZero (readU16 bigEndian plain) first :=
      fun hlead => isSlotOffset_ne_zero h.first_slot hlead.2.1
    rw [hstart]
    refine ⟨rfl, rfl, ?_, ?_, rfl, h, hended⟩
    · simp only [hsentinel, hnolead]
    · simp only [hsentinel, decide_false, Bool.false_eq_true, if_false]

theorem firstStart_le_start (h : Describes plain start bigEndian d) :
    firstStart (readU16 bigEndian plain) d.arrayStart ≤ start := by
  have harray := h.arrayStart
  have hlead := h.leadingZero
  cases hzero : d.leadingZero with
  | false =>
      rw [hzero, if_neg Bool.false_ne_true] at harray
      rw [firstStart, harray]
      split <;> omega
  | true =>
      rw [hzero, if_pos rfl] at harray
      rw [hzero, eq_comm, decide_eq_true_eq] at hlead
      have hsentinel : Sentinel (readU16 bigEndian plain) d.arrayStart := by
        rw [harray]
        exact ⟨Nat.le_add_left 2 start, hlead.2.1⟩
      rw [firstStart, if_pos hsentinel]
      omega

theorem array_lt_searchLimit {read : Nat → Nat} (h : SlotArray read first ws) : first < searchLimit := by
  have hfits := h.fits
  have hpos := List.length_pos_of_ne_nil h.ne_nil
  omega

theorem firstStart_le {read : Nat → Nat} : firstStart read first ≤ first := by
  rw [firstStart]
  split <;> omega

/-- The scan without the sentinel comes later and ranks no higher, so the search keeps the one with it. -/
theorem Preferred.scanStart_eq (h : Preferred plain d) :
    d.scanStart = firstStart (readU16 d.bigEndian plain) d.arrayStart := by
  have hle := firstStart_le_start h.described
  by_contra hne
  have hlt : firstStart (readU16 d.bigEndian plain) d.arrayStart < d.scanStart := by omega
  have htried := h.tried
  have hrank := h.first _ _ _ (by omega) (describes_firstStart h.described.array h.described.ended)
    (by rw [turn, turn, Prod.Lex.toLex_lt_toLex]; exact .inl hlt)
  exact absurd hrank (lt_irrefl _)

theorem Preferred.leadingZero_iff (h : Preferred plain d) :
    d.leadingZero = true ↔ Sentinel (readU16 d.bigEndian plain) d.arrayStart := by
  have harray := h.described.arrayStart
  have hstart := h.scanStart_eq
  rw [firstStart] at hstart
  cases hzero : d.leadingZero with
  | false =>
      rw [hzero, if_neg Bool.false_ne_true] at harray
      constructor
      · intro hfalse
        cases hfalse
      · intro hsentinel
        have hlow := hsentinel.1
        rw [if_pos hsentinel] at hstart
        omega
  | true =>
      rw [hzero, if_pos rfl] at harray
      refine ⟨fun _ => ?_, fun _ => rfl⟩
      by_contra hnone
      rw [if_neg hnone] at hstart
      omega

end Preferences

section Optimum

variable {plain : Bytes} {c d : SlotDirectory}

/-- The best scan of a page: most live slots, then most slots, then the lowest start, then little-endian. -/
structure BestScan (plain : Bytes) (d : SlotDirectory) : Prop where
  tried : d.scanStart < 0x300
  scanned : scanFrom plain d.scanStart d.bigEndian = some d
  most_live : ∀ start bigEndian c, start < 0x300 → scanFrom plain start bigEndian = some c →
    c.liveCount ≤ d.liveCount
  most_slots : ∀ start bigEndian c, start < 0x300 → scanFrom plain start bigEndian = some c →
    c.liveCount = d.liveCount → c.slots.length ≤ d.slots.length
  lowest_start : ∀ start bigEndian c, start < 0x300 → scanFrom plain start bigEndian = some c →
    c.liveCount = d.liveCount → c.slots.length = d.slots.length → d.scanStart ≤ start
  little_endian : ∀ c, scanFrom plain d.scanStart false = some c →
    c.liveCount = d.liveCount → c.slots.length = d.slots.length → d.bigEndian = false

theorem rank_le_iff : rank c ≤ rank d ↔
    c.liveCount < d.liveCount ∨ c.liveCount = d.liveCount ∧ c.slots.length ≤ d.slots.length := by
  rw [rank, rank, Prod.Lex.toLex_le_toLex]

theorem rank_eq_iff : rank c = rank d ↔ c.liveCount = d.liveCount ∧ c.slots.length = d.slots.length := by
  rw [rank, rank, toLex_inj, Prod.mk.injEq]

theorem Preferred.bestScan (h : Preferred plain d) : BestScan plain d := by
  have hhighest (start : Nat) (bigEndian : Bool) (c : SlotDirectory) (hstart : start < 0x300)
      (hc : scanFrom plain start bigEndian = some c) := h.highest start bigEndian c hstart (scanFrom_describes hc)
  have hfirst (start : Nat) (bigEndian : Bool) (c : SlotDirectory) (hstart : start < 0x300)
      (hc : scanFrom plain start bigEndian = some c) (hrank : rank c = rank d) :
      ¬turn start bigEndian < turn d.scanStart d.bigEndian :=
    fun hturn => (h.first start bigEndian c hstart (scanFrom_describes hc) hturn).ne hrank
  constructor
  · exact h.tried
  · exact h.described.scanFrom
  · intro start bigEndian c hstart hc
    exact liveCount_le_of_rank_le (hhighest start bigEndian c hstart hc)
  · intro start bigEndian c hstart hc hlive
    rcases rank_le_iff.mp (hhighest start bigEndian c hstart hc) with hless | ⟨-, hslots⟩
    · exact absurd hlive hless.ne
    · exact hslots
  · intro start bigEndian c hstart hc hlive hslots
    by_contra hlower
    apply hfirst start bigEndian c hstart hc (rank_eq_iff.mpr ⟨hlive, hslots⟩)
    rw [turn, turn, Prod.Lex.toLex_lt_toLex]
    exact .inl (Nat.not_le.mp hlower)
  · intro c hc hlive hslots
    cases hbig : d.bigEndian with
    | false => rfl
    | true =>
        have hturn := hfirst d.scanStart false c h.tried hc (rank_eq_iff.mpr ⟨hlive, hslots⟩)
        rw [hbig, turn, turn, Prod.Lex.toLex_lt_toLex] at hturn
        exact absurd (.inr ⟨rfl, Bool.false_lt_true⟩) hturn

theorem BestScan.rank_le (h : BestScan plain d) {start : Nat} {bigEndian : Bool} (hstart : start < 0x300)
    (hc : scanFrom plain start bigEndian = some c) : rank c ≤ rank d := by
  rw [rank_le_iff]
  rcases Nat.lt_or_eq_of_le (h.most_live start bigEndian c hstart hc) with hless | hlive
  · exact .inl hless
  · exact .inr ⟨hlive, h.most_slots start bigEndian c hstart hc hlive⟩

theorem BestScan.preferred (h : BestScan plain d) : Preferred plain d := by
  constructor
  · exact h.tried
  · exact scanFrom_describes h.scanned
  · intro start bigEndian c hstart hc
    exact h.rank_le hstart hc.scanFrom
  · intro start bigEndian c hstart hc hturn
    refine lt_of_le_of_ne (h.rank_le hstart hc.scanFrom) ?_
    intro hrank
    obtain ⟨hlive, hslots⟩ := rank_eq_iff.mp hrank
    rw [turn, turn, Prod.Lex.toLex_lt_toLex] at hturn
    rcases hturn with hlower | ⟨hsame, horder⟩
    · exact absurd (h.lowest_start start bigEndian c hstart hc.scanFrom hlive hslots) (Nat.not_le.mpr hlower)
    · obtain rfl : start = d.scanStart := hsame
      obtain ⟨hlittle, hbig⟩ := Bool.lt_iff.mp horder
      obtain rfl : bigEndian = false := hlittle
      rw [h.little_endian c hc.scanFrom hlive hslots] at hbig
      cases hbig

theorem preferred_iff_bestScan : Preferred plain d ↔ BestScan plain d :=
  ⟨Preferred.bestScan, BestScan.preferred⟩

/-- Parsing finds a directory exactly when some scan succeeds, and it is that of the best scan. -/
theorem parse_bestScan (page : Page) :
    ((SlottedPage.parse page).directory.isSome ↔
      ∃ start bigEndian, start < 0x300 ∧ (scanFrom page.bytes start bigEndian).isSome) ∧
    ∀ d, (SlottedPage.parse page).directory = some d ↔ BestScan page.bytes d := by
  rw [SlottedPage.parse_directory]
  refine ⟨?_, ?_⟩
  · rw [← not_iff_not, Option.not_isSome_iff_eq_none, findSlotDirectory_eq_search, search_eq_none_iff]
    constructor
    · intro hnone ⟨start, bigEndian, hstart, hfound⟩
      rw [hnone (start, bigEndian) (mem_attempts_iff.mpr hstart)] at hfound
      cases hfound
    · intro hnone ⟨start, bigEndian⟩ hmem
      rw [← Option.not_isSome_iff_eq_none]
      intro hfound
      exact hnone ⟨start, bigEndian, mem_attempts_iff.mp hmem, hfound⟩
  · intro d
    rw [findSlotDirectory_eq_some_iff, preferred_iff_bestScan]

end Optimum

/-- What a directory says of the page it was found in. -/
structure FaithfulTo (plain : Bytes) (d : SlotDirectory) : Prop where
  arrayStart : d.leadingZero = false ∧ d.arrayStart = d.scanStart ∨
    d.leadingZero = true ∧ d.arrayStart = d.scanStart + 2
  endOffset : d.endOffset = d.arrayStart + 2 * d.slots.length
  endOffset_le : d.endOffset ≤ 0x300
  words : ∀ i (h : i < d.slots.length), d.slots[i] = readU16 d.bigEndian plain (d.arrayStart + 2 * i)
  first_live : ∃ w, d.slots.head? = some w ∧ w ≠ 0
  descending : d.liveSlots.Pairwise (· > ·)
  offsets : ∀ w ∈ d.liveSlots, 0x20 ≤ w ∧ w < 0xFF0
  enough : 8 ≤ d.liveCount
  clear : ∃ least, d.minOffset = some least ∧ d.endOffset ≤ least
  leadingZero : d.leadingZero = true ↔
    2 ≤ d.arrayStart ∧ readU16 d.bigEndian plain (d.arrayStart - 2) = 0

/-- A directory that parsing finds describes its page, sentinel included. -/
theorem parse_faithful {page : Page} {d : SlotDirectory} (h : (SlottedPage.parse page).directory = some d) :
    FaithfulTo page.bytes d := by
  rw [SlottedPage.parse_directory, findSlotDirectory_eq_some_iff] at h
  have hdescribed := h.described
  have harray := hdescribed.array
  obtain ⟨least, hleast⟩ := harray.exists_min
  refine ⟨?_, hdescribed.endOffset, ?_, harray.words, ?_, harray.descending, harray.offsets, harray.enough,
    ⟨least, hleast, ?_⟩, h.leadingZero_iff⟩
  · have hstart := hdescribed.arrayStart
    cases hzero : d.leadingZero with
    | false => exact .inl ⟨rfl, by rwa [hzero] at hstart⟩
    | true => exact .inr ⟨rfl, by rwa [hzero] at hstart⟩
  · rw [hdescribed.endOffset]
    exact harray.fits
  · have hpos := List.length_pos_of_ne_nil harray.ne_nil
    refine ⟨d.slots[0], by rw [List.head?_eq_getElem?, List.getElem?_eq_getElem hpos], ?_⟩
    rw [harray.words 0 hpos]
    exact isSlotOffset_ne_zero harray.first_slot
  · rw [hdescribed.endOffset]
    exact harray.clear least (List.min?_eq_some_iff.mp hleast).1

theorem parse_faithful_stoppedRow :
    ∃ d, (SlottedPage.parse ⟨0, stoppedRowBytes, length_stoppedRowBytes⟩).directory = some d ∧
      FaithfulTo stoppedRowBytes d := by
  obtain ⟨k, harray, hended⟩ := exists_ended_of_stopsAtRow stoppedRowDirectory (fun _ => by decide)
  obtain ⟨d, hd, -⟩ := findSlotDirectory_of_array harray hended
  have hparsed : (SlottedPage.parse ⟨0, stoppedRowBytes, length_stoppedRowBytes⟩).directory = some d := by
    rw [SlottedPage.parse_directory, hd]
  exact ⟨d, hparsed, parse_faithful hparsed⟩

end OpenSqlAny.SlotDirectories
