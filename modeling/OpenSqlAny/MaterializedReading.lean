import OpenSqlAny.MaterializedPages

namespace OpenSqlAny.MaterializedReading

open Library.Faults Library.LittleEndian RowSegments MaterializedPages MaterializedTablePage

def recordCountOf (bytes : Bytes) : Nat := wordAt bytes recordCountOffset

def directoryStop (bytes : Bytes) : Nat := directoryOffset + 2 * recordCountOf bytes

/-- The directory word of a record, which is zero for a record that is not there. -/
def entryAt (bytes : Bytes) (recordId : Nat) : Nat := wordAt bytes (directoryOffset + 2 * recordId)

/-- A row that starts after the directory and whose own length keeps it inside the page. -/
structure RowFits (bytes : Bytes) (start : Nat) : Prop where
  after : directoryStop bytes ≤ start
  header : start ≤ 4094
  longEnough : 2 ≤ wordAt bytes start
  inside : wordAt bytes start ≤ 4096 - start

structure WellFormed (bytes : Bytes) : Prop where
  length : bytes.length = 4096
  pageType : bytes[pageTypeOffset]? = some materializedTablePageType
  directory : directoryStop bytes ≤ 4096
  rows : ∀ recordId < recordCountOf bytes, entryAt bytes recordId ≠ 0 →
    RowFits bytes (directoryOffset + entryAt bytes recordId)

def rowOf (bytes : Bytes) (start : Nat) : Bytes := (bytes.drop start).take (wordAt bytes start)

def pageOf (bytes : Bytes) : MaterializedTablePage :=
  ⟨bytes, UInt32.ofNat (fromLeBytes (bytes.take 4)), UInt16.ofNat (recordCountOf bytes)⟩

theorem toNat_recordCount_pageOf (bytes : Bytes) : (pageOf bytes).recordCount.toNat = recordCountOf bytes := by
  rw [pageOf, UInt16.toNat_ofNat']
  exact Nat.mod_eq_of_lt (wordAt_lt bytes recordCountOffset)

theorem checkedAdd_of_le {a b : Nat} (h : a + b ≤ 2 ^ 32) : checkedAdd a b = some (a + b) :=
  if_pos (h.trans (by decide))

theorem checkedMul_of_le {a b : Nat} (h : a * b ≤ 2 ^ 32) : checkedMul a b = some (a * b) :=
  if_pos (h.trans (by decide))

theorem okOr_some {ε α : Type} (a : α) (e : ε) : okOr (some a) e = .ok a := rfl

theorem getRange_of_le {bytes : Bytes} {lo hi : Nat} (h : lo ≤ hi) (h' : hi ≤ bytes.length) :
    getRange bytes lo hi = some ((bytes.take hi).drop lo) :=
  if_pos ⟨h, h'⟩

theorem index_pair {ε α : Type} {bytes : Bytes} {i : Nat} (h : i + 1 < bytes.length) (f : Nat → Outcome ε α) :
    (do f (fromLeBytes [← index bytes i, ← index bytes (i + 1)])) = f (wordAt bytes i) := by
  rw [index_of_lt (Nat.lt_of_succ_lt h), ok_bind, index_of_lt h, ok_bind, fromLeBytes_pair h]

theorem wordAt_of_drop (bytes : Bytes) (start : Nat) : wordAt (bytes.drop start) 0 = wordAt bytes start := rfl

theorem wordAt_of_take (bytes : Bytes) {n : Nat} (h : 2 ≤ n) : wordAt (bytes.take n) 0 = wordAt bytes 0 := by
  rw [wordAt, wordAt, List.drop_zero, List.drop_zero, List.take_take, Nat.min_eq_left h]

section Lookups

variable {bytes : Bytes} {recordId offset : UInt16}

theorem directoryEnd_pageOf : (pageOf bytes).directoryEnd =
    if directoryStop bytes ≤ bytes.length then .ok (directoryStop bytes)
    else fail (.directoryOutOfBounds (pageOf bytes).recordCount) := by
  have hcount := wordAt_lt bytes recordCountOffset
  have hstop : directoryOffset + recordCountOf bytes * directoryEntryLen = directoryStop bytes := by
    rw [directoryStop, directoryEntryLen, Nat.mul_comm]
  rw [← recordCountOf] at hcount
  rw [directoryEnd, toNat_recordCount_pageOf, checkedMul_of_le (by rw [directoryEntryLen]; omega), okOr_some, ok_bind,
    checkedAdd_of_le (by rw [directoryOffset, directoryEntryLen]; omega), okOr_some, ok_bind, hstop]
  by_cases h : directoryStop bytes ≤ bytes.length
  · rw [if_pos h]
    exact if_neg (Nat.not_lt.mpr h)
  · rw [if_neg h]
    exact if_pos (Nat.lt_of_not_le h)

theorem directoryEntry_of_le (h : recordCountOf bytes ≤ recordId.toNat) :
    (pageOf bytes).directoryEntry recordId =
      fail (.recordIdOutOfRange recordId (pageOf bytes).recordCount) := by
  apply if_pos
  rw [ge_iff_le, UInt16.le_iff_toNat_le, toNat_recordCount_pageOf]
  exact h

theorem directoryEntry_of_lt (h : recordId.toNat < recordCountOf bytes)
    (hdirectory : directoryStop bytes ≤ bytes.length) :
    (pageOf bytes).directoryEntry recordId = .ok (UInt16.ofNat (entryAt bytes recordId.toNat)) := by
  have hid := recordId.toNat_lt
  have hrange : ¬recordId ≥ (pageOf bytes).recordCount := by
    rw [ge_iff_le, UInt16.le_iff_toNat_le, toNat_recordCount_pageOf]
    omega
  have hstop : directoryOffset + 2 * recordId.toNat + 2 ≤ bytes.length := by
    rw [directoryStop] at hdirectory
    omega
  rw [directoryEntry, if_neg hrange, directoryEnd_pageOf, if_pos hdirectory, ok_bind,
    checkedMul_of_le (by rw [directoryEntryLen]; omega), okOr_some, ok_bind,
    checkedAdd_of_le (by rw [directoryOffset, directoryEntryLen]; omega), okOr_some, ok_bind,
    checkedAdd_of_le (by rw [directoryOffset, directoryEntryLen]; omega), okOr_some, ok_bind,
    directoryEntryLen, Nat.mul_comm]
  change (okOr (getRange bytes _ _) _ >>= _) = _
  rw [getRange_of_le (Nat.le_add_right _ _) hstop, okOr_some, ok_bind, List.drop_take, Nat.add_sub_cancel_left]
  have hlength : 0 + 1 < ((bytes.drop (directoryOffset + 2 * recordId.toNat)).take 2).length := by
    rw [List.length_take, List.length_drop]
    omega
  refine (index_pair hlength fun word => pure (UInt16.ofNat word)).trans ?_
  rw [wordAt_of_take _ le_rfl, wordAt_of_drop]
  rfl

theorem rowAt_eq (hlength : bytes.length = 4096) (hdirectory : directoryStop bytes ≤ 4096) :
    (pageOf bytes).rowAt recordId offset =
      if directoryOffset + offset.toNat < directoryStop bytes then fail (.recordOutOfBounds recordId offset)
      else if 4096 < directoryOffset + offset.toNat then fail (.recordOutOfBounds recordId offset)
      else if 4094 < directoryOffset + offset.toNat then
        fail (.invalidRecordLength recordId offset 0 (4096 - (directoryOffset + offset.toNat)))
      else if wordAt bytes (directoryOffset + offset.toNat) < 2 ∨
          wordAt bytes (directoryOffset + offset.toNat) > 4096 - (directoryOffset + offset.toNat) then
        fail (.invalidRecordLength recordId offset (wordAt bytes (directoryOffset + offset.toNat))
          (4096 - (directoryOffset + offset.toNat)))
      else .ok (directoryOffset + offset.toNat, rowOf bytes (directoryOffset + offset.toNat)) := by
  have hoffset := offset.toNat_lt
  rw [rowAt, directoryEnd_pageOf, hlength, if_pos hdirectory, ok_bind,
    checkedAdd_of_le (by rw [directoryOffset]; omega), okOr_some, ok_bind]
  change (ite _ _ (okOr (getRange bytes _ bytes.length) _ >>= _)) = _
  generalize directoryOffset + offset.toNat = start
  split
  next => rfl
  next =>
    by_cases hinside : 4096 < start
    · rw [if_pos hinside, getRange, if_neg (by omega)]
      rfl
    have hdrop : (bytes.drop start).length = 4096 - start := by rw [List.length_drop, hlength]
    rw [if_neg hinside, getRange_of_le (by omega) le_rfl, okOr_some, ok_bind, List.take_length, hdrop]
    by_cases hheader : 4094 < start
    · rw [if_pos hheader, if_pos (by omega)]
    rw [if_neg hheader, if_neg (by omega), index_of_lt (by omega), ok_bind, index_of_lt (by omega), ok_bind,
      fromLeBytes_pair (by omega), wordAt_of_drop]
    by_cases hword : wordAt bytes start < 2 ∨ wordAt bytes start > 4096 - start
    · refine Eq.trans ?_ (if_pos hword).symm
      exact if_pos hword
    · refine (Eq.trans ?_ (if_neg hword).symm)
      refine (if_neg hword).trans ?_
      rw [slice_of_le (Nat.zero_le _) (by omega), ok_bind]
      rfl

theorem rowAt_eq_ok_iff (hlength : bytes.length = 4096) (hdirectory : directoryStop bytes ≤ 4096)
    {row : Nat × Bytes} : (pageOf bytes).rowAt recordId offset = .ok row ↔
      RowFits bytes (directoryOffset + offset.toNat) ∧
        row = (directoryOffset + offset.toNat, rowOf bytes (directoryOffset + offset.toNat)) := by
  rw [rowAt_eq hlength hdirectory]
  generalize directoryOffset + offset.toNat = start
  constructor
  · intro h
    split at h
    · cases h
    next hafter =>
      split at h
      · cases h
      next hinside =>
        split at h
        · cases h
        next hheader =>
          split at h
          · cases h
          next hword =>
            cases h
            exact ⟨⟨by omega, by omega, by omega, by omega⟩, rfl⟩
  · rintro ⟨hfits, rfl⟩
    have hafter := hfits.after
    have hheader := hfits.header
    have hlong := hfits.longEnough
    have hinside := hfits.inside
    rw [if_neg (by omega), if_neg (by omega), if_neg (by omega), if_neg (by omega)]

end Lookups

theorem toNat_entry (bytes : Bytes) (recordId : Nat) :
    (UInt16.ofNat (entryAt bytes recordId)).toNat = entryAt bytes recordId := by
  rw [UInt16.toNat_ofNat']
  exact Nat.mod_eq_of_lt (wordAt_lt bytes _)

theorem entry_eq_zero_iff (bytes : Bytes) (recordId : Nat) :
    UInt16.ofNat (entryAt bytes recordId) = 0 ↔ entryAt bytes recordId = 0 := by
  rw [← UInt16.toNat_inj, toNat_entry]
  rfl

theorem validateEntry_eq_ok_iff {bytes : Bytes} {recordId : UInt16} (hlength : bytes.length = 4096)
    (hdirectory : directoryStop bytes ≤ 4096) (hid : recordId.toNat < recordCountOf bytes) :
    (pageOf bytes).validateEntry recordId = .ok () ↔
      (entryAt bytes recordId.toNat ≠ 0 → RowFits bytes (directoryOffset + entryAt bytes recordId.toNat)) := by
  rw [validateEntry, directoryEntry_of_lt hid (hlength ▸ hdirectory), ok_bind]
  by_cases hzero : entryAt bytes recordId.toNat = 0
  · rw [if_neg (not_not.mpr ((entry_eq_zero_iff _ _).mpr hzero))]
    exact iff_of_true rfl fun h => absurd hzero h
  · rw [if_pos (mt (entry_eq_zero_iff _ _).mp hzero), bind_eq_ok_iff]
    simp only [rowAt_eq_ok_iff hlength hdirectory, toNat_entry]
    constructor
    · rintro ⟨row, ⟨hfits, -⟩, -⟩ -
      exact hfits
    · intro h
      exact ⟨_, ⟨h hzero, rfl⟩, rfl⟩

theorem validated_iff {bytes : Bytes} (hlength : bytes.length = 4096) (hdirectory : directoryStop bytes ≤ 4096) :
    ((List.range (recordCountOf bytes)).map UInt16.ofNat).forM (pageOf bytes).validateEntry = .ok () ↔
      ∀ recordId < recordCountOf bytes, entryAt bytes recordId ≠ 0 →
        RowFits bytes (directoryOffset + entryAt bytes recordId) := by
  have hcount : recordCountOf bytes < 2 ^ 16 := wordAt_lt bytes recordCountOffset
  have hvalidate (recordId : Nat) (hid : recordId < recordCountOf bytes) :
      (pageOf bytes).validateEntry (UInt16.ofNat recordId) = .ok () ↔ (entryAt bytes recordId ≠ 0 →
        RowFits bytes (directoryOffset + entryAt bytes recordId)) := by
    have hcast : (UInt16.ofNat recordId).toNat = recordId := by
      rw [UInt16.toNat_ofNat']
      exact Nat.mod_eq_of_lt (hid.trans hcount)
    rw [validateEntry_eq_ok_iff hlength hdirectory (hcast.symm ▸ hid), hcast]
  rw [forM_eq_ok_iff, List.forall_mem_map]
  simp only [List.mem_range]
  exact forall₂_congr hvalidate

theorem fromLeBytes_key {bytes : Bytes} (h : 4 ≤ bytes.length) :
    fromLeBytes [bytes[0], bytes[1], bytes[2], bytes[3]] = fromLeBytes (bytes.take 4) := by
  match bytes, h with
  | _ :: _ :: _ :: _ :: _, _ => rfl

theorem parse_of_length {bytes : Bytes} {pageType : UInt8} (hlength : bytes.length = 4096)
    (htype : bytes[pageTypeOffset]? = some pageType) : parse bytes =
      if pageType ≠ materializedTablePageType then fail (.wrongPageType pageType)
      else (do
        let _ ← (pageOf bytes).directoryEnd
        ((List.range (recordCountOf bytes)).map UInt16.ofNat).forM (pageOf bytes).validateEntry
        pure (pageOf bytes)) := by
  have hwhole : ¬bytes.length ≠ materializedTablePageLen := not_not.mpr hlength
  have hread (i : Nat) (h : i < 0x20) : i < bytes.length := by omega
  have hkey : fromLeBytes [bytes[0], bytes[0 + 1], bytes[0 + 2], bytes[0 + 3]] = fromLeBytes (bytes.take 4) :=
    fromLeBytes_key (by omega)
  have hpage : (⟨bytes, UInt32.ofNat (fromLeBytes (bytes.take 4)),
      UInt16.ofNat (wordAt bytes recordCountOffset)⟩ : MaterializedTablePage) = pageOf bytes := rfl
  rw [parse, if_neg hwhole, index_eq_ok_iff.mpr htype, ok_bind, ← toNat_recordCount_pageOf, ← hpage]
  by_cases hfour : pageType ≠ materializedTablePageType
  · rw [if_pos hfour, if_pos hfour]
  rw [if_neg hfour, if_neg hfour, pageKeyOffset, index_of_lt (hread 0 (by decide)), ok_bind,
    index_of_lt (hread (0 + 1) (by decide)), ok_bind, index_of_lt (hread (0 + 2) (by decide)), ok_bind,
    index_of_lt (hread (0 + 3) (by decide)), ok_bind, hkey]
  exact index_pair (hread (recordCountOffset + 1) (by decide)) fun word => (do
    let page : MaterializedTablePage := ⟨bytes, UInt32.ofNat (fromLeBytes (bytes.take 4)), UInt16.ofNat word⟩
    let _ ← page.directoryEnd
    ((List.range page.recordCount.toNat).map UInt16.ofNat).forM page.validateEntry
    pure page)

theorem parse_eq_ok_iff {bytes : Bytes} {page : MaterializedTablePage} :
    parse bytes = .ok page ↔ WellFormed bytes ∧ page = pageOf bytes := by
  by_cases hlength : bytes.length = 4096
  case neg =>
    have hrefused : parse bytes = fail (.invalidPageLength bytes.length) := if_pos hlength
    rw [hrefused]
    exact iff_of_false (by simp [fail]) fun h => hlength h.1.length
  obtain ⟨pageType, htype⟩ : ∃ pageType, bytes[pageTypeOffset]? = some pageType :=
    ⟨_, List.getElem?_eq_getElem (lt_of_lt_of_le (by decide) hlength.ge)⟩
  rw [parse_of_length hlength htype, directoryEnd_pageOf, hlength]
  constructor
  · intro h
    split at h
    · cases h
    next hfour =>
      split at h
      next hdirectory =>
        rw [ok_bind, bind_eq_ok_iff] at h
        obtain ⟨_, hrows, h⟩ := h
        cases h
        exact ⟨⟨hlength, htype.trans (congrArg some (not_not.mp hfour)), hdirectory, (validated_iff hlength hdirectory).mp hrows⟩, rfl⟩
      · cases h
  · rintro ⟨h, rfl⟩
    obtain rfl : pageType = materializedTablePageType := Option.some_inj.mp (htype.symm.trans h.pageType)
    rw [if_neg (not_not.mpr rfl), if_pos h.directory, ok_bind,
      (validated_iff hlength h.directory).mpr h.rows, ok_bind]
    rfl

def recordOf (bytes : Bytes) (recordId : UInt16) : MaterializedRowRecord :=
  ⟨recordId, UInt16.ofNat (entryAt bytes recordId.toNat), directoryOffset + entryAt bytes recordId.toNat,
    rowOf bytes (directoryOffset + entryAt bytes recordId.toNat)⟩

theorem record_pageOf {bytes : Bytes} (h : WellFormed bytes) (recordId : UInt16) :
    (pageOf bytes).record recordId =
      if recordCountOf bytes ≤ recordId.toNat then fail (.recordIdOutOfRange recordId (pageOf bytes).recordCount)
      else if entryAt bytes recordId.toNat = 0 then fail (.missingRecord recordId)
      else .ok (recordOf bytes recordId) := by
  by_cases hrange : recordCountOf bytes ≤ recordId.toNat
  case pos => rw [if_pos hrange, record, directoryEntry_of_le hrange]; rfl
  rw [if_neg hrange, record, directoryEntry_of_lt (Nat.lt_of_not_le hrange) (h.length.symm ▸ h.directory), ok_bind]
  by_cases hzero : entryAt bytes recordId.toNat = 0
  case pos => rw [if_pos hzero, if_pos ((entry_eq_zero_iff _ _).mpr hzero)]
  rw [if_neg hzero, if_neg (mt (entry_eq_zero_iff _ _).mp hzero)]
  have hfits := h.rows recordId.toNat (Nat.lt_of_not_le hrange) hzero
  rw [← toNat_entry] at hfits
  rw [(rowAt_eq_ok_iff h.length h.directory).mpr ⟨hfits, rfl⟩, ok_bind, toNat_entry]
  rfl

theorem RowFits.length_rowOf {bytes : Bytes} {start : Nat} (h : RowFits bytes start)
    (hlength : bytes.length = 4096) : (rowOf bytes start).length = wordAt bytes start := by
  have hinside := h.inside
  rw [rowOf, List.length_take, List.length_drop]
  omega

theorem RowFits.wordAt_rowOf {bytes : Bytes} {start : Nat} (h : RowFits bytes start) :
    wordAt (rowOf bytes start) 0 = wordAt bytes start := by
  rw [rowOf, wordAt_of_take _ h.longEnough, wordAt_of_drop]

/-- What holds of a record that a page returns. -/
structure RecordInside (bytes : Bytes) (record : MaterializedRowRecord) : Prop where
  afterDirectory : directoryStop bytes ≤ record.byteOffset
  insidePage : record.byteOffset + record.bytes.length ≤ bytes.length
  pageBytes : record.bytes = (bytes.drop record.byteOffset).take record.bytes.length
  ownLength : wordAt record.bytes 0 = record.bytes.length
  atLeastTwo : 2 ≤ record.bytes.length

theorem recordInside {bytes : Bytes} (h : WellFormed bytes) {recordId : UInt16}
    (hid : recordId.toNat < recordCountOf bytes) (hentry : entryAt bytes recordId.toNat ≠ 0) :
    RecordInside bytes (recordOf bytes recordId) := by
  have hfits := h.rows _ hid hentry
  have hlength := hfits.length_rowOf h.length
  have hinside := hfits.inside
  have hheader := hfits.header
  have hpage := h.length
  refine ⟨hfits.after, ?_, ?_, ?_, ?_⟩
  · simp only [recordOf]
    omega
  · simp only [recordOf]
    rw [hlength, rowOf]
  · simp only [recordOf]
    rw [hlength, hfits.wordAt_rowOf]
  · simp only [recordOf]
    exact hlength ▸ hfits.longEnough

theorem recordInside_of_record {bytes : Bytes} {page : MaterializedTablePage} {recordId : UInt16}
    {record : MaterializedRowRecord} (hparse : parse bytes = .ok page) (hrecord : page.record recordId = .ok record) :
    WellFormed bytes ∧ RecordInside bytes record := by
  obtain ⟨h, rfl⟩ := parse_eq_ok_iff.mp hparse
  rw [record_pageOf h] at hrecord
  split at hrecord
  · cases hrecord
  next hrange =>
    split at hrecord
    · cases hrecord
    next hzero =>
      cases hrecord
      exact ⟨h, recordInside h (Nat.lt_of_not_le hrange) hzero⟩

/-- The parser accepts exactly the well-formed pages, and on such a page every
lookup either finds its record, whole and after the directory, or says that the
record is out of range or missing. -/
theorem materializedTablePage_lookups (bytes : Bytes) :
    ((∃ page, parse bytes = .ok page) ↔ WellFormed bytes) ∧
    ∀ page, parse bytes = .ok page → page.recordCount.toNat = recordCountOf bytes ∧
      ∀ recordId : UInt16,
        ((∃ record, page.record recordId = .ok record) ↔
          recordId.toNat < recordCountOf bytes ∧ entryAt bytes recordId.toNat ≠ 0) ∧
        (page.record recordId = fail (.recordIdOutOfRange recordId page.recordCount) ↔
          recordCountOf bytes ≤ recordId.toNat) ∧
        (page.record recordId = fail (.missingRecord recordId) ↔
          recordId.toNat < recordCountOf bytes ∧ entryAt bytes recordId.toNat = 0) ∧
        (∀ fault, page.record recordId = .error fault →
          fault = .err (.recordIdOutOfRange recordId page.recordCount) ∨ fault = .err (.missingRecord recordId)) ∧
        ∀ record, page.record recordId = .ok record → record.recordId = recordId ∧
          record.byteOffset = directoryOffset + entryAt bytes recordId.toNat ∧ RecordInside bytes record := by
  constructor
  · constructor
    · rintro ⟨page, hparse⟩
      exact (parse_eq_ok_iff.mp hparse).1
    · intro h
      exact ⟨pageOf bytes, parse_eq_ok_iff.mpr ⟨h, rfl⟩⟩
  intro page hparse
  obtain ⟨h, rfl⟩ := parse_eq_ok_iff.mp hparse
  refine ⟨toNat_recordCount_pageOf bytes, fun recordId => ?_⟩
  have hrecord := record_pageOf h recordId
  by_cases hrange : recordCountOf bytes ≤ recordId.toNat
  · rw [if_pos hrange] at hrecord
    rw [hrecord]
    simp [fail, hrange]
  rw [if_neg hrange] at hrecord
  have hid : recordId.toNat < recordCountOf bytes := Nat.lt_of_not_le hrange
  by_cases hzero : entryAt bytes recordId.toNat = 0
  · rw [if_pos hzero] at hrecord
    rw [hrecord]
    simp [fail, hid, hzero]
  · rw [if_neg hzero] at hrecord
    rw [hrecord]
    refine ⟨iff_of_true ⟨_, rfl⟩ ⟨hid, hzero⟩, iff_of_false (by simp [fail]) hrange,
      iff_of_false (by simp [fail]) fun h => hzero h.2, fun _ hfault => (nomatch hfault), ?_⟩
    intro record hok
    cases hok
    exact ⟨rfl, rfl, recordInside h hid hzero⟩

end OpenSqlAny.MaterializedReading
