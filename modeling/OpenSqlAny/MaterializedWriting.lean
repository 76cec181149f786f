import OpenSqlAny.MaterializedReading

namespace OpenSqlAny.MaterializedWriting

open Library.Faults Library.LittleEndian MaterializedPages MaterializedReading MaterializedTablePage

def rowBytes : List (Option Bytes) → Bytes
  | [] => []
  | slot :: slots => slot.getD [] ++ rowBytes slots

/-- The directory words, counted from the directory, for rows that begin at an offset. -/
def entries : Nat → List (Option Bytes) → List Nat
  | _, [] => []
  | offset, none :: slots => 0 :: entries offset slots
  | offset, some row :: slots => offset :: entries (offset + row.length) slots

/-- What a writer puts on a page. The bytes that the parser does not look at are free. -/
structure PagePlan where
  key : UInt32
  afterKey : Bytes
  afterType : Bytes
  afterCount : Bytes
  slots : List (Option Bytes)
  free : Bytes
  length_afterKey : afterKey.length = 12
  length_afterType : afterType.length = 5
  length_afterCount : afterCount.length = 4
  sized : ∀ row, some row ∈ slots → 2 ≤ row.length ∧ wordAt row 0 = row.length
  fills : 28 + 2 * slots.length + (rowBytes slots).length + free.length = 4096

namespace PagePlan

variable (plan : PagePlan)

def beforeCount : Bytes := toLeBytes 4 plan.key.toNat ++ plan.afterKey ++ [4] ++ plan.afterType

def header : Bytes := plan.beforeCount ++ toLeBytes 2 plan.slots.length ++ plan.afterCount

def directory : Bytes := (entries (2 * plan.slots.length) plan.slots).flatMap (toLeBytes 2)

def bytes : Bytes := plan.header ++ plan.directory ++ rowBytes plan.slots ++ plan.free

def blank (key : UInt32) (slots : List (Option Bytes))
    (sized : ∀ row, some row ∈ slots → 2 ≤ row.length ∧ wordAt row 0 = row.length)
    (fits : 28 + 2 * slots.length + (rowBytes slots).length ≤ 4096) : PagePlan where
  key := key
  afterKey := List.replicate 12 0
  afterType := List.replicate 5 0
  afterCount := List.replicate 4 0
  slots := slots
  free := List.replicate (4096 - (28 + 2 * slots.length + (rowBytes slots).length)) 0
  length_afterKey := List.length_replicate
  length_afterType := List.length_replicate
  length_afterCount := List.length_replicate
  sized := sized
  fills := by rw [List.length_replicate]; omega

end PagePlan

section Directory

variable {slots : List (Option Bytes)} {i : Nat}

theorem length_entries (offset : Nat) (slots : List (Option Bytes)) : (entries offset slots).length = slots.length := by
  induction slots generalizing offset with
  | nil => rfl
  | cons slot slots ih =>
      cases slot with
      | none => rw [entries, List.length_cons, List.length_cons, ih]
      | some row => rw [entries, List.length_cons, List.length_cons, ih]

theorem entries_missing (h : slots[i]? = some none) (offset : Nat) : (entries offset slots)[i]? = some 0 := by
  induction slots generalizing offset i with
  | nil => simp at h
  | cons slot slots ih =>
      cases i with
      | zero =>
          obtain rfl : slot = none := by simpa using h
          rfl
      | succ i =>
          rw [List.getElem?_cons_succ] at h
          cases slot with
          | none => exact ih h offset
          | some row => exact ih h (offset + row.length)

theorem entries_row {row : Bytes} (h : slots[i]? = some (some row)) (offset : Nat) :
    ∃ before after, rowBytes slots = before ++ row ++ after ∧
      (entries offset slots)[i]? = some (offset + before.length) := by
  induction slots generalizing offset i with
  | nil => simp at h
  | cons slot slots ih =>
      cases i with
      | zero =>
          obtain rfl : slot = some row := by simpa using h
          exact ⟨[], rowBytes slots, rfl, rfl⟩
      | succ i =>
          rw [List.getElem?_cons_succ] at h
          cases slot with
          | none => exact ih h offset
          | some first =>
              obtain ⟨before, after, hrows, hentry⟩ := ih h (offset + first.length)
              refine ⟨first ++ before, after, ?_, ?_⟩
              · rw [rowBytes, hrows, Option.getD_some, List.append_assoc, List.append_assoc, List.append_assoc]
              · rw [entries, List.getElem?_cons_succ, hentry, List.length_append, Nat.add_assoc]

theorem length_flatMap_words (words : List Nat) : (words.flatMap (toLeBytes 2)).length = 2 * words.length := by
  induction words with
  | nil => rfl
  | cons word words ih =>
      rw [List.flatMap_cons, List.length_append, length_toLeBytes, ih, List.length_cons]
      omega

theorem wordAt_words {words : List Nat} {word : Nat} (h : words[i]? = some word) (hword : word < 2 ^ 16)
    (front back : Bytes) :
    wordAt (front ++ words.flatMap (toLeBytes 2) ++ back) (front.length + 2 * i) = word := by
  obtain ⟨hi, rfl⟩ := List.getElem?_eq_some_iff.mp h
  have hsplit : words.flatMap (toLeBytes 2) =
      (words.take i).flatMap (toLeBytes 2) ++ toLeBytes 2 words[i] ++ (words.drop (i + 1)).flatMap (toLeBytes 2) := by
    conv_lhs => rw [← List.take_append_drop i words, List.drop_eq_getElem_cons hi]
    rw [List.flatMap_append, List.flatMap_cons, List.append_assoc]
  have hlength : (front ++ (words.take i).flatMap (toLeBytes 2)).length = front.length + 2 * i := by
    rw [List.length_append, length_flatMap_words, List.length_take_of_le hi.le]
  rw [← hlength, hsplit]
  have h := wordAt_toLeBytes (front ++ (words.take i).flatMap (toLeBytes 2))
    ((words.drop (i + 1)).flatMap (toLeBytes 2) ++ back) hword
  simpa only [List.append_assoc] using h

end Directory

namespace PagePlan

variable {plan : PagePlan} {i : Nat} {row : Bytes}

theorem length_beforeCount : plan.beforeCount.length = recordCountOffset := by
  have hkey := plan.length_afterKey
  have htype := plan.length_afterType
  simp only [beforeCount, List.length_append, length_toLeBytes, List.length_singleton, hkey, htype]
  rfl

theorem length_header : plan.header.length = directoryOffset := by
  rw [header, List.length_append, List.length_append, length_beforeCount, length_toLeBytes, plan.length_afterCount]
  rfl

theorem length_directory : plan.directory.length = 2 * plan.slots.length := by
  rw [directory, length_flatMap_words, length_entries]

theorem length_bytes : plan.bytes.length = 4096 := by
  have hfills := plan.fills
  rw [bytes, List.length_append, List.length_append, List.length_append, length_header, length_directory,
    directoryOffset]
  omega

theorem recordCountOf_bytes : recordCountOf plan.bytes = plan.slots.length := by
  have hfills := plan.fills
  have h := wordAt_toLeBytes plan.beforeCount (plan.afterCount ++ plan.directory ++ rowBytes plan.slots ++ plan.free)
    (show plan.slots.length < 2 ^ 16 by omega)
  rw [length_beforeCount] at h
  rw [recordCountOf, ← h, bytes, header]
  simp only [List.append_assoc]

theorem pageType_bytes : plan.bytes[pageTypeOffset]? = some materializedTablePageType := by
  have hfront : (toLeBytes 4 plan.key.toNat ++ plan.afterKey).length = pageTypeOffset := by
    rw [List.length_append, length_toLeBytes, plan.length_afterKey]
    rfl
  have hsplit : plan.bytes = toLeBytes 4 plan.key.toNat ++ plan.afterKey ++ materializedTablePageType ::
      (plan.afterType ++ toLeBytes 2 plan.slots.length ++ plan.afterCount ++ plan.directory ++
        rowBytes plan.slots ++ plan.free) := by
    rw [bytes, header, beforeCount]
    simp only [List.append_assoc, List.singleton_append]
    rfl
  rw [hsplit, ← hfront, List.getElem?_append_right le_rfl, Nat.sub_self]
  rfl

theorem key_bytes : UInt32.ofNat (fromLeBytes (plan.bytes.take 4)) = plan.key := by
  have htake : plan.bytes.take 4 = toLeBytes 4 plan.key.toNat := by
    rw [bytes, header, beforeCount]
    simp only [List.append_assoc]
    exact List.take_left' (length_toLeBytes 4 plan.key.toNat)
  rw [htake, fromLeBytes_toLeBytes plan.key.toNat_lt, UInt32.ofNat_toNat]

theorem directoryStop_bytes : directoryStop plan.bytes = 28 + 2 * plan.slots.length := by
  rw [directoryStop, recordCountOf_bytes]
  rfl

theorem entryAt_missing (h : plan.slots[i]? = some none) : entryAt plan.bytes i = 0 := by
  have hword := wordAt_words (entries_missing h (2 * plan.slots.length)) (by decide) plan.header
    (rowBytes plan.slots ++ plan.free)
  rw [length_header] at hword
  rw [entryAt, ← hword, bytes, directory]
  simp only [List.append_assoc]

theorem placed (h : plan.slots[i]? = some (some row)) :
    ∃ front back, plan.bytes = front ++ row ++ back ∧ entryAt plan.bytes i ≠ 0 ∧
      front.length = directoryOffset + entryAt plan.bytes i ∧ directoryStop plan.bytes ≤ front.length := by
  obtain ⟨before, after, hrows, hentry⟩ := entries_row h (2 * plan.slots.length)
  have hi : i < plan.slots.length := (List.getElem?_eq_some_iff.mp h).1
  have hfills := plan.fills
  have hlength := congrArg List.length hrows
  rw [List.length_append, List.length_append] at hlength
  have hword := wordAt_words hentry (by omega) plan.header (rowBytes plan.slots ++ plan.free)
  rw [length_header, ← directory, ← List.append_assoc, ← bytes] at hword
  have hentry : entryAt plan.bytes i = 2 * plan.slots.length + before.length := hword
  have hfront : (plan.header ++ plan.directory ++ before).length = directoryOffset + entryAt plan.bytes i := by
    rw [List.length_append, List.length_append, length_header, length_directory, hentry, Nat.add_assoc]
  refine ⟨plan.header ++ plan.directory ++ before, after ++ plan.free, ?_, by omega, hfront, ?_⟩
  · rw [bytes, hrows]
    simp only [List.append_assoc]
  · rw [hfront, hentry, directoryStop_bytes, directoryOffset]
    omega

theorem rowFits (h : plan.slots[i]? = some (some row)) :
    RowFits plan.bytes (directoryOffset + entryAt plan.bytes i) ∧
      rowOf plan.bytes (directoryOffset + entryAt plan.bytes i) = row := by
  obtain ⟨front, back, hbytes, -, hfront, hafter⟩ := placed h
  obtain ⟨hlong, hword⟩ := plan.sized row (List.mem_of_getElem? h)
  have hlength := plan.length_bytes
  rw [hbytes, List.length_append, List.length_append] at hlength
  have hstart : wordAt plan.bytes front.length = row.length := by
    rw [hbytes, List.append_assoc, ← Nat.add_zero front.length, wordAt_after, wordAt_append (by omega), hword]
  rw [← hfront]
  refine ⟨⟨hafter, by omega, by omega, by omega⟩, ?_⟩
  rw [rowOf, hstart, hbytes, List.append_assoc, List.drop_left, List.take_left]

theorem wellFormed_bytes (plan : PagePlan) : WellFormed plan.bytes where
  length := length_bytes
  pageType := pageType_bytes
  directory := by
    have hfills := plan.fills
    rw [directoryStop_bytes]
    omega
  rows := by
    intro i hi hentry
    rw [recordCountOf_bytes] at hi
    cases hslot : plan.slots[i] with
    | none => exact absurd (entryAt_missing (by rw [List.getElem?_eq_getElem hi, hslot])) hentry
    | some row => exact (rowFits (by rw [List.getElem?_eq_getElem hi, hslot])).1

theorem pageOf_bytes : pageOf plan.bytes = ⟨plan.bytes, plan.key, UInt16.ofNat plan.slots.length⟩ := by
  rw [pageOf, key_bytes, recordCountOf_bytes]

end PagePlan

def lookup (plan : PagePlan) (recordId : UInt16) : Outcome MaterializedPageError Bytes :=
  match plan.slots[recordId.toNat]? with
  | none => fail (.recordIdOutOfRange recordId (UInt16.ofNat plan.slots.length))
  | some none => fail (.missingRecord recordId)
  | some (some row) => .ok row

theorem record_written (plan : PagePlan) (recordId : UInt16) :
    ((pageOf plan.bytes).record recordId).map MaterializedRowRecord.bytes = lookup plan recordId := by
  rw [record_pageOf plan.wellFormed_bytes, PagePlan.recordCountOf_bytes, PagePlan.pageOf_bytes, lookup]
  by_cases hrange : plan.slots.length ≤ recordId.toNat
  · rw [if_pos hrange, List.getElem?_eq_none hrange]
    rfl
  rw [if_neg hrange]
  have hlt : recordId.toNat < plan.slots.length := Nat.lt_of_not_le hrange
  have hslot := List.getElem?_eq_getElem hlt
  cases hrow : plan.slots[recordId.toNat] with
  | none =>
      rw [hrow] at hslot
      rw [hslot, if_pos (PagePlan.entryAt_missing hslot)]
      rfl
  | some row =>
      rw [hrow] at hslot
      obtain ⟨front, back, -, hentry, -⟩ := PagePlan.placed hslot
      rw [hslot, if_neg hentry]
      exact congrArg Except.ok (PagePlan.rowFits hslot).2

theorem lookup_eq_ok_iff {plan : PagePlan} {recordId : UInt16} {row : Bytes} :
    lookup plan recordId = .ok row ↔ plan.slots[recordId.toNat]? = some (some row) := by
  rw [lookup]
  rcases plan.slots[recordId.toNat]? with _ | _ | row'
  · simp [fail]
  · simp [fail]
  · simp

/-- A written page is parsed, and each of its lookups gives what was written under the identifier. -/
theorem parse_bytes (plan : PagePlan) :
    ∃ page, parse plan.bytes = .ok page ∧ page.key = plan.key ∧ page.recordCount.toNat = plan.slots.length ∧
      ∀ recordId, (page.record recordId).map MaterializedRowRecord.bytes = lookup plan recordId := by
  refine ⟨pageOf plan.bytes, parse_eq_ok_iff.mpr ⟨plan.wellFormed_bytes, rfl⟩, ?_, ?_, record_written plan⟩
  · rw [PagePlan.pageOf_bytes]
  · rw [toNat_recordCount_pageOf, PagePlan.recordCountOf_bytes]

end OpenSqlAny.MaterializedWriting
