import OpenSqlAny.PageStores

namespace OpenSqlAny.SlottedPages

open Library.LittleEndian PageStores

def trailerStart : Nat := 0xFF0

def searchLimit : Nat := 0x300

def slotOffsetMin : Nat := 0x20

def slotOffsetMax : Nat := trailerStart

def minLiveSlots : Nat := 8

def liveOf (slots : List Nat) : List Nat := slots.filter (· ≠ 0)

structure SlotDirectory where
  scanStart : Nat
  arrayStart : Nat
  endOffset : Nat
  slots : List Nat
  leadingZero : Bool
  bigEndian : Bool
  deriving DecidableEq, Repr

def SlotDirectory.liveSlots (directory : SlotDirectory) : List Nat := liveOf directory.slots

def SlotDirectory.liveCount (directory : SlotDirectory) : Nat := (liveOf directory.slots).length

def SlotDirectory.deletedCount (directory : SlotDirectory) : Nat :=
  directory.slots.length - directory.liveCount

def SlotDirectory.minOffset (directory : SlotDirectory) : Option Nat := directory.liveSlots.min?

def u16le (buf : Bytes) (off : Nat) : Nat := (buf.getD off 0).toNat + 256 * (buf.getD (off + 1) 0).toNat

def u16be (buf : Bytes) (off : Nat) : Nat := 256 * (buf.getD off 0).toNat + (buf.getD (off + 1) 0).toNat

/-- The scan reads below the search limit only, where every page has bytes. -/
def readU16 (bigEndian : Bool) : Bytes → Nat → Nat := if bigEndian then u16be else u16le

def isSlotOffset (value : Nat) : Prop := slotOffsetMin ≤ value ∧ value < slotOffsetMax

instance (value : Nat) : Decidable (isSlotOffset value) := inferInstanceAs (Decidable (_ ∧ _))

def scanLoop (read : Nat → Nat) (pos : Nat) (slots : List Nat) (prev : Nat) (seenLive : Bool) :
    Nat × List Nat :=
  if pos + 1 < searchLimit then
    if read pos = 0 ∧ seenLive = true then scanLoop read (pos + 2) (slots ++ [0]) prev seenLive
    else if isSlotOffset (read pos) ∧ read pos < prev then
      scanLoop read (pos + 2) (slots ++ [read pos]) (read pos) true
    else (pos, slots)
  else (pos, slots)
termination_by searchLimit - pos

def hasLeadingZero (read : Nat → Nat) (start : Nat) : Prop :=
  start + 3 < searchLimit ∧ read start = 0 ∧ isSlotOffset (read (start + 2))

instance (read : Nat → Nat) (start : Nat) : Decidable (hasLeadingZero read start) :=
  inferInstanceAs (Decidable (_ ∧ _ ∧ _))

def scanFrom (plain : Bytes) (start : Nat) (bigEndian : Bool) : Option SlotDirectory :=
  let read := readU16 bigEndian plain
  let leadingZero := decide (hasLeadingZero read start)
  let arrayStart := if leadingZero then start + 2 else start
  let scanned := scanLoop read arrayStart [] 0x10000 false
  if (liveOf scanned.2).length < minLiveSlots then none
  else
    match (liveOf scanned.2).min? with
    | none => none
    | some minOffset =>
        if scanned.1 > minOffset then none
        else some ⟨start, arrayStart, scanned.1, scanned.2, leadingZero, bigEndian⟩

def isBetter (cand best : SlotDirectory) : Prop :=
  cand.liveCount > best.liveCount ∨
    cand.liveCount = best.liveCount ∧ cand.slots.length > best.slots.length

instance (cand best : SlotDirectory) : Decidable (isBetter cand best) :=
  inferInstanceAs (Decidable (_ ∨ _ ∧ _))

def keepBetter (best : Option SlotDirectory) (cand : SlotDirectory) : Option SlotDirectory :=
  match best with
  | none => some cand
  | some b => if isBetter cand b then some cand else some b

/-- The starts and byte orders in the order in which the search tries them. -/
def attempts : List (Nat × Bool) :=
  (List.range searchLimit).flatMap (fun start => [(start, false), (start, true)])

def findSlotDirectory (plain : Bytes) : Option SlotDirectory :=
  attempts.foldl
    (fun best attempt =>
      match scanFrom plain attempt.1 attempt.2 with
      | none => best
      | some cand => keepBetter best cand)
    none

structure SlottedPage where
  page : Page
  directory : Option SlotDirectory

def SlottedPage.parse (page : Page) : SlottedPage := ⟨page, findSlotDirectory page.bytes⟩

theorem SlottedPage.parse_page (page : Page) : (SlottedPage.parse page).page = page := by
  rw [parse]

theorem SlottedPage.parse_directory (page : Page) :
    (SlottedPage.parse page).directory = findSlotDirectory page.bytes := by
  rw [parse]

end OpenSqlAny.SlottedPages
