import Mathlib.Data.List.GetD
import OpenSqlAny.Library.Faults
import OpenSqlAny.Library.LittleEndian

namespace OpenSqlAny.PageLinks

open Library.Faults Library.LittleEndian

variable {σ : Type}

def f32One : Bytes := [0x00, 0x00, 0x80, 0x3f]

def linkMarker : Bytes := [0xd5, 0x0b]

def blockMinLen : Nat := 34

inductive PageLinkTarget
  | absent
  | inRange (page : UInt32)
  | invalid (raw : UInt32)
  deriving DecidableEq, Repr

structure PageLinkMetadata where
  offset : Nat
  linkFlag : UInt8
  target : PageLinkTarget
  deriving DecidableEq, Repr

/-- What a block has at fixed places, in the order in which the source compares it. -/
def fixedParts (pageNumber : UInt32) : List (Nat × Bytes) :=
  [(0, toLeBytes 4 pageNumber.toNat), (4, [0]), (5, [0]), (8, f32One), (24, linkMarker), (27, [0, 0, 0])]

/-- The comparison `plain[start..start + expected.len()] != expected`. -/
def differsAt (plain : Bytes) (start : Nat) (expected : Bytes) : Outcome Empty Bool := do
  let found ← slice plain start (start + expected.length)
  return found != expected

def isNoBlock (plain : Bytes) (pageNumber : UInt32) (offset : Nat) : Outcome Empty Bool :=
  (fixedParts pageNumber).anyM fun part => differsAt plain (offset + part.1) part.2

def targetOf (linkFlag : UInt8) (rawTarget pageNumber : UInt32) (pageCount : Nat) : PageLinkTarget :=
  if linkFlag ≠ 1 then .absent
  else if rawTarget = 0 ∨ rawTarget.toNat ≥ pageCount ∨ rawTarget = pageNumber then .invalid rawTarget
  else .inRange rawTarget

def scanOffsets (plain : Bytes) (pageNumber : UInt32) (pageCount : Nat) :
    List Nat → Outcome Empty (Option PageLinkMetadata)
  | [] => .ok none
  | offset :: offsets => do
      if ← isNoBlock plain pageNumber offset then scanOffsets plain pageNumber pageCount offsets
      else
        let linkFlag ← index plain (offset + 26)
        let rawTarget ← slice plain (offset + 30) (offset + 34)
        return some ⟨offset, linkFlag, targetOf linkFlag (.ofNat (fromLeBytes rawTarget)) pageNumber pageCount⟩

def findPageLinkMetadata (plain : Bytes) (pageNumber pageCount : Nat) :
    Outcome Empty (Option PageLinkMetadata) :=
  if pageCount = 0 ∨ pageNumber ≥ pageCount ∨ plain.length < blockMinLen then .ok none
  else if pageNumber < 2 ^ 32 then
    scanOffsets plain (.ofNat pageNumber) pageCount (List.range (plain.length - blockMinLen + 1))
  else .ok none

inductive PageLinkWalkStop
  | missingMetadata
  | noLink
  | invalidTarget (raw : UInt32)
  | cycle (page : UInt32)
  | limitReached
  deriving DecidableEq, Repr

structure PageLinkWalk where
  pages : List UInt32
  stop : PageLinkWalkStop
  deriving DecidableEq, Repr

/-- The loop of the walk; the lookup may change a state of its own. -/
def walkLoop (maxPages : Nat) (lookup : σ → UInt32 → Option PageLinkMetadata × σ) (pages : List UInt32)
    (current : UInt32) (s : σ) : PageLinkWalk × σ :=
  if pages.length < maxPages then
    if current ∈ pages then (⟨pages, .cycle current⟩, s)
    else
      match lookup s current with
      | (none, s') => (⟨pages ++ [current], .missingMetadata⟩, s')
      | (some metadata, s') =>
          match metadata.target with
          | .absent => (⟨pages ++ [current], .noLink⟩, s')
          | .invalid raw => (⟨pages ++ [current], .invalidTarget raw⟩, s')
          | .inRange next => walkLoop maxPages lookup (pages ++ [current]) next s'
  else (⟨pages, .limitReached⟩, s)
termination_by maxPages - pages.length
decreasing_by
  rw [List.length_append, List.length_singleton]
  omega

def walkPageLinks (start : UInt32) (maxPages : Nat) (lookup : σ → UInt32 → Option PageLinkMetadata × σ) (s : σ) :
    PageLinkWalk × σ :=
  walkLoop maxPages lookup [] start s

def BlockAt (plain : Bytes) (pageNumber : UInt32) (offset : Nat) : Prop :=
  ∀ part ∈ fixedParts pageNumber, (plain.drop (offset + part.1)).take part.2.length = part.2

instance (plain : Bytes) (pageNumber : UInt32) (offset : Nat) : Decidable (BlockAt plain pageNumber offset) :=
  inferInstanceAs (Decidable (∀ part ∈ _, _))

def metadataAt (plain : Bytes) (pageNumber : UInt32) (pageCount offset : Nat) : PageLinkMetadata :=
  let linkFlag := plain.getD (offset + 26) 0
  ⟨offset, linkFlag,
    targetOf linkFlag (.ofNat (fromLeBytes ((plain.drop (offset + 30)).take 4))) pageNumber pageCount⟩

variable {plain : Bytes} {pageNumber : UInt32} {pageCount offset start : Nat}

theorem differsAt_eq {expected : Bytes} (h : start + expected.length ≤ plain.length) :
    differsAt plain start expected = .ok ((plain.drop start).take expected.length != expected) := by
  rw [differsAt, slice_of_le (by omega) h, List.drop_take, Nat.add_sub_cancel_left]
  rfl

theorem fixedParts_inside {part : Nat × Bytes} (h : part ∈ fixedParts pageNumber) :
    part.1 + part.2.length ≤ blockMinLen := by
  rw [fixedParts] at h
  simp only [List.mem_cons, List.not_mem_nil, or_false] at h
  rcases h with rfl | rfl | rfl | rfl | rfl | rfl <;> simp [f32One, linkMarker, blockMinLen]

theorem isNoBlock_eq (h : offset + blockMinLen ≤ plain.length) :
    isNoBlock plain pageNumber offset = .ok (!decide (BlockAt plain pageNumber offset)) := by
  have hpart (part : Nat × Bytes) (hmem : part ∈ fixedParts pageNumber) :
      differsAt plain (offset + part.1) part.2 =
        .ok ((plain.drop (offset + part.1)).take part.2.length != part.2) := by
    have hinside := fixedParts_inside hmem
    apply differsAt_eq
    omega
  rw [isNoBlock, anyM_eq_ok hpart]
  apply congrArg Except.ok
  rw [Bool.eq_iff_iff, List.any_eq_true, Bool.not_eq_true', decide_eq_false_iff_not]
  simp [BlockAt]

theorem scanOffsets_eq {offsets : List Nat} (h : ∀ offset ∈ offsets, offset + blockMinLen ≤ plain.length) :
    scanOffsets plain pageNumber pageCount offsets =
      .ok ((offsets.find? (BlockAt plain pageNumber)).map (metadataAt plain pageNumber pageCount)) := by
  induction offsets with
  | nil => rfl
  | cons offset offsets ih =>
      obtain ⟨hoffset, hrest⟩ := List.forall_mem_cons.mp h
      have hlen : offset + 34 ≤ plain.length := hoffset
      rw [scanOffsets, isNoBlock_eq hoffset, ok_bind, List.find?_cons]
      by_cases hblock : BlockAt plain pageNumber offset
      case neg => simpa [hblock] using ih hrest
      have hflag : index plain (offset + 26) = (.ok (plain.getD (offset + 26) 0) : Outcome Empty UInt8) := by
        rw [index_of_lt (by omega), List.getD_eq_getElem _ _ (by omega)]
      have htarget : slice plain (offset + 30) (offset + 34) =
          (.ok ((plain.drop (offset + 30)).take 4) : Outcome Empty Bytes) := by
        rw [slice_of_le (by omega) hlen, List.drop_take]
        congr 2
        omega
      simp only [hblock, decide_true, Bool.not_true, Bool.false_eq_true, if_false, hflag, htarget, ok_bind]
      rfl

def blockOffsets (plain : Bytes) : List Nat := List.range (plain.length + 1 - blockMinLen)

theorem findPageLinkMetadata_eq (plain : Bytes) (pageNumber pageCount : Nat) :
    findPageLinkMetadata plain pageNumber pageCount = .ok (
      if pageNumber < pageCount ∧ pageNumber < 2 ^ 32 then
        ((blockOffsets plain).find? (BlockAt plain (.ofNat pageNumber))).map
          (metadataAt plain (.ofNat pageNumber) pageCount)
      else none) := by
  rw [findPageLinkMetadata]
  by_cases hin : pageNumber < pageCount
  case neg => rw [if_pos (by omega), if_neg (by omega)]
  by_cases hshort : plain.length < blockMinLen
  · have hnone : blockOffsets plain = [] := by
      rw [blockOffsets, List.range_eq_nil]
      omega
    rw [if_pos (by omega), hnone, List.find?_nil, Option.map_none, ite_self]
  rw [if_neg (by omega)]
  by_cases hfits : pageNumber < 2 ^ 32
  case neg => rw [if_neg hfits, if_neg (by omega)]
  rw [if_pos hfits, if_pos ⟨hin, hfits⟩, scanOffsets_eq, blockOffsets]
  · congr 5
    omega
  · intro offset hoffset
    rw [List.mem_range] at hoffset
    omega

-- a block at offset one whose other bytes are noise
example : findPageLinkMetadata ([9, 7, 0, 0, 0, 0, 0, 8, 8] ++ f32One ++ List.replicate 12 8 ++ linkMarker ++
    [1, 0, 0, 0, 11, 0, 0, 0]) 7 12 = .ok (some ⟨1, 1, .inRange 11⟩) := by decide

/-- The bytes that a page's own block has at fixed places. -/
structure OwnBlock (plain : Bytes) (number offset : Nat) : Prop where
  fits : offset + 34 ≤ plain.length
  own_number : (plain.drop offset).take 4 = toLeBytes 4 number
  zeros : plain[offset + 4]? = some 0 ∧ plain[offset + 5]? = some 0
  one : (plain.drop (offset + 8)).take 4 = f32One
  marker : (plain.drop (offset + 24)).take 2 = linkMarker
  padding : (plain.drop (offset + 27)).take 3 = [0, 0, 0]

def IsSafeTarget (number pageCount target : Nat) : Prop := 0 < target ∧ target < pageCount ∧ target ≠ number

def rawTargetAt (plain : Bytes) (offset : Nat) : Nat := fromLeBytes ((plain.drop (offset + 30)).take 4)

structure LinkRead (plain : Bytes) (number pageCount : Nat) (metadata : PageLinkMetadata) : Prop where
  flag : plain[metadata.offset + 26]? = some metadata.linkFlag
  inRange : ∀ t, metadata.target = .inRange t ↔ metadata.linkFlag = 1 ∧
    rawTargetAt plain metadata.offset = t.toNat ∧ IsSafeTarget number pageCount t.toNat
  invalid : ∀ t, metadata.target = .invalid t ↔ metadata.linkFlag = 1 ∧
    rawTargetAt plain metadata.offset = t.toNat ∧ ¬IsSafeTarget number pageCount t.toNat
  absent : metadata.target = .absent ↔ metadata.linkFlag ≠ 1

theorem take_one_eq_iff {b : UInt8} : (plain.drop start).take 1 = [b] ↔ plain[start]? = some b := by
  rw [← List.head?_drop]
  cases plain.drop start <;> simp

theorem ownBlock_iff {number : Nat} (h : number < 2 ^ 32) :
    OwnBlock plain number offset ↔ offset + blockMinLen ≤ plain.length ∧ BlockAt plain (.ofNat number) offset := by
  have hnumber : (UInt32.ofNat number).toNat = number := UInt32.toNat_ofNat_of_lt' h
  have hparts : BlockAt plain (.ofNat number) offset ↔
      (plain.drop offset).take 4 = toLeBytes 4 number ∧ plain[offset + 4]? = some 0 ∧
      plain[offset + 5]? = some 0 ∧ (plain.drop (offset + 8)).take 4 = f32One ∧
      (plain.drop (offset + 24)).take 2 = linkMarker ∧ (plain.drop (offset + 27)).take 3 = [0, 0, 0] := by
    simp only [BlockAt, fixedParts, List.forall_mem_cons, List.not_mem_nil, false_implies, implies_true, and_true,
      hnumber, length_toLeBytes, List.length_cons, List.length_nil, Nat.zero_add, Nat.add_zero, take_one_eq_iff,
      f32One, linkMarker]
  rw [hparts]
  constructor
  · intro hown
    exact ⟨hown.fits, hown.own_number, hown.zeros.1, hown.zeros.2, hown.one, hown.marker, hown.padding⟩
  · intro ⟨hfits, hown, hzero, hzero', hone, hmarker, hpadding⟩
    exact ⟨hfits, hown, ⟨hzero, hzero'⟩, hone, hmarker, hpadding⟩

section Reads

variable {linkFlag : UInt8} {rawTarget t : UInt32}

theorem isSafeTarget_iff : IsSafeTarget pageNumber.toNat pageCount rawTarget.toNat ↔
    ¬(rawTarget = 0 ∨ rawTarget.toNat ≥ pageCount ∨ rawTarget = pageNumber) := by
  rw [IsSafeTarget, ← UInt32.toNat_inj, ← UInt32.toNat_inj, UInt32.toNat_zero]
  omega

theorem targetOf_eq_inRange_iff : targetOf linkFlag rawTarget pageNumber pageCount = .inRange t ↔
    linkFlag = 1 ∧ rawTarget = t ∧ IsSafeTarget pageNumber.toNat pageCount t.toNat := by
  rw [isSafeTarget_iff, targetOf]
  split
  · rename_i hflag
    simp [hflag]
  · rename_i hflag
    split
    · rename_i hunsafe
      refine iff_of_false nofun ?_
      rintro ⟨-, rfl, hsafe⟩
      exact hsafe hunsafe
    · rename_i hsafe
      rw [PageLinkTarget.inRange.injEq]
      constructor
      · rintro rfl
        exact ⟨not_not.mp hflag, rfl, hsafe⟩
      · intro h
        exact h.2.1

theorem targetOf_eq_invalid_iff : targetOf linkFlag rawTarget pageNumber pageCount = .invalid t ↔
    linkFlag = 1 ∧ rawTarget = t ∧ ¬IsSafeTarget pageNumber.toNat pageCount t.toNat := by
  rw [isSafeTarget_iff, not_not, targetOf]
  split
  · rename_i hflag
    simp [hflag]
  · rename_i hflag
    split
    · rename_i hunsafe
      rw [PageLinkTarget.invalid.injEq]
      constructor
      · rintro rfl
        exact ⟨not_not.mp hflag, rfl, hunsafe⟩
      · intro h
        exact h.2.1
    · rename_i hsafe
      refine iff_of_false nofun ?_
      rintro ⟨-, rfl, hunsafe⟩
      exact hsafe hunsafe

theorem targetOf_eq_absent_iff : targetOf linkFlag rawTarget pageNumber pageCount = .absent ↔ linkFlag ≠ 1 := by
  rw [targetOf]
  split
  · rename_i hflag
    exact iff_of_true rfl hflag
  · rename_i hflag
    refine iff_of_false ?_ hflag
    split <;> nofun

end Reads

theorem linkRead_metadataAt {number : Nat} (hnumber : number < 2 ^ 32) (hfits : offset + 34 ≤ plain.length) :
    LinkRead plain number pageCount (metadataAt plain (.ofNat number) pageCount offset) := by
  have hback : (UInt32.ofNat number).toNat = number := UInt32.toNat_ofNat_of_lt' hnumber
  have hraw : rawTargetAt plain offset < 2 ^ 32 := by
    refine lt_of_lt_of_le (fromLeBytes_lt _) (Nat.pow_le_pow_right (by decide) ?_)
    have : ((plain.drop (offset + 30)).take 4).length ≤ 4 := List.length_take_le ..
    omega
  have hword (t : UInt32) : UInt32.ofNat (rawTargetAt plain offset) = t ↔ rawTargetAt plain offset = t.toNat := by
    rw [← UInt32.toNat_inj, UInt32.toNat_ofNat_of_lt' hraw]
  constructor
  · change plain[offset + 26]? = some (plain.getD (offset + 26) 0)
    rw [List.getElem?_eq_getElem (by omega), List.getD_eq_getElem _ _ (by omega)]
  · intro t
    change targetOf _ _ _ _ = _ ↔ _
    rw [targetOf_eq_inRange_iff, hback, ← rawTargetAt, hword]
    rfl
  · intro t
    change targetOf _ _ _ _ = _ ↔ _
    rw [targetOf_eq_invalid_iff, hback, ← rawTargetAt, hword]
    rfl
  · exact targetOf_eq_absent_iff

theorem find_blockAt_iff {number : Nat} (h : number < 2 ^ 32) :
    (blockOffsets plain).find? (BlockAt plain (.ofNat number)) = some offset ↔
      IsLeast {o | OwnBlock plain number o} offset := by
  have hin {o : Nat} : o ∈ blockOffsets plain ↔ o + blockMinLen ≤ plain.length := by
    rw [blockOffsets, List.mem_range]
    omega
  rw [blockOffsets, List.find?_range_eq_some, ← blockOffsets, hin, decide_eq_true_eq]
  constructor
  · intro ⟨hblock, hfits, hbefore⟩
    refine ⟨(ownBlock_iff h).mpr ⟨hfits, hblock⟩, ?_⟩
    intro o ho
    by_contra hlower
    simpa [((ownBlock_iff h).mp ho).2] using hbefore o (Nat.not_le.mp hlower)
  · intro ⟨hown, hleast⟩
    obtain ⟨hfits, hblock⟩ := (ownBlock_iff h).mp hown
    refine ⟨hblock, hfits, ?_⟩
    intro o hlower
    rw [Bool.not_eq_true', decide_eq_false_iff_not]
    intro hearlier
    exact absurd (hleast ((ownBlock_iff h).mpr ⟨by omega, hearlier⟩)) (Nat.not_le.mpr hlower)

/-- The search stops at the least offset of the page's own block, and what it returns is read there. -/
theorem findPageLinkMetadata_least (plain : Bytes) (number pageCount : Nat) :
    ∃ found, findPageLinkMetadata plain number pageCount = .ok found ∧
      (∀ offset, (∃ metadata, found = some metadata ∧ metadata.offset = offset) ↔
        number < pageCount ∧ number < 2 ^ 32 ∧ IsLeast {o | OwnBlock plain number o} offset) ∧
      ∀ metadata, found = some metadata → LinkRead plain number pageCount metadata := by
  refine ⟨_, findPageLinkMetadata_eq plain number pageCount, ?_, ?_⟩
  · intro offset
    rw [← and_assoc]
    by_cases hin : number < pageCount ∧ number < 2 ^ 32
    case neg =>
      rw [if_neg hin]
      refine iff_of_false ?_ (fun h => hin h.1)
      rintro ⟨metadata, hfound, -⟩
      cases hfound
    rw [if_pos hin, and_iff_right hin, ← find_blockAt_iff hin.2]
    constructor
    · rintro ⟨metadata, hfound, rfl⟩
      obtain ⟨o, ho, rfl⟩ := Option.map_eq_some_iff.mp hfound
      exact ho
    · intro ho
      exact ⟨_, by rw [ho, Option.map_some], rfl⟩
  · intro metadata hfound
    by_cases hin : number < pageCount ∧ number < 2 ^ 32
    case neg =>
      rw [if_neg hin] at hfound
      cases hfound
    rw [if_pos hin] at hfound
    obtain ⟨o, ho, rfl⟩ := Option.map_eq_some_iff.mp hfound
    exact linkRead_metadataAt hin.2 ((find_blockAt_iff hin.2).mp ho).1.fits

theorem targetOf_inRange {linkFlag : UInt8} {rawTarget next : UInt32}
    (h : targetOf linkFlag rawTarget pageNumber pageCount = .inRange next) :
    next ≠ 0 ∧ next.toNat < pageCount ∧ next ≠ pageNumber := by
  obtain ⟨-, -, hpos, hlt, hne⟩ := targetOf_eq_inRange_iff.mp h
  refine ⟨?_, hlt, ?_⟩
  · rintro rfl
    exact absurd hpos (lt_irrefl 0)
  · rintro rfl
    exact hne rfl

end OpenSqlAny.PageLinks
