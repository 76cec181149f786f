import OpenSqlAny.Library.Windows
import OpenSqlAny.StoreSnapshots
import OpenSqlAny.PageIteration

namespace OpenSqlAny.Superblocks

open Library.Faults Library.LittleEndian Library.Windows PageStores PageIteration

def saMagic : UInt32 := 0xDA7ABA5E

def saCopyrightMarker : Bytes := "SAP SE, Copyright (c)2015 17.0.4.".toList.map fun c => UInt8.ofNat c.toNat

structure Superblock where
  flags06 : UInt8
  currentLsn : UInt32
  formatMajor : UInt32
  magic : UInt32
  versionA : UInt16
  versionB : UInt16
  pageCountHint : UInt32
  saMarkerPresent : Bool
  deriving DecidableEq, Repr

def memmem (haystack needle : Bytes) : Option Nat :=
  if needle.isEmpty ∨ haystack.length < needle.length then none
  else (windows needle.length haystack).findIdx? fun w => w = needle

variable {ε : Type}

def u32At (page0 : Bytes) (lo hi : Nat) : Outcome ε UInt32 := do
  let bytes ← slice page0 lo hi
  .ok (UInt32.ofNat (fromLeBytes bytes))

def u16At (page0 : Bytes) (lo hi : Nat) : Outcome ε UInt16 := do
  let bytes ← slice page0 lo hi
  .ok (UInt16.ofNat (fromLeBytes bytes))

def Superblock.parse (page0 : Bytes) : Outcome ε Superblock := do
  if page0.length ≠ pageSize then panicked
  let flags06 ← index page0 0x06
  let currentLsn ← u32At page0 0x08 0x0C
  let formatMajor ← u32At page0 0x10 0x14
  let magic ← u32At page0 0x14 0x18
  let versionA ← u16At page0 0x18 0x1A
  let versionB ← u16At page0 0x1A 0x1C
  let pageCountHint ← u32At page0 0x1C 0x20
  let saMarkerPresent := (memmem page0 saCopyrightMarker).isSome
  .ok { flags06, currentLsn, formatMajor, magic, versionA, versionB, pageCountHint, saMarkerPresent }

def Superblock.magicOk (sb : Superblock) : Bool := sb.magic = saMagic

inductive SuperblockError
  | store (error : StoreError)
  | badMagic (got want : UInt32)
  deriving DecidableEq, Repr

def trySuperblock (store : PageStore) : Outcome SuperblockError Superblock :=
  match store.page 0 with
  | .error e => fail (.store e)
  | .ok page0 => Superblock.parse page0.bytes

def superblock (store : PageStore) : Outcome SuperblockError Superblock := do
  let sb ← trySuperblock store
  if sb.magicOk then .ok sb else fail (.badMagic sb.magic saMagic)

structure IsSuperblock (page0 : Bytes) (sb : Superblock) : Prop where
  flags06 : page0[0x06]? = some sb.flags06
  currentLsn : (page0.take 0x0C).drop 0x08 = toLeBytes 4 sb.currentLsn.toNat
  formatMajor : (page0.take 0x14).drop 0x10 = toLeBytes 4 sb.formatMajor.toNat
  magic : (page0.take 0x18).drop 0x14 = toLeBytes 4 sb.magic.toNat
  versionA : (page0.take 0x1A).drop 0x18 = toLeBytes 2 sb.versionA.toNat
  versionB : (page0.take 0x1C).drop 0x1A = toLeBytes 2 sb.versionB.toNat
  pageCountHint : (page0.take 0x20).drop 0x1C = toLeBytes 4 sb.pageCountHint.toNat
  marker : sb.saMarkerPresent = true ↔ saCopyrightMarker <:+: page0

section Fields

variable {page0 haystack needle bytes : Bytes} {lo hi i : Nat}

theorem memmem_eq_some_iff :
    memmem haystack needle = some i ↔
      needle ≠ [] ∧ needle <+: haystack.drop i ∧ ∀ j < i, ¬ needle <+: haystack.drop j := by
  rw [memmem]
  by_cases hempty : needle = []
  · simp [hempty]
  · rw [← findIdx?_windows_eq_some_iff hempty]
    split
    · rename_i hshort
      have hlength : haystack.length < needle.length := by simpa [hempty] using hshort
      have hnone : windows needle.length haystack = [] := by
        rw [windows, Nat.sub_eq_zero_of_le hlength]
        rfl
      simp [hnone]
    · simp [hempty]

theorem isSome_memmem_iff (hne : needle ≠ []) : (memmem haystack needle).isSome = true ↔ needle <:+: haystack := by
  rw [← isSome_findIdx?_windows_iff hne, Option.isSome_iff_exists, Option.isSome_iff_exists]
  apply exists_congr
  intro i
  rw [memmem_eq_some_iff, findIdx?_windows_eq_some_iff hne, and_iff_right hne]

theorem u32_eq_iff {v : UInt32} (h : bytes.length = 4) :
    UInt32.ofNat (fromLeBytes bytes) = v ↔ bytes = toLeBytes 4 v.toNat := by
  have hlt : fromLeBytes bytes < 2 ^ 32 := by
    have hlt := fromLeBytes_lt bytes
    rwa [h] at hlt
  rw [← UInt32.toNat_inj, UInt32.toNat_ofNat', Nat.mod_eq_of_lt hlt, fromLeBytes_eq_iff, h]
  exact and_iff_right v.toNat_lt

theorem u16_eq_iff {v : UInt16} (h : bytes.length = 2) :
    UInt16.ofNat (fromLeBytes bytes) = v ↔ bytes = toLeBytes 2 v.toNat := by
  have hlt : fromLeBytes bytes < 2 ^ 16 := by
    have hlt := fromLeBytes_lt bytes
    rwa [h] at hlt
  rw [← UInt16.toNat_inj, UInt16.toNat_ofNat', Nat.mod_eq_of_lt hlt, fromLeBytes_eq_iff, h]
  exact and_iff_right v.toNat_lt

theorem u32At_eq (h : hi ≤ page0.length) (hlo : lo ≤ hi) :
    u32At (ε := ε) page0 lo hi = .ok (UInt32.ofNat (fromLeBytes ((page0.take hi).drop lo))) := by
  rw [u32At, slice_of_le hlo h, ok_bind]

theorem u16At_eq (h : hi ≤ page0.length) (hlo : lo ≤ hi) :
    u16At (ε := ε) page0 lo hi = .ok (UInt16.ofNat (fromLeBytes ((page0.take hi).drop lo))) := by
  rw [u16At, slice_of_le hlo h, ok_bind]

theorem length_window (h : hi ≤ page0.length) : ((page0.take hi).drop lo).length = hi - lo := by
  rw [List.length_drop, List.length_take_of_le h]

def superblockOf (page0 : Bytes) : Superblock where
  flags06 := page0.getD 0x06 0
  currentLsn := UInt32.ofNat (fromLeBytes ((page0.take 0x0C).drop 0x08))
  formatMajor := UInt32.ofNat (fromLeBytes ((page0.take 0x14).drop 0x10))
  magic := UInt32.ofNat (fromLeBytes ((page0.take 0x18).drop 0x14))
  versionA := UInt16.ofNat (fromLeBytes ((page0.take 0x1A).drop 0x18))
  versionB := UInt16.ofNat (fromLeBytes ((page0.take 0x1C).drop 0x1A))
  pageCountHint := UInt32.ofNat (fromLeBytes ((page0.take 0x20).drop 0x1C))
  saMarkerPresent := (memmem page0 saCopyrightMarker).isSome

theorem le_length (h : page0.length = pageSize) (hhi : hi ≤ 0x20) : hi ≤ page0.length := by
  rw [h, pageSize]
  omega

theorem parse_of_length (h : page0.length = pageSize) :
    Superblock.parse (ε := ε) page0 = .ok (superblockOf page0) := by
  have hlt : 0x06 < page0.length := le_length h (by decide)
  have hflags : index (ε := ε) page0 0x06 = .ok (page0.getD 0x06 0) := by
    rw [index_eq_ok_iff, List.getD_eq_getElem?_getD, List.getElem?_eq_getElem hlt, Option.getD_some]
  rw [Superblock.parse, if_neg (not_not.mpr h), hflags,
    u32At_eq (le_length h (by decide)) (by decide), u32At_eq (le_length h (by decide)) (by decide),
    u32At_eq (le_length h (by decide)) (by decide), u16At_eq (le_length h (by decide)) (by decide),
    u16At_eq (le_length h (by decide)) (by decide), u32At_eq (le_length h (by decide)) (by decide)]
  rfl

theorem superblockOf_eq_iff {sb : Superblock} (h : page0.length = pageSize) :
    superblockOf page0 = sb ↔ IsSuperblock page0 sb := by
  obtain ⟨flags06, currentLsn, formatMajor, magic, versionA, versionB, pageCountHint, saMarkerPresent⟩ := sb
  have hflags : page0.getD 0x06 0 = flags06 ↔ page0[0x06]? = some flags06 := by
    have hlt : 0x06 < page0.length := le_length h (by decide)
    rw [List.getD_eq_getElem?_getD, List.getElem?_eq_getElem hlt, Option.getD_some, Option.some_inj]
  have hmarker : (memmem page0 saCopyrightMarker).isSome = saMarkerPresent ↔
      (saMarkerPresent = true ↔ saCopyrightMarker <:+: page0) := by
    rw [← isSome_memmem_iff (by decide)]
    cases saMarkerPresent with
    | false => simp
    | true => simp
  rw [superblockOf, Superblock.mk.injEq, hflags, hmarker, u32_eq_iff (length_window (le_length h (by decide))),
    u32_eq_iff (length_window (le_length h (by decide))), u32_eq_iff (length_window (le_length h (by decide))),
    u16_eq_iff (length_window (le_length h (by decide))), u16_eq_iff (length_window (le_length h (by decide))),
    u32_eq_iff (length_window (le_length h (by decide)))]
  constructor
  · rintro ⟨h1, h2, h3, h4, h5, h6, h7, h8⟩
    exact ⟨h1, h2, h3, h4, h5, h6, h7, h8⟩
  · intro h
    exact ⟨h.flags06, h.currentLsn, h.formatMajor, h.magic, h.versionA, h.versionB, h.pageCountHint, h.marker⟩

end Fields

section Stores

variable {store : PageStore} {sb : Superblock}

theorem page_zero (store : PageStore) : ∃ page0, store.page 0 = .ok page0 ∧ page0.bytes = store.bytes.take pageSize := by
  refine ⟨_, PageStore.page_of_lt (pageCount_pos store), ?_⟩
  change store.pageBytes 0 = _
  rw [PageStore.pageBytes, Nat.zero_mul, Nat.zero_add, List.drop_zero]

/-- The magic is not looked at: there is a superblock in every store. -/
theorem trySuperblock_eq (store : PageStore) : trySuperblock store = .ok (superblockOf (store.bytes.take pageSize)) := by
  obtain ⟨page0, hpage, hbytes⟩ := page_zero store
  simp only [trySuperblock, hpage]
  rw [parse_of_length page0.length_eq, hbytes]

theorem superblock_eq (store : PageStore) :
    superblock store =
      if (superblockOf (store.bytes.take pageSize)).magic = saMagic then .ok (superblockOf (store.bytes.take pageSize))
      else fail (.badMagic (superblockOf (store.bytes.take pageSize)).magic saMagic) := by
  rw [superblock, trySuperblock_eq, ok_bind]
  simp only [Superblock.magicOk, decide_eq_true_eq]

theorem isSuperblock_iff : IsSuperblock (store.bytes.take pageSize) sb ↔ superblockOf (store.bytes.take pageSize) = sb :=
  (superblockOf_eq_iff (List.length_take_of_le store.pageSize_le)).symm

theorem magic_eq_iff {got : UInt32} :
    (superblockOf (store.bytes.take pageSize)).magic = got ↔
      (store.bytes.take 0x18).drop 0x14 = toLeBytes 4 got.toNat := by
  have hroom : 0x18 ≤ store.bytes.length := le_trans (by decide) store.pageSize_le
  have hcut : (store.bytes.take pageSize).take 0x18 = store.bytes.take 0x18 := by
    rw [List.take_take, Nat.min_eq_left (by decide)]
  rw [superblockOf, hcut, u32_eq_iff (length_window hroom)]

end Stores

/-- A store has one superblock, that of the bytes of its first page; it is given out if these have the magic,
and otherwise the error says what they have. -/
theorem superblock_spec (store : PageStore) :
    (∃ sb, trySuperblock store = .ok sb) ∧
    (∀ sb, trySuperblock store = .ok sb ↔ IsSuperblock (store.bytes.take 4096) sb) ∧
    (∀ sb, superblock store = .ok sb ↔
      IsSuperblock (store.bytes.take 4096) sb ∧ (store.bytes.take 0x18).drop 0x14 = [0x5E, 0xBA, 0x7A, 0xDA]) ∧
    ∀ fault, superblock store = .error fault ↔ ∃ got, fault = .err (.badMagic got saMagic) ∧ got ≠ saMagic ∧
      (store.bytes.take 0x18).drop 0x14 = toLeBytes 4 got.toNat := by
  have hmagic : [0x5E, 0xBA, 0x7A, 0xDA] = toLeBytes 4 saMagic.toNat := by decide
  refine ⟨⟨_, trySuperblock_eq store⟩, ?_, ?_, ?_⟩
  · intro sb
    rw [trySuperblock_eq, Except.ok.injEq]
    exact isSuperblock_iff.symm
  · intro sb
    rw [superblock_eq, hmagic, ← magic_eq_iff]
    change _ ↔ IsSuperblock (store.bytes.take pageSize) sb ∧ _
    rw [isSuperblock_iff]
    split
    · rename_i hok
      rw [Except.ok.injEq, and_iff_left hok]
    · rename_i hbad
      simp [fail, hbad]
  · intro fault
    simp only [← magic_eq_iff]
    rw [superblock_eq]
    split
    · rename_i hok
      simp [hok]
    · rename_i hbad
      simp [fail, hbad, eq_comm]

end OpenSqlAny.Superblocks
