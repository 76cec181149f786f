import Mathlib.Algebra.Order.Group.Nat
import OpenSqlAny.Library.LittleEndian

namespace OpenSqlAny.PageStores

open Library.LittleEndian

def pageSize : Nat := 4096

def trailerOff : Nat := 0xFF0

def crcOff : Nat := 0xFFC

inductive StoreError
  | notPageAligned (size pageSize : Nat)
  | tooSmall (size : Nat)
  | pageOutOfRange (page total : Nat)
  deriving DecidableEq, Repr

structure PageTrailer where
  flagFf0 : UInt8
  flagFf1 : UInt8
  pageTypeRaw : UInt8
  zeroFf3 : UInt8
  lsn : UInt32
  zeroFf8 : List UInt8
  deriving DecidableEq, Repr

/-- A page borrows exactly one page of bytes. -/
structure Page where
  index : Nat
  bytes : Bytes
  length_eq : bytes.length = pageSize

def Page.trailer (page : Page) : PageTrailer :=
  let t := (page.bytes.take crcOff).drop trailerOff
  ⟨t.getD 0 0, t.getD 1 0, t.getD 2 0, t.getD 3 0,
    UInt32.ofNat (fromLeBytes [t.getD 4 0, t.getD 5 0, t.getD 6 0, t.getD 7 0]),
    [t.getD 8 0, t.getD 9 0, t.getD 10 0, t.getD 11 0]⟩

theorem Page.trailer_byte (page : Page) {i : Nat} (h : i < 12) :
    ((page.bytes.take crcOff).drop trailerOff).getD i 0 = page.bytes.getD (trailerOff + i) 0 := by
  have hfooter : trailerOff + i < crcOff := by
    rw [trailerOff, crcOff]
    omega
  rw [List.getD_eq_getElem?_getD, List.getElem?_drop, List.getElem?_take_of_lt hfooter,
    List.getD_eq_getElem?_getD]

inductive PageError
  | badCrc (page : Nat) (stored computed : UInt32)
  | badTrailer (page : Nat)
  deriving DecidableEq, Repr

def Page.storedCrc (page : Page) : UInt32 :=
  UInt32.ofNat (fromLeBytes [page.bytes.getD crcOff 0, page.bytes.getD (crcOff + 1) 0,
    page.bytes.getD (crcOff + 2) 0, page.bytes.getD (crcOff + 3) 0])

/-- The CRC-32 of the page, for any function in the place of the checksum's. -/
def Page.computedCrc (hash : Bytes → UInt32) (page : Page) : UInt32 := hash (page.bytes.take crcOff)

def Page.verifyCrc (hash : Bytes → UInt32) (page : Page) : Except PageError Unit :=
  let stored := page.storedCrc
  let computed := page.computedCrc hash
  if stored = computed then .ok () else .error (.badCrc page.index stored computed)

def Page.verifyTrailer (page : Page) : Except PageError Unit :=
  let t := page.trailer
  if t.zeroFf3 = 0 ∧ t.zeroFf8 = [0, 0, 0, 0] then .ok () else .error (.badTrailer page.index)

/-- The last field is what Rust promises of every vector of bytes. -/
structure PageStore where
  bytes : Bytes
  pageSize_le : pageSize ≤ bytes.length
  aligned : pageSize ∣ bytes.length
  fits : bytes.length < 2 ^ 63

def PageStore.fromBytes (bytes : Bytes) (fits : bytes.length < 2 ^ 63) : Except StoreError PageStore :=
  if hsmall : bytes.length < pageSize then .error (.tooSmall bytes.length)
  else if haligned : pageSize ∣ bytes.length then .ok ⟨bytes, Nat.le_of_not_lt hsmall, haligned, fits⟩
  else .error (.notPageAligned bytes.length pageSize)

def PageStore.pageCount (store : PageStore) : Nat := store.bytes.length / pageSize

theorem PageStore.page_end_le (store : PageStore) {index : Nat} (h : index < store.pageCount) :
    index * pageSize + pageSize ≤ store.bytes.length := by
  have hcount : store.pageCount * pageSize ≤ store.bytes.length := Nat.div_mul_le_self _ _
  have hnext : (index + 1) * pageSize ≤ store.pageCount * pageSize := Nat.mul_le_mul_right _ h
  rw [Nat.add_mul, Nat.one_mul] at hnext
  omega

def PageStore.pageBytes (store : PageStore) (index : Nat) : Bytes :=
  (store.bytes.take (index * pageSize + pageSize)).drop (index * pageSize)

theorem PageStore.length_pageBytes (store : PageStore) {index : Nat} (h : index < store.pageCount) :
    (store.pageBytes index).length = pageSize := by
  have hend := store.page_end_le h
  rw [pageBytes, List.length_drop, List.length_take]
  omega

def PageStore.page (store : PageStore) (index : Nat) : Except StoreError Page :=
  if h : index ≥ store.pageCount then .error (.pageOutOfRange index store.pageCount)
  else .ok ⟨index, store.pageBytes index, store.length_pageBytes (Nat.lt_of_not_le h)⟩

structure Pages where
  store : PageStore
  next : Nat

def Pages.step (pages : Pages) : Option (Page × Pages) :=
  if pages.next ≥ pages.store.pageCount then none
  else
    match pages.store.page pages.next with
    | .error _ => none
    | .ok page => some (page, { pages with next := pages.next + 1 })

theorem Pages.step_eq_some {pages rest : Pages} {page : Page} (h : pages.step = some (page, rest)) :
    pages.next < pages.store.pageCount ∧ rest = { pages with next := pages.next + 1 } := by
  rw [step] at h
  split at h
  · cases h
  · rename_i hnext
    split at h
    · cases h
    · cases h
      exact ⟨Nat.lt_of_not_le hnext, rfl⟩

def Pages.collect (pages : Pages) : List Page :=
  match _h : pages.step with
  | none => []
  | some (page, rest) => page :: rest.collect
termination_by pages.store.pageCount - pages.next
decreasing_by
  obtain ⟨hnext, rfl⟩ := Pages.step_eq_some _h
  change pages.store.pageCount - (pages.next + 1) < pages.store.pageCount - pages.next
  omega

def PageStore.pages (store : PageStore) : List Page := Pages.collect ⟨store, 0⟩

section Lookups

variable {store : PageStore} {index : Nat}

theorem PageStore.page_of_lt (h : index < store.pageCount) :
    store.page index = .ok ⟨index, store.pageBytes index, store.length_pageBytes h⟩ := by
  rw [page, dif_neg (Nat.not_le.mpr h)]

theorem PageStore.page_eq_ok_iff {page : Page} :
    store.page index = .ok page ↔
      index < store.pageCount ∧ page.index = index ∧ page.bytes = store.pageBytes index := by
  obtain ⟨i, bytes, hlength⟩ := page
  by_cases h : index < store.pageCount
  · rw [page_of_lt h, Except.ok.injEq, Page.mk.injEq]
    constructor
    · rintro ⟨rfl, rfl⟩
      exact ⟨h, rfl, rfl⟩
    · rintro ⟨-, hindex, hbytes⟩
      exact ⟨hindex.symm, hbytes.symm⟩
  · rw [PageStore.page, dif_pos (Nat.le_of_not_lt h)]
    simp [h]

theorem Pages.collect_of_le (h : store.pageCount ≤ index) : Pages.collect ⟨store, index⟩ = [] := by
  have hstep : Pages.step ⟨store, index⟩ = none := if_pos h
  rw [Pages.collect]
  split
  · rfl
  · rename_i hsome
    rw [hstep] at hsome
    cases hsome

theorem Pages.collect_of_lt (h : index < store.pageCount) :
    Pages.collect ⟨store, index⟩ =
      ⟨index, store.pageBytes index, store.length_pageBytes h⟩ :: Pages.collect ⟨store, index + 1⟩ := by
  have hstep : Pages.step ⟨store, index⟩ =
      some (⟨index, store.pageBytes index, store.length_pageBytes h⟩, ⟨store, index + 1⟩) := by
    rw [Pages.step, if_neg (Nat.not_le.mpr h)]
    simp only [PageStore.page_of_lt h]
  rw [Pages.collect]
  split
  · rename_i hnone
    rw [hstep] at hnone
    cases hnone
  · rename_i page rest hsome
    rw [hstep] at hsome
    cases hsome
    rfl

theorem PageStore.map_pages {α : Type} (store : PageStore) (f : Page → α) (g : Nat → Bytes → α)
    (hf : ∀ page, f page = g page.index page.bytes) :
    store.pages.map f = (List.range store.pageCount).map (fun i => g i (store.pageBytes i)) := by
  have hsuffix : ∀ n, n ≤ store.pageCount →
      (Pages.collect ⟨store, store.pageCount - n⟩).map f =
        (List.range' (store.pageCount - n) n).map (fun i => g i (store.pageBytes i)) := by
    intro n
    induction n with
    | zero =>
        intro _
        rw [Pages.collect_of_le (by omega)]
        rfl
    | succ n ih =>
        intro hn
        rw [Pages.collect_of_lt (by omega), List.map_cons, hf, List.range'_succ, List.map_cons,
          show store.pageCount - (n + 1) + 1 = store.pageCount - n by omega, ih (by omega)]
  have h := hsuffix store.pageCount le_rfl
  rw [Nat.sub_self] at h
  rw [pages, h, List.range_eq_range']

def PageStore.ofPage (bytes : Bytes) (h : bytes.length = pageSize) : PageStore :=
  ⟨bytes, h.ge, Dvd.intro 1 (by rw [h, Nat.mul_one]), by rw [h]; decide⟩

variable {bytes : Bytes} (h : bytes.length = pageSize)

theorem PageStore.pageCount_ofPage : (PageStore.ofPage bytes h).pageCount = 1 := by
  rw [pageCount, ofPage, h]
  rfl

theorem PageStore.pageBytes_ofPage : (PageStore.ofPage bytes h).pageBytes 0 = bytes := by
  rw [pageBytes, ofPage, Nat.zero_mul, Nat.zero_add, List.drop_zero, ← h, List.take_length]

theorem PageStore.page_ofPage : (PageStore.ofPage bytes h).page 0 = .ok ⟨0, bytes, h⟩ := by
  apply PageStore.page_eq_ok_iff.mpr
  refine ⟨?_, rfl, (pageBytes_ofPage h).symm⟩
  rw [pageCount_ofPage]
  exact Nat.one_pos

end Lookups

section ManyPages

variable {page : Nat → Bytes} {n : Nat}

theorem flatMap_range_split {α : Type} (f : Nat → List α) {i : Nat} (hi : i < n) :
    (List.range n).flatMap f =
      (List.range i).flatMap f ++ f i ++ ((List.range (n - (i + 1))).map (i + 1 + ·)).flatMap f := by
  rw [← List.flatMap_singleton f i, ← List.flatMap_append, ← List.range_succ, ← List.flatMap_append,
    ← List.range_add, Nat.add_sub_cancel' (show i + 1 ≤ n from hi)]

theorem length_flatMap_pages (hlen : ∀ i, (page i).length = pageSize) (k : Nat) :
    ((List.range k).flatMap page).length = k * pageSize := by
  induction k with
  | zero => simp
  | succ k ih =>
      rw [List.range_succ, List.flatMap_append, List.length_append, ih, List.flatMap_singleton, hlen,
        Nat.add_mul, Nat.one_mul]

def PageStore.ofPages (page : Nat → Bytes) (hlen : ∀ i, (page i).length = pageSize) (n : Nat) (hpos : 0 < n)
    (hfits : n * pageSize < 2 ^ 63) : PageStore where
  bytes := (List.range n).flatMap page
  pageSize_le := by
    rw [length_flatMap_pages hlen]
    exact Nat.le_mul_of_pos_left pageSize hpos
  aligned := by
    rw [length_flatMap_pages hlen]
    exact Nat.dvd_mul_left pageSize n
  fits := by rwa [length_flatMap_pages hlen]

variable (hlen : ∀ i, (page i).length = pageSize) (hpos : 0 < n) (hfits : n * pageSize < 2 ^ 63)

theorem PageStore.pageCount_ofPages : (PageStore.ofPages page hlen n hpos hfits).pageCount = n := by
  rw [pageCount, ofPages, length_flatMap_pages hlen]
  exact Nat.mul_div_cancel n (by decide)

theorem PageStore.pageBytes_ofPages {i : Nat} (hi : i < n) :
    (PageStore.ofPages page hlen n hpos hfits).pageBytes i = page i := by
  have hsplit := flatMap_range_split page hi
  have hshort := length_flatMap_pages hlen i
  have hlong : ((List.range i).flatMap page ++ page i).length = i * pageSize + pageSize := by
    rw [List.length_append, hshort, hlen]
  change (((List.range n).flatMap page).take (i * pageSize + pageSize)).drop (i * pageSize) = page i
  rw [hsplit, ← hlong, List.take_left, List.drop_left' hshort]

end ManyPages

end OpenSqlAny.PageStores
