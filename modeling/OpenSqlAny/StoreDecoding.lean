import OpenSqlAny.ApPages
import OpenSqlAny.PageLinkWalks

namespace OpenSqlAny.StoreDecoding

open Library.LittleEndian Library.HashEntries PageStores ApFill ApPages PageLinks PageLinkWalks

/-- A plaintext page most of whose bytes are zero in every sector. -/
structure PlainPage where
  body : Bytes
  trailer : Bytes
  length_body : body.length = trailerStart
  length_trailer : trailer.length = pageSize - trailerStart
  sparse : SparsePage body

def PlainPage.bytes (page : PlainPage) : Bytes := page.body ++ page.trailer

def PlainPage.ofBytes (bytes : Bytes) (hlength : bytes.length = pageSize)
    (hsparse : SparsePage (bytes.take trailerStart)) : PlainPage where
  body := bytes.take trailerStart
  trailer := bytes.drop trailerStart
  length_body := by
    rw [List.length_take_of_le]
    rw [hlength]
    decide
  length_trailer := by rw [List.length_drop, hlength]
  sparse := hsparse

theorem PlainPage.bytes_ofBytes {bytes : Bytes} (hlength : bytes.length = pageSize)
    (hsparse : SparsePage (bytes.take trailerStart)) : (ofBytes bytes hlength hsparse).bytes = bytes :=
  List.take_append_drop trailerStart bytes

structure Database where
  page : Nat → PlainPage
  count : Nat
  count_pos : 0 < count
  fits : count * pageSize < 2 ^ 63

/-- A calibration byte for each page, and a step for each of its sectors. -/
structure PageKeys where
  bv : Nat → UInt8
  steps : Nat → Nat → UInt8

instance : Inhabited PlainPage := ⟨zeroBody, pureTrailer, List.length_replicate, length_pureTrailer, sparsePage_zeroBody⟩

instance : Inhabited Database := ⟨fun _ => default, 1, Nat.one_pos, by decide⟩

def storedPage (database : Database) (keys : PageKeys) (pn : Nat) : Bytes :=
  encodePage pn (keys.bv pn) (keys.steps pn) (database.page pn).body (database.page pn).trailer

theorem PlainPage.length_bytes (page : PlainPage) : page.bytes.length = pageSize := by
  rw [bytes, List.length_append, page.length_body, page.length_trailer]
  rfl

theorem length_storedPage (database : Database) (keys : PageKeys) (pn : Nat) :
    (storedPage database keys pn).length = pageSize :=
  encodePage_size (database.page pn).length_body (database.page pn).length_trailer

def Database.plainStore (database : Database) : PageStore :=
  .ofPages (fun pn => (database.page pn).bytes) (fun pn => (database.page pn).length_bytes) database.count
    database.count_pos database.fits

def Database.storedUnder (database : Database) (keys : PageKeys) : PageStore :=
  .ofPages (storedPage database keys) (length_storedPage database keys) database.count database.count_pos database.fits

def pageFromBytes (index : Nat) (bytes : Bytes) : Option Page :=
  if h : pageSize ≤ bytes.length then some ⟨index, bytes.take pageSize, List.length_take_of_le h⟩ else none

/-- A page of the store without its fill; its hash map has an order that depends on the page only. -/
def peelPage (model : ApModel) (orders : Nat → HashOrder UInt8 Nat) (store : PageStore) (page : Page) : Option Page :=
  match model.deobfuscateWithStore (orders page.index) page.bytes page.index store with
  | none => none
  | some plain => pageFromBytes page.index plain

def peelPages (model : ApModel) (orders : Nat → HashOrder UInt8 Nat) (store : PageStore) : Option (List Page) :=
  store.pages.mapM (peelPage model orders store)

/-- The lookup of a link walk over a store, which takes the fill off each page that it reads. -/
def peeledLinks (model : ApModel) (orders : Nat → HashOrder UInt8 Nat) (store : PageStore) (pn : UInt32) :
    Option PageLinkMetadata :=
  match store.page pn.toNat with
  | .error _ => none
  | .ok page =>
      match peelPage model orders store page with
      | none => none
      | some plain =>
          match findPageLinkMetadata plain.bytes pn.toNat store.pageCount with
          | .error _ => none
          | .ok found => found

def plainLinks (store : PageStore) (pn : UInt32) : Option PageLinkMetadata :=
  match store.page pn.toNat with
  | .error _ => none
  | .ok page =>
      match findPageLinkMetadata page.bytes pn.toNat store.pageCount with
      | .error _ => none
      | .ok found => found

section Opening

variable {database : Database} {keys : PageKeys} {model : ApModel} {orders : Nat → HashOrder UInt8 Nat} {pn : Nat}

theorem pageCount_plainStore : database.plainStore.pageCount = database.count :=
  PageStore.pageCount_ofPages _ _ _

theorem pageCount_storedUnder : (database.storedUnder keys).pageCount = database.count :=
  PageStore.pageCount_ofPages _ _ _

theorem pageBytes_plainStore (h : pn < database.count) : database.plainStore.pageBytes pn = (database.page pn).bytes :=
  PageStore.pageBytes_ofPages _ _ _ h

theorem pageBytes_storedUnder (h : pn < database.count) :
    (database.storedUnder keys).pageBytes pn = storedPage database keys pn :=
  PageStore.pageBytes_ofPages _ _ _ h

theorem pageFromBytes_of_length {bytes : Bytes} (h : bytes.length = pageSize) :
    pageFromBytes pn bytes = some ⟨pn, bytes, h⟩ := by
  rw [pageFromBytes, dif_pos h.ge]
  simp only [Option.some.injEq, Page.mk.injEq, true_and]
  rw [← h, List.take_length]

theorem peelPage_stored (h : pn < database.count) {stored plain : Page}
    (hstored : (database.storedUnder keys).page pn = .ok stored) (hplain : database.plainStore.page pn = .ok plain) :
    peelPage model orders (database.storedUnder keys) stored = some plain := by
  obtain ⟨-, hindex, hbytes⟩ := PageStore.page_eq_ok_iff.mp hstored
  obtain ⟨-, hindex', hbytes'⟩ := PageStore.page_eq_ok_iff.mp hplain
  rw [pageBytes_storedUnder h] at hbytes
  rw [pageBytes_plainStore h] at hbytes'
  have hpeeled := deobfuscateWithStore_of_encoded model (orders pn) hstored (database.page pn).length_body
    (database.page pn).length_trailer (database.page pn).sparse hbytes
  rw [peelPage, hindex, hpeeled]
  change pageFromBytes pn (database.page pn).bytes = _
  rw [pageFromBytes_of_length (database.page pn).length_bytes, Option.some.injEq]
  obtain ⟨index, bytes, hlength⟩ := plain
  simp only at hindex' hbytes'
  subst hindex' hbytes'
  rfl

theorem peelPages_from (n : Nat) (hn : n ≤ database.count) :
    (Pages.collect ⟨database.storedUnder keys, database.count - n⟩).mapM
        (peelPage model orders (database.storedUnder keys)) =
      some (Pages.collect ⟨database.plainStore, database.count - n⟩) := by
  induction n with
  | zero =>
      rw [Nat.sub_zero, Pages.collect_of_le pageCount_storedUnder.le, Pages.collect_of_le pageCount_plainStore.le]
      rfl
  | succ n ih =>
      have hpn : database.count - (n + 1) < database.count := by omega
      have hin : database.count - (n + 1) < (database.storedUnder keys).pageCount := pageCount_storedUnder ▸ hpn
      have hin' : database.count - (n + 1) < database.plainStore.pageCount := pageCount_plainStore ▸ hpn
      rw [Pages.collect_of_lt hin, Pages.collect_of_lt hin', List.mapM_cons,
        peelPage_stored hpn (PageStore.page_of_lt hin) (PageStore.page_of_lt hin'),
        show database.count - (n + 1) + 1 = database.count - n by omega, ih (by omega)]
      rfl

theorem peeledLinks_stored :
    peeledLinks model orders (database.storedUnder keys) = plainLinks database.plainStore := by
  funext pn
  rw [peeledLinks, plainLinks, pageCount_storedUnder, pageCount_plainStore]
  by_cases h : pn.toNat < database.count
  · have hstored := PageStore.page_of_lt ((@pageCount_storedUnder database keys).symm ▸ h)
    have hplain := PageStore.page_of_lt ((@pageCount_plainStore database).symm ▸ h)
    rw [hstored, hplain]
    simp only [peelPage_stored h hstored hplain]
  · rw [PageStore.page, PageStore.page, dif_pos (pageCount_storedUnder ▸ Nat.le_of_not_lt h),
      dif_pos (pageCount_plainStore ▸ Nat.le_of_not_lt h)]

end Opening

/-- A database of sparse pages opens, whatever its keys are and whatever has been learned, page by
page to the plaintext, and page links lead through it as they do through the plaintext. -/
theorem stored_database_opens (database : Database) (keys : PageKeys) (model : ApModel)
    (orders : Nat → HashOrder UInt8 Nat) :
    peelPages model orders (database.storedUnder keys) = some database.plainStore.pages ∧
    ∀ start maxPages, walkOf (peeledLinks model orders (database.storedUnder keys)) start maxPages =
      walkOf (plainLinks database.plainStore) start maxPages := by
  refine ⟨?_, fun start maxPages => by rw [peeledLinks_stored]⟩
  have h := @peelPages_from database keys model orders database.count le_rfl
  rwa [Nat.sub_self] at h

end OpenSqlAny.StoreDecoding
