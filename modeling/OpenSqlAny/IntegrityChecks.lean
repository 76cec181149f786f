import OpenSqlAny.PageIteration
import OpenSqlAny.StoreSnapshots

namespace OpenSqlAny.IntegrityChecks

open Library.Faults Library.LittleEndian PageStores PageIteration StoreSnapshots

def isErr {ε α : Type} : Except ε α → Bool
  | .ok _ => false
  | .error _ => true

structure Inspection where
  histogram : UInt8 → Nat
  crcFailures : List Nat
  trailerFailures : List Nat

def pushIf (fails : Page → Bool) (failures : List Nat) (page : Page) : List Nat :=
  if fails page then failures ++ [page.index] else failures

def inspectPage (hash : Bytes → UInt32) (verifyCrc : Bool) (seen : Inspection) (page : Page) : Inspection where
  histogram byte :=
    if page.index ≠ 0 ∧ byte = page.trailer.pageTypeRaw then seen.histogram byte + 1 else seen.histogram byte
  trailerFailures := pushIf (fun page => isErr page.verifyTrailer) seen.trailerFailures page
  crcFailures := pushIf (fun page => verifyCrc && isErr (page.verifyCrc hash)) seen.crcFailures page

def inspectPages (hash : Bytes → UInt32) (verifyCrc : Bool) (store : PageStore) : Inspection :=
  store.pages.foldl (inspectPage hash verifyCrc) ⟨fun _ => 0, [], []⟩

inductive InspectError
  | store (error : StoreError)
  | integrity (message : String)
  deriving DecidableEq, Repr

def inspect (hash : Bytes → UInt32) (verifyCrc : Bool) (store : PageStore) : Except InspectError Inspection :=
  -- of the superblock, which is only printed, it matters that page 0 is there
  match store.page 0 with
  | .error e => .error (.store e)
  | .ok _ =>
      let seen := inspectPages hash verifyCrc store
      let integrityFailures := seen.crcFailures.length + seen.trailerFailures.length
      if integrityFailures ≠ 0 then
        .error (.integrity ("integrity verification found " ++ toString integrityFailures ++ " failure(s)" ++
          if verifyCrc then " (CRC and trailer checks)"
          else " (trailer checks; pass --verify-crc to check CRCs too)"))
      else .ok seen

section Checks

variable {hash : Bytes → UInt32} {store : PageStore} {pn : Nat}

def reservedOffsets : List Nat := [0xFF3, 0xFF8, 0xFF9, 0xFFA, 0xFFB]

def ReservedNonzero (store : PageStore) (pn : Nat) : Prop :=
  ∃ offset ∈ reservedOffsets, ∃ b, store.bytes[pn * 4096 + offset]? = some b ∧ b ≠ 0

def FooterDiffers (hash : Bytes → UInt32) (store : PageStore) (pn : Nat) : Prop :=
  fromLeBytes ((store.bytes.drop (pn * 4096 + 0xFFC)).take 4) ≠
    (hash ((store.bytes.drop (pn * 4096)).take 0xFFC)).toNat

theorem isErr_verifyTrailer_iff (page : Page) :
    isErr page.verifyTrailer = true ↔ ∃ offset ∈ reservedOffsets, page.bytes.getD offset 0 ≠ 0 := by
  rw [Page.verifyTrailer, Page.trailer]
  simp only [page.trailer_byte (show 3 < 12 by decide), page.trailer_byte (show 8 < 12 by decide),
    page.trailer_byte (show 9 < 12 by decide), page.trailer_byte (show 10 < 12 by decide),
    page.trailer_byte (show 11 < 12 by decide)]
  split
  · rename_i h
    simpa [isErr, reservedOffsets, trailerOff] using h
  · rename_i h
    simpa [isErr, reservedOffsets, trailerOff, imp_iff_not_or, not_and_or] using h

theorem storedCrc_eq (page : Page) :
    page.storedCrc = UInt32.ofNat (fromLeBytes ((page.bytes.drop crcOff).take 4)) := by
  have hlength : page.bytes.length = crcOff + 4 := page.length_eq
  have hget : ∀ i (hi : crcOff + i < page.bytes.length),
      page.bytes.drop (crcOff + i) = page.bytes.getD (crcOff + i) 0 :: page.bytes.drop (crcOff + i + 1) := by
    intro i hi
    rw [List.drop_eq_getElem_cons hi, List.getD_eq_getElem?_getD, List.getElem?_eq_getElem hi, Option.getD_some]
  rw [Page.storedCrc, ← Nat.add_zero crcOff, hget 0 (by omega), hget 1 (by omega), hget 2 (by omega),
    hget 3 (by omega)]
  rfl

theorem isErr_verifyCrc_iff (page : Page) :
    isErr (page.verifyCrc hash) = true ↔
      fromLeBytes ((page.bytes.drop crcOff).take 4) ≠ (hash (page.bytes.take crcOff)).toNat := by
  have hsmall : fromLeBytes ((page.bytes.drop crcOff).take 4) < 2 ^ 32 := by
    have hlt := fromLeBytes_lt ((page.bytes.drop crcOff).take 4)
    have hle : ((page.bytes.drop crcOff).take 4).length ≤ 4 := List.length_take_le ..
    exact lt_of_lt_of_le hlt (Nat.pow_le_pow_right (by decide) (by omega))
  have hsame : page.storedCrc = page.computedCrc hash ↔
      fromLeBytes ((page.bytes.drop crcOff).take 4) = (hash (page.bytes.take crcOff)).toNat := by
    rw [storedCrc_eq, Page.computedCrc, ← UInt32.toNat_inj, UInt32.toNat_ofNat', Nat.mod_eq_of_lt hsmall]
  rw [Page.verifyCrc, ← not_iff_not, not_not, ← hsame]
  by_cases h : page.storedCrc = page.computedCrc hash
  · simp [h, isErr]
  · simp [h, isErr]

theorem pageBytes_eq (store : PageStore) (pn : Nat) :
    store.pageBytes pn = (store.bytes.drop (pn * pageSize)).take pageSize := by
  rw [PageStore.pageBytes, List.drop_take, Nat.add_sub_cancel_left]

theorem getElem?_pageBytes {offset : Nat} (h : offset < pageSize) :
    (store.pageBytes pn)[offset]? = store.bytes[pn * pageSize + offset]? := by
  rw [pageBytes_eq, List.getElem?_take_of_lt h, List.getElem?_drop]

theorem getD_ne_zero_iff {bytes : Bytes} {i : Nat} : bytes.getD i 0 ≠ 0 ↔ ∃ b, bytes[i]? = some b ∧ b ≠ 0 := by
  rw [List.getD_eq_getElem?_getD]
  cases bytes[i]? with
  | none => simp
  | some b => simp

theorem lt_pageSize_of_reserved {offset : Nat} (h : offset ∈ reservedOffsets) : offset < pageSize :=
  (show ∀ o ∈ reservedOffsets, o < pageSize by decide) offset h

theorem reservedNonzero_iff {page : Page} (hbytes : page.bytes = store.pageBytes pn) :
    isErr page.verifyTrailer = true ↔ ReservedNonzero store pn := by
  rw [isErr_verifyTrailer_iff, hbytes]
  refine exists_congr fun offset => and_congr_right fun hoffset => ?_
  rw [getD_ne_zero_iff, getElem?_pageBytes (lt_pageSize_of_reserved hoffset)]
  rfl

theorem footerDiffers_iff {page : Page} (hbytes : page.bytes = store.pageBytes pn) :
    isErr (page.verifyCrc hash) = true ↔ FooterDiffers hash store pn := by
  have hfooter : (page.bytes.drop crcOff).take 4 = (store.bytes.drop (pn * 4096 + 0xFFC)).take 4 := by
    rw [hbytes, pageBytes_eq, List.drop_take, List.drop_drop, List.take_take]
    rfl
  have hbody : page.bytes.take crcOff = (store.bytes.drop (pn * 4096)).take 0xFFC := by
    rw [hbytes, pageBytes_eq, List.take_take]
    rfl
  rw [isErr_verifyCrc_iff, hfooter, hbody]
  rfl

end Checks

section Inspection

variable {hash : Bytes → UInt32} {verifyCrc : Bool} {store : PageStore}

theorem foldl_pushIf (fails : Page → Bool) (pages : List Page) (failures : List Nat) :
    pages.foldl (pushIf fails) failures = failures ++ (pages.filter fails).map Page.index := by
  induction pages generalizing failures with
  | nil => rw [List.filter_nil, List.map_nil, List.append_nil, List.foldl_nil]
  | cons page pages ih =>
      rw [List.foldl_cons, ih, pushIf, List.filter_cons]
      cases fails page with
      | false => rfl
      | true => simp

theorem trailerFailures_foldl (pages : List Page) (seen : Inspection) :
    (pages.foldl (inspectPage hash verifyCrc) seen).trailerFailures =
      pages.foldl (pushIf fun page => isErr page.verifyTrailer) seen.trailerFailures :=
  (List.foldl_hom Inspection.trailerFailures fun _ _ => rfl).symm

theorem crcFailures_foldl (pages : List Page) (seen : Inspection) :
    (pages.foldl (inspectPage hash verifyCrc) seen).crcFailures =
      pages.foldl (pushIf fun page => verifyCrc && isErr (page.verifyCrc hash)) seen.crcFailures :=
  (List.foldl_hom Inspection.crcFailures fun _ _ => rfl).symm

theorem exists_failing_iff {fails : Page → Bool} {Broken : Nat → Prop}
    (h : ∀ {page : Page} {pn : Nat}, page.bytes = store.pageBytes pn → (fails page = true ↔ Broken pn)) :
    store.pages.foldl (pushIf fails) [] ≠ [] ↔ ∃ pn < store.pageCount, Broken pn := by
  have hpages : store.pages.foldl (pushIf fails) [] ≠ [] ↔ ∃ page ∈ store.pages, fails page = true := by
    rw [foldl_pushIf, List.nil_append, Ne, List.map_eq_nil_iff, List.filter_eq_nil_iff]
    simp
  rw [hpages]
  constructor
  · intro ⟨page, hpage, hfails⟩
    obtain ⟨hindex, hbytes⟩ := mem_pages_iff.mp hpage
    exact ⟨page.index, hindex, (h hbytes).mp hfails⟩
  · intro ⟨pn, hpn, hbroken⟩
    refine ⟨⟨pn, store.pageBytes pn, store.length_pageBytes hpn⟩, mem_pages_iff.mpr ⟨hpn, rfl⟩, ?_⟩
    exact (h rfl).mpr hbroken

theorem inspect_error_iff : (∃ e, inspect hash verifyCrc store = .error e) ↔
    ∃ pn < store.pageCount, ReservedNonzero store pn ∨ verifyCrc = true ∧ FooterDiffers hash store pn := by
  have htrailer : (inspectPages hash verifyCrc store).trailerFailures ≠ [] ↔
      ∃ pn < store.pageCount, ReservedNonzero store pn := by
    rw [inspectPages, trailerFailures_foldl]
    exact exists_failing_iff reservedNonzero_iff
  have hcrc : (inspectPages hash verifyCrc store).crcFailures ≠ [] ↔
      ∃ pn < store.pageCount, verifyCrc = true ∧ FooterDiffers hash store pn := by
    rw [inspectPages, crcFailures_foldl]
    apply exists_failing_iff
    intro page pn hbytes
    rw [Bool.and_eq_true, footerDiffers_iff hbytes]
  have hsplit : (∃ pn < store.pageCount, ReservedNonzero store pn ∨ verifyCrc = true ∧ FooterDiffers hash store pn) ↔
      (∃ pn < store.pageCount, verifyCrc = true ∧ FooterDiffers hash store pn) ∨
        ∃ pn < store.pageCount, ReservedNonzero store pn := by
    rw [← exists_or]
    refine exists_congr fun pn => ?_
    rw [← and_or_left, or_comm]
  rw [hsplit, ← htrailer, ← hcrc, inspect, PageStore.page_of_lt (pageCount_pos store)]
  simp only
  by_cases hfailures : (inspectPages hash verifyCrc store).crcFailures.length +
      (inspectPages hash verifyCrc store).trailerFailures.length = 0
  · rw [if_neg (not_not.mpr hfailures)]
    obtain ⟨hnoCrc, hnoTrailer⟩ := Nat.add_eq_zero_iff.mp hfailures
    rw [List.length_eq_zero_iff.mp hnoCrc, List.length_eq_zero_iff.mp hnoTrailer]
    simp
  · rw [if_pos hfailures]
    refine iff_of_true ⟨_, rfl⟩ ?_
    by_contra hnone
    obtain ⟨hnoCrc, hnoTrailer⟩ := not_or.mp hnone
    rw [not_not.mp hnoCrc, not_not.mp hnoTrailer] at hfailures
    exact hfailures rfl

/-- What holds of every store, whichever way it was made. -/
structure MissesNoPage (hash : Bytes → UInt32) (store : PageStore) : Prop where
  nonempty : 0 < store.pageCount
  whole : store.bytes.length = store.pageCount * 4096
  numbers : store.pages.map Page.index = List.range store.pageCount
  sizes : ∀ page ∈ store.pages, page.bytes.length = 4096
  concatenation : store.pages.flatMap Page.bytes = store.bytes
  hints : ∀ k, Pages.collect (afterNext^[k] ⟨store, 0⟩) = store.pages.drop k ∧
    sizeHint (afterNext^[k] ⟨store, 0⟩) = .ok ((store.pages.drop k).length, some (store.pages.drop k).length)
  inspected : ∀ verifyCrc, (∃ e, inspect hash verifyCrc store = .error e) ↔
    ∃ pn < store.pageCount, ReservedNonzero store pn ∨ verifyCrc = true ∧ FooterDiffers hash store pn

theorem missesNoPage (hash : Bytes → UInt32) (store : PageStore) : MissesNoPage hash store := by
  constructor
  · exact pageCount_pos store
  · exact (pageCount_mul store).symm
  · exact index_pages store
  · intro page _
    exact page.length_eq
  · exact flatMap_pages store
  · intro k
    exact ⟨collect_iterate store k, sizeHint_iterate store k⟩
  · intro verifyCrc
    exact inspect_error_iff

theorem fromBytes_eq_ok {bytes : Bytes} {fits : bytes.length < 2 ^ 63}
    (h : PageStore.fromBytes bytes fits = .ok store) : store.bytes = bytes := by
  rw [PageStore.fromBytes] at h
  split at h
  · cases h
  · split at h
    · cases h
      rfl
    · cases h

/-- Both ways to make a store keep to whole pages, and of every store the iterator and the inspection miss no page. -/
theorem integrityChecks (hash : Bytes → UInt32) :
    (∀ allocates reader bytes, readSizeStableSnapshot allocates reader = some (.ok bytes) →
      (∃ n, 0 < n ∧ bytes.length = n * 4096) ∧
        ∃ store, openStore allocates (.ok reader) = some (.ok store) ∧ store.bytes = bytes) ∧
    (∀ bytes fits store, PageStore.fromBytes bytes fits = .ok store →
      (∃ n, 0 < n ∧ bytes.length = n * 4096) ∧ store.bytes = bytes) ∧
    ∀ store, MissesNoPage hash store := by
  refine ⟨?_, ?_, missesNoPage hash⟩
  · intro allocates reader bytes h
    have hstore := missesNoPage hash (ofSnapshot h)
    exact ⟨⟨_, hstore.nonempty, hstore.whole⟩, ofSnapshot h, openStore_eq_ok_iff.mpr h, rfl⟩
  · intro bytes fits store h
    have hstore := missesNoPage hash store
    rw [← fromBytes_eq_ok h]
    exact ⟨⟨_, hstore.nonempty, hstore.whole⟩, rfl⟩

end Inspection

end OpenSqlAny.IntegrityChecks
