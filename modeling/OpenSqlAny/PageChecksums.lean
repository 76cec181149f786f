import OpenSqlAny.IntegrityChecks
import OpenSqlAny.Library.CyclicChecks

namespace OpenSqlAny.PageChecksums

open Library.LittleEndian Library.PackedBits Library.CyclicChecks PageStores PageIteration IntegrityChecks

def polynomial : BitVec 32 := 0xEDB88320#32

def crc32 (bytes : Bytes) : UInt32 := ⟨checksum polynomial bytes⟩

example : crc32 [0x31, 0x32, 0x33, 0x34, 0x35, 0x36, 0x37, 0x38, 0x39] = 0xCBF43926 := by decide +kernel

/-- What the page format relies on of the checksum's implementation. -/
structure IsCrc32 (hash : Bytes → UInt32) : Prop where
  computes : ∀ bytes, hash bytes = crc32 bytes

def stamped (body : Bytes) : Bytes := body ++ toLeBytes 4 (crc32 body).toNat

/-- Two pages that differ within 32 consecutive bits at most. -/
def DiffersInWindow (us vs : Bytes) : Prop :=
  ∃ k, ∀ i, i < k ∨ k + 32 ≤ i → bitAt .lsbFirst us i = bitAt .lsbFirst vs i

theorem polynomial_top : polynomial.getLsbD (32 - 1) = true := by decide

section Footers

variable {hash : Bytes → UInt32} {store : PageStore} {pn : Nat}

theorem pageBytes_split (store : PageStore) (pn : Nat) :
    store.pageBytes pn = (store.bytes.drop (pn * 4096)).take 0xFFC ++ (store.bytes.drop (pn * 4096 + 0xFFC)).take 4 := by
  rw [pageBytes_eq, ← List.drop_drop, ← List.take_add]
  rfl

/-- The footer of a page is right exactly when the whole page leaves the remainder of a right one. -/
theorem footer_iff_remainder (h : IsCrc32 hash) (hpn : pn < store.pageCount) :
    ¬FooterDiffers hash store pn ↔
      remainder polynomial (store.pageBytes pn) = (clock polynomial)^[32] (BitVec.allOnes 32) := by
  have hfooter : 8 * ((store.bytes.drop (pn * 4096 + 0xFFC)).take 4).length = 32 := by
    have hend : pn * 4096 + 4096 ≤ store.bytes.length := store.page_end_le hpn
    rw [List.length_take, List.length_drop]
    omega
  rw [pageBytes_split, ← fromLeBytes_eq_checksum_iff polynomial_top (by decide) hfooter, FooterDiffers, not_not,
    h.computes]
  rfl

theorem footerDiffers_of_changed (h : IsCrc32 hash) {damaged : PageStore} (hpn : pn < store.pageCount)
    (hpn' : pn < damaged.pageCount) (hright : ¬FooterDiffers hash store pn)
    (hwindow : DiffersInWindow (store.pageBytes pn) (damaged.pageBytes pn)) :
    FooterDiffers hash damaged pn ↔ store.pageBytes pn ≠ damaged.pageBytes pn := by
  obtain ⟨k, houtside⟩ := hwindow
  have hlen : (store.pageBytes pn).length = (damaged.pageBytes pn).length := by
    rw [store.length_pageBytes hpn, damaged.length_pageBytes hpn']
  rw [← not_iff_not, not_not, footer_iff_remainder h hpn', ← (footer_iff_remainder h hpn).mp hright,
    eq_comm, remainder_window polynomial_top hlen houtside]

end Footers

section Reports

variable {hash : Bytes → UInt32} {store damaged : PageStore} {seen : Inspection}

instance : DecidablePred (FooterDiffers hash store) := fun _ => inferInstanceAs (Decidable (_ ≠ _))

theorem crcFailures_eq (hash : Bytes → UInt32) (store : PageStore) :
    (inspectPages hash true store).crcFailures =
      (List.range store.pageCount).filter fun pn => FooterDiffers hash store pn := by
  have hfails : store.pages.filter (fun page => true && isErr (page.verifyCrc hash)) =
      store.pages.filter fun page => decide (FooterDiffers hash store page.index) := by
    apply List.filter_congr
    intro page hpage
    rw [Bool.true_and, Bool.eq_iff_iff, footerDiffers_iff (mem_pages_iff.mp hpage).2, decide_eq_true_iff]
  rw [inspectPages, crcFailures_foldl, foldl_pushIf, List.nil_append, hfails, ← index_pages, List.filter_map]
  rfl

theorem pageCount_congr (hlength : store.bytes.length = damaged.bytes.length) :
    store.pageCount = damaged.pageCount := by
  rw [PageStore.pageCount, PageStore.pageCount, hlength]

theorem eq_of_pageBytes (hlength : store.bytes.length = damaged.bytes.length)
    (h : ∀ pn < store.pageCount, store.pageBytes pn = damaged.pageBytes pn) : store.bytes = damaged.bytes := by
  have hpages : (List.range store.pageCount).map store.pageBytes =
      (List.range damaged.pageCount).map damaged.pageBytes := by
    rw [← pageCount_congr hlength]
    apply List.map_congr_left
    intro pn hpn
    exact h pn (List.mem_range.mp hpn)
  have hbytes : ∀ store : PageStore, ((List.range store.pageCount).map store.pageBytes).flatten = store.bytes := by
    intro store
    rw [flatten_pageBytes, pageCount_mul, List.take_length]
  rw [← hbytes store, hpages, hbytes damaged]

/-- Damage that spares all but 32 consecutive bits of each page is found where it is, and nowhere else. -/
theorem inspect_finds_damage (h : IsCrc32 hash) (hsound : inspect hash true store = .ok seen)
    (hlength : store.bytes.length = damaged.bytes.length)
    (hdamage : ∀ pn < store.pageCount, DiffersInWindow (store.pageBytes pn) (damaged.pageBytes pn)) :
    (inspectPages hash true damaged).crcFailures =
        (List.range store.pageCount).filter (fun pn => store.pageBytes pn ≠ damaged.pageBytes pn) ∧
      ((∃ e, inspect hash true damaged = .error e) ↔ store.bytes ≠ damaged.bytes) := by
  have hcount := pageCount_congr hlength
  have hright : ∀ pn < store.pageCount, ¬ReservedNonzero store pn ∧ ¬FooterDiffers hash store pn := by
    intro pn hpn
    have hnone : ¬∃ e, inspect hash true store = .error e := by
      rw [hsound]
      simp
    rw [inspect_error_iff] at hnone
    constructor
    · intro hreserved
      exact hnone ⟨pn, hpn, Or.inl hreserved⟩
    · intro hfooter
      exact hnone ⟨pn, hpn, Or.inr ⟨rfl, hfooter⟩⟩
  have hfooters : ∀ pn < store.pageCount,
      (FooterDiffers hash damaged pn ↔ store.pageBytes pn ≠ damaged.pageBytes pn) := by
    intro pn hpn
    exact footerDiffers_of_changed h hpn (hcount ▸ hpn) (hright pn hpn).2 (hdamage pn hpn)
  constructor
  · rw [crcFailures_eq, ← hcount]
    apply List.filter_congr
    intro pn hpn
    exact decide_eq_decide.mpr (hfooters pn (List.mem_range.mp hpn))
  · rw [inspect_error_iff, ← hcount]
    constructor
    · rintro ⟨pn, hpn, hbroken⟩ hsame
      have hstores : store = damaged := by
        cases store
        cases damaged
        simpa using hsame
      subst hstores
      rcases hbroken with hreserved | ⟨-, hfooter⟩
      · exact (hright pn hpn).1 hreserved
      · exact (hright pn hpn).2 hfooter
    · intro hne
      by_contra hnone
      apply hne
      apply eq_of_pageBytes hlength
      intro pn hpn
      by_contra hpage
      exact hnone ⟨pn, hpn, Or.inr ⟨rfl, (hfooters pn hpn).mpr hpage⟩⟩

end Reports

section Stamping

variable {body : Bytes}

theorem length_stamped (h : body.length = 0xFFC) : (stamped body).length = pageSize := by
  rw [stamped, List.length_append, length_toLeBytes, h]
  rfl

theorem inspect_stamped (h : body.length = 0xFFC) (hreserved : ∀ offset ∈ reservedOffsets, body[offset]? = some 0) :
    ∃ seen, inspect crc32 true (PageStore.ofPage (stamped body) (length_stamped h)) = .ok seen := by
  cases hresult : inspect crc32 true (PageStore.ofPage (stamped body) (length_stamped h)) with
  | ok seen => exact ⟨seen, rfl⟩
  | error e =>
      obtain ⟨pn, hpn, hbroken⟩ := inspect_error_iff.mp ⟨e, hresult⟩
      rw [PageStore.pageCount_ofPage] at hpn
      obtain rfl : pn = 0 := by omega
      rcases hbroken with ⟨offset, hoffset, b, hb, hne⟩ | ⟨-, hfooter⟩
      · have hbody := hreserved offset hoffset
        have hinside : offset < body.length := (List.getElem?_eq_some_iff.mp hbody).1
        change (body ++ toLeBytes 4 (crc32 body).toNat)[0 * 4096 + offset]? = some b at hb
        rw [Nat.zero_mul, Nat.zero_add, List.getElem?_append_left hinside, hbody] at hb
        exact absurd (Option.some.inj hb).symm hne
      · apply absurd _ hfooter
        change fromLeBytes (((body ++ toLeBytes 4 (crc32 body).toNat).drop (0 * 4096 + 0xFFC)).take 4) =
          (crc32 (((body ++ toLeBytes 4 (crc32 body).toNat).drop (0 * 4096)).take 0xFFC)).toNat
        rw [Nat.zero_mul, Nat.zero_add, List.drop_zero, List.take_left' h, List.drop_left' h,
          List.take_of_length_le (by rw [length_toLeBytes]), fromLeBytes_toLeBytes (crc32 body).toNat_lt]

def zeroBody : Bytes := List.replicate 0xFFC 0

theorem length_zeroBody : zeroBody.length = 0xFFC := List.length_replicate

def flippedPage : Bytes := 1 :: (stamped zeroBody).tail

theorem length_flippedPage : flippedPage.length = pageSize := by
  rw [flippedPage, List.length_cons, List.length_tail, length_stamped length_zeroBody]
  rfl

theorem inspect_finds_damage_flipped :
    (inspectPages crc32 true (PageStore.ofPage flippedPage length_flippedPage)).crcFailures = [0] ∧
      ∃ e, inspect crc32 true (PageStore.ofPage flippedPage length_flippedPage) = .error e := by
  have hzero : ∀ offset ∈ reservedOffsets, zeroBody[offset]? = some 0 := by
    intro offset hoffset
    have hlt : offset < 0xFFC := (show ∀ o ∈ reservedOffsets, o < 0xFFC by decide) offset hoffset
    rw [zeroBody, List.getElem?_replicate, if_pos hlt]
  obtain ⟨seen, hseen⟩ := inspect_stamped length_zeroBody hzero
  have hhead : stamped zeroBody = 0 :: (stamped zeroBody).tail := rfl
  have hpages : (PageStore.ofPage (stamped zeroBody) (length_stamped length_zeroBody)).pageBytes 0 ≠
      (PageStore.ofPage flippedPage length_flippedPage).pageBytes 0 := by
    rw [PageStore.pageBytes_ofPage, PageStore.pageBytes_ofPage, hhead, flippedPage]
    simp
  have hwindow : ∀ pn < (PageStore.ofPage (stamped zeroBody) (length_stamped length_zeroBody)).pageCount,
      DiffersInWindow ((PageStore.ofPage (stamped zeroBody) (length_stamped length_zeroBody)).pageBytes pn)
        ((PageStore.ofPage flippedPage length_flippedPage).pageBytes pn) := by
    intro pn hpn
    rw [PageStore.pageCount_ofPage] at hpn
    obtain rfl : pn = 0 := by omega
    rw [PageStore.pageBytes_ofPage, PageStore.pageBytes_ofPage, hhead, flippedPage]
    refine ⟨0, fun i hi => ?_⟩
    rw [bitAt, bitAt, show i / 8 = (i / 8 - 1) + 1 by omega, List.getElem?_cons_succ, List.getElem?_cons_succ]
  obtain ⟨hlisted, hfails⟩ := inspect_finds_damage ⟨fun _ => rfl⟩ hseen
    ((length_stamped length_zeroBody).trans length_flippedPage.symm) hwindow
  constructor
  · rw [hlisted, PageStore.pageCount_ofPage]
    apply List.filter_eq_self.mpr
    intro pn hpn
    obtain rfl : pn = 0 := by simpa using hpn
    exact decide_eq_true hpages
  · apply hfails.mpr
    intro hsame
    apply hpages
    rw [PageStore.pageBytes, PageStore.pageBytes, hsame]

end Stamping

end OpenSqlAny.PageChecksums
