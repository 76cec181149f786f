import OpenSqlAny.ApCaseSwitch
import OpenSqlAny.IntegrityChecks
import OpenSqlAny.Library.StableSorts

namespace OpenSqlAny.PageHistograms

open Library.LittleEndian Library.Histograms Library.StableSorts PageStores PageIteration IntegrityChecks ApCaseSwitch

def PageType.name : PageType → String
  | .extent => "extent"
  | .alloc => "alloc"
  | .map => "map"
  | .header => "header"
  | .catalog => "catalog"
  | .bootstrap => "bootstrap"
  | .index => "index"
  | .unknownG => "unknown_G"
  | .other _ => "other"

def histogramEntries (histogram : UInt8 → Nat) : List (UInt8 × Nat) :=
  (((List.range 256).map UInt8.ofNat).filter fun byte => histogram byte ≠ 0).map fun byte => (byte, histogram byte)

def reverseCount (a b : UInt8 × Nat) : Bool := b.2 ≤ a.2

def histogramItems (histogram : UInt8 → Nat) : List (UInt8 × Nat) :=
  (histogramEntries histogram).mergeSort reverseCount

/-- A printed line, without the percentage that the count is of the pages. -/
structure HistogramLine where
  byte : UInt8
  character : Char
  name : String
  count : Nat
  deriving DecidableEq, Repr

def shownCharacter (byte : UInt8) : Char :=
  if 0x20 ≤ byte ∧ byte < 0x7F then Char.ofNat byte.toNat else '?'

def histogramLine (item : UInt8 × Nat) : HistogramLine :=
  ⟨item.1, shownCharacter item.1, PageType.name (PageType.fromByte item.1), item.2⟩

def histogramListing (hash : Bytes → UInt32) (verifyCrc : Bool) (store : PageStore) : List HistogramLine :=
  (histogramItems (inspectPages hash verifyCrc store).histogram).map histogramLine

def typeBytes (store : PageStore) : List UInt8 :=
  (List.range' 1 (store.pageCount - 1)).map fun pn => store.bytes.getD (pn * 4096 + 0xFF2) 0

/-- Each type byte that occurs has one line, with its count; the lines go down by count, and equal counts
go up by byte. -/
structure IsListing (store : PageStore) (lines : List HistogramLine) : Prop where
  counted : ∀ byte count, (byte, count) ∈ lines.map (fun line => (line.byte, line.count)) ↔
    byte ∈ typeBytes store ∧ count = (typeBytes store).count byte
  labelled : ∀ line ∈ lines, line.character = shownCharacter line.byte ∧
    line.name = PageType.name (PageType.fromByte line.byte)
  ordered : lines.Pairwise fun a b => b.count < a.count ∨ a.count = b.count ∧ a.byte < b.byte

section Counts

variable {hash : Bytes → UInt32} {verifyCrc : Bool} {store : PageStore}

theorem inspectPage_histogram (seen : Inspection) (page : Page) :
    (inspectPage hash verifyCrc seen page).histogram =
      if page.index ≠ 0 then
        Function.update seen.histogram page.trailer.pageTypeRaw (seen.histogram page.trailer.pageTypeRaw + 1)
      else seen.histogram := by
  funext byte
  rw [inspectPage]
  by_cases hindex : page.index = 0
  · simp [hindex]
  · by_cases hbyte : byte = page.trailer.pageTypeRaw
    · simp [hindex, hbyte]
    · simp [hindex, hbyte]

theorem foldl_inspectPage_histogram (pages : List Page) (seen : Inspection) :
    (pages.foldl (inspectPage hash verifyCrc) seen).histogram =
      ((pages.filter fun page => page.index ≠ 0).map fun page => page.trailer.pageTypeRaw).foldl
        (fun hist k => Function.update hist k (hist k + 1)) seen.histogram := by
  induction pages generalizing seen with
  | nil => rfl
  | cons page pages ih =>
      rw [List.foldl_cons, ih, inspectPage_histogram, List.filter_cons]
      by_cases hindex : page.index = 0
      · simp [hindex]
      · simp [hindex]

theorem typeBytes_pages :
    ((store.pages.filter fun page => page.index ≠ 0).map fun page => page.trailer.pageTypeRaw) =
      typeBytes store := by
  have hpairs := store.map_pages (fun page => (page.index, page.trailer.pageTypeRaw))
    (fun i bytes => (i, bytes.getD (trailerOff + 2) 0)) fun page => by rw [← page.trailer_byte (by decide)]; rfl
  have hcut : ((store.pages.filter fun page => page.index ≠ 0).map fun page => page.trailer.pageTypeRaw) =
      ((store.pages.map fun page => (page.index, page.trailer.pageTypeRaw)).filter fun pair => pair.1 ≠ 0).map
        Prod.snd := by
    rw [List.filter_map, List.map_map]
    rfl
  have hrange : List.range store.pageCount = 0 :: List.range' 1 (store.pageCount - 1) := by
    obtain ⟨n, hn⟩ := Nat.exists_eq_succ_of_ne_zero (pageCount_pos store).ne'
    rw [hn, List.range_eq_range', List.range'_succ]
    rfl
  have hall : (List.range' 1 (store.pageCount - 1)).filter (fun pn => pn ≠ 0) =
      List.range' 1 (store.pageCount - 1) := by
    apply List.filter_eq_self.mpr
    intro pn hpn
    have hpos := (List.mem_range'_1.mp hpn).1
    simp only [ne_eq, decide_not, Bool.not_eq_eq_eq_not, Bool.not_true, decide_eq_false_iff_not]
    omega
  rw [hcut, hpairs, List.filter_map, List.map_map, hrange, List.filter_cons_of_neg (by simp)]
  change (List.filter (fun pn => decide (pn ≠ 0)) _).map _ = _
  rw [hall, typeBytes]
  apply List.map_congr_left
  intro pn _
  change (store.pageBytes pn).getD (trailerOff + 2) 0 = _
  rw [List.getD_eq_getElem?_getD, IntegrityChecks.getElem?_pageBytes (show trailerOff + 2 < pageSize by decide),
    ← List.getD_eq_getElem?_getD]
  rfl

theorem histogram_eq (byte : UInt8) :
    (inspectPages hash verifyCrc store).histogram byte = (typeBytes store).count byte := by
  rw [inspectPages, foldl_inspectPage_histogram, typeBytes_pages]
  exact tally_apply (typeBytes store) byte

end Counts

section Listing

variable {hash : Bytes → UInt32} {verifyCrc : Bool} {store : PageStore} {types : List UInt8} {lines : List HistogramLine}

theorem mem_histogramEntries {item : UInt8 × Nat} :
    item ∈ histogramEntries (fun byte => types.count byte) ↔ item.1 ∈ types ∧ item.2 = types.count item.1 := by
  obtain ⟨byte, count⟩ := item
  have hbyte : byte ∈ (List.range 256).map UInt8.ofNat :=
    List.mem_map.mpr ⟨byte.toNat, List.mem_range.mpr byte.toNat_lt, UInt8.ofNat_toNat⟩
  rw [histogramEntries, List.mem_map]
  constructor
  · rintro ⟨byte', hmem, heq⟩
    obtain ⟨rfl, rfl⟩ := Prod.mk.inj heq
    have hcount := (List.mem_filter.mp hmem).2
    exact ⟨List.count_pos_iff.mp (Nat.pos_of_ne_zero (of_decide_eq_true hcount)), rfl⟩
  · rintro ⟨hmem, hcount⟩
    simp only at hmem hcount
    refine ⟨byte, List.mem_filter.mpr ⟨hbyte, ?_⟩, by rw [hcount]⟩
    exact decide_eq_true (List.count_pos_iff.mpr hmem).ne'

theorem pairwise_histogramEntries (histogram : UInt8 → Nat) :
    (histogramEntries histogram).Pairwise fun a b => a.1 < b.1 := by
  rw [histogramEntries, List.pairwise_map]
  apply List.Pairwise.filter
  rw [List.pairwise_map]
  refine List.pairwise_lt_range.imp_of_mem ?_
  intro m n hm hn hlt
  rw [UInt8.lt_iff_toNat_lt, UInt8.toNat_ofNat', UInt8.toNat_ofNat',
    Nat.mod_eq_of_lt (List.mem_range.mp hm), Nat.mod_eq_of_lt (List.mem_range.mp hn)]
  exact hlt

theorem refined_iff {a b : UInt8 × Nat} :
    Refined reverseCount (fun a b => a.1 < b.1) a b ↔ b.2 < a.2 ∨ a.2 = b.2 ∧ a.1 < b.1 := by
  rw [Refined, reverseCount, reverseCount, decide_eq_true_iff, decide_eq_true_iff]
  constructor
  · rintro ⟨hle, htie⟩
    rcases Nat.lt_or_eq_of_le hle with hlt | heq
    · exact .inl hlt
    · exact .inr ⟨heq.symm, htie heq.ge⟩
  · rintro (hlt | ⟨heq, hbyte⟩)
    · exact ⟨hlt.le, fun hge => absurd hge (Nat.not_le.mpr hlt)⟩
    · exact ⟨heq.ge, fun _ => hbyte⟩

/-- The sort is stable, so that the order of the map decides between equal counts. -/
theorem eq_histogramItems_iff {histogram : UInt8 → Nat} {items : List (UInt8 × Nat)} :
    items = histogramItems histogram ↔ items.Perm (histogramEntries histogram) ∧
      items.Pairwise fun a b => b.2 < a.2 ∨ a.2 = b.2 ∧ a.1 < b.1 := by
  have hsort := @eq_mergeSort_iff _ reverseCount (fun a b => a.1 < b.1) (histogramEntries histogram) items
    (fun a b c hab hbc => by
      rw [reverseCount, decide_eq_true_iff] at *
      exact hbc.trans hab)
    (fun a b => by
      rw [reverseCount, reverseCount, Bool.or_eq_true, decide_eq_true_iff, decide_eq_true_iff]
      exact Nat.le_total b.2 a.2)
    (fun a b hab hba => Nat.lt_asymm (UInt8.lt_iff_toNat_lt.mp hab) (UInt8.lt_iff_toNat_lt.mp hba))
    (pairwise_histogramEntries histogram)
  rw [histogramItems, hsort]
  apply and_congr_right
  intro _
  constructor
  · exact List.Pairwise.imp fun h => refined_iff.mp h
  · exact List.Pairwise.imp fun h => refined_iff.mpr h

theorem nodup_of_ordered {items : List (UInt8 × Nat)}
    (h : items.Pairwise fun a b => b.2 < a.2 ∨ a.2 = b.2 ∧ a.1 < b.1) : items.Nodup := by
  refine h.imp ?_
  rintro a b hab rfl
  rcases hab with hlt | ⟨-, hlt⟩
  · exact Nat.lt_irrefl _ hlt
  · exact Nat.lt_irrefl _ (UInt8.lt_iff_toNat_lt.mp hlt)

theorem nodup_histogramEntries (histogram : UInt8 → Nat) : (histogramEntries histogram).Nodup := by
  refine (pairwise_histogramEntries histogram).imp ?_
  rintro a b hlt rfl
  exact Nat.lt_irrefl _ (UInt8.lt_iff_toNat_lt.mp hlt)

theorem histogramListing_eq : histogramListing hash verifyCrc store =
    (histogramItems fun byte => (typeBytes store).count byte).map histogramLine := by
  rw [histogramListing]
  congr 2
  funext byte
  exact histogram_eq byte

theorem map_items_listing (items : List (UInt8 × Nat)) :
    (items.map histogramLine).map (fun line => (line.byte, line.count)) = items := by
  rw [List.map_map]
  exact List.map_id items

theorem map_histogramLine (h : ∀ line ∈ lines, line.character = shownCharacter line.byte ∧
    line.name = PageType.name (PageType.fromByte line.byte)) :
    (lines.map fun line => (line.byte, line.count)).map histogramLine = lines := by
  rw [List.map_map]
  conv_rhs => rw [← List.map_id lines]
  apply List.map_congr_left
  intro line hline
  obtain ⟨hcharacter, hname⟩ := h line hline
  obtain ⟨byte, character, name, count⟩ := line
  simp only at hcharacter hname
  rw [hcharacter, hname]
  rfl

theorem isListing_iff : IsListing store lines ↔ lines = histogramListing hash verifyCrc store := by
  rw [histogramListing_eq]
  constructor
  · intro h
    have hordered : (lines.map fun line => (line.byte, line.count)).Pairwise
        fun a b => b.2 < a.2 ∨ a.2 = b.2 ∧ a.1 < b.1 := List.pairwise_map.mpr h.ordered
    have hitems : (lines.map fun line => (line.byte, line.count)) =
        histogramItems fun byte => (typeBytes store).count byte := by
      refine eq_histogramItems_iff.mpr ⟨?_, hordered⟩
      refine (List.perm_ext_iff_of_nodup (nodup_of_ordered hordered) (nodup_histogramEntries _)).mpr ?_
      rintro ⟨byte, count⟩
      rw [h.counted, mem_histogramEntries]
    rw [← hitems, map_histogramLine h.labelled]
  · rintro rfl
    obtain ⟨hperm, hordered⟩ := eq_histogramItems_iff.mp (@rfl _ (histogramItems fun byte => (typeBytes store).count byte))
    constructor
    · intro byte count
      rw [map_items_listing, hperm.mem_iff, mem_histogramEntries]
    · intro line hline
      obtain ⟨item, -, rfl⟩ := List.mem_map.mp hline
      exact ⟨rfl, rfl⟩
    · exact List.pairwise_map.mpr hordered

theorem sum_counts (p : UInt8 → Bool) :
    (((histogramListing hash verifyCrc store).filter fun line => p line.byte).map HistogramLine.count).sum =
      (typeBytes store).countP p := by
  have hsorted : (histogramItems fun byte => (typeBytes store).count byte).Perm
      (histogramEntries fun byte => (typeBytes store).count byte) := List.mergeSort_perm _ _
  have hdedup : (histogramEntries fun byte => (typeBytes store).count byte).Perm
      ((typeBytes store).dedup.map fun byte => (byte, (typeBytes store).count byte)) := by
    have hnodup : ((typeBytes store).dedup.map fun byte => (byte, (typeBytes store).count byte)).Nodup :=
      (List.nodup_dedup _).map fun a b hab => (Prod.mk.inj hab).1
    refine (List.perm_ext_iff_of_nodup (nodup_histogramEntries _) hnodup).mpr ?_
    rintro ⟨byte, count⟩
    rw [mem_histogramEntries, List.mem_map]
    constructor
    · rintro ⟨hmem, hcount⟩
      exact ⟨byte, List.mem_dedup.mpr hmem, by rw [← hcount]⟩
    · rintro ⟨byte', hmem, heq⟩
      obtain ⟨rfl, rfl⟩ := Prod.mk.inj heq
      exact ⟨List.mem_dedup.mp hmem, rfl⟩
  have hlines := (((hsorted.trans hdedup).filter fun item => p item.1).map Prod.snd).sum_eq
  rw [List.filter_map, List.map_map] at hlines
  rw [histogramListing_eq, List.filter_map, List.map_map, ← List.sum_map_count_dedup_filter_eq_countP]
  exact hlines

end Listing

/-- What `inspect` prints of the page types: the one listing that has a line, with the exact count, for each
type that occurs behind the superblock, in order; and the lines of any choice of types add up. -/
theorem histogramListing_spec (hash : Bytes → UInt32) (verifyCrc : Bool) (store : PageStore) :
    (∀ lines, lines = histogramListing hash verifyCrc store ↔ IsListing store lines) ∧
    ∀ p : UInt8 → Bool,
      (((histogramListing hash verifyCrc store).filter fun line => p line.byte).map HistogramLine.count).sum =
        (typeBytes store).countP p := by
  constructor
  · intro lines
    exact isListing_iff.symm
  · exact sum_counts

end OpenSqlAny.PageHistograms
