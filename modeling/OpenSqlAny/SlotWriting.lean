import OpenSqlAny.MaterializedWriting
import OpenSqlAny.SlotListings
import OpenSqlAny.SlotUpdates
import OpenSqlAny.WrittenDirectories

namespace OpenSqlAny.SlotWriting

open Library.Cuts Library.Faults Library.LittleEndian PageStores SlottedPages SlotScanning SlotRows SlotListings
  SlotUpdates WrittenDirectories

def rowArea : List (Option Bytes) → Bytes
  | [] => []
  | entry :: entries => rowArea entries ++ entry.getD []

def placed : Nat → List (Option Bytes) → List (Option (Nat × Bytes))
  | _, [] => []
  | stop, none :: entries => none :: placed stop entries
  | stop, some row :: entries => some (stop - row.length, row) :: placed (stop - row.length) entries

def offsetOf : Option (Nat × Bytes) → Nat
  | none => 0
  | some place => place.1

/-- What a writer puts on a slotted page, little-endian: rows and deleted entries, and the page trailer. Deleted
entries at the end cannot be told from the free space behind the array. -/
structure SlotPlan where
  arrayStart : Nat
  entries : List (Option Bytes)
  trailer : Bytes
  apart : arrayStart ≠ 1
  room : arrayStart + 2 * entries.length + 2 ≤ searchLimit
  nonempty : ∀ row, some row ∈ entries → row ≠ []
  first_live : entries.head? ≠ some none
  last_live : entries.getLast? ≠ some none
  enough : minLiveSlots ≤ entries.countP Option.isSome
  fits : searchLimit + (rowArea entries).length ≤ trailerStart
  length_trailer : trailer.length = 16

namespace SlotPlan

variable (plan : SlotPlan)

def places : List (Option (Nat × Bytes)) := placed trailerStart plan.entries

def offsets : List Nat := plan.places.map offsetOf

def directory : SlotDirectory := directoryOf plan.arrayStart plan.offsets

def array : Bytes := plan.offsets.flatMap (toLeBytes 2)

def front : Bytes :=
  List.replicate plan.arrayStart 0 ++ plan.array ++
    List.replicate (trailerStart - (rowArea plan.entries).length - (plan.arrayStart + 2 * plan.entries.length)) 0

def bytes : Bytes := plan.front ++ rowArea plan.entries ++ plan.trailer

/-- The words of free space behind the array, which are read as deleted entries. -/
def freeWords : Nat := (searchLimit - (plan.arrayStart + 2 * plan.offsets.length)) / 2

def listing : List (Option (Nat × Bytes)) := plan.places ++ List.replicate plan.freeWords none

def rows : List (Nat × Nat × Bytes) :=
  plan.places.zipIdx.filterMap fun entry => entry.1.map fun place => (entry.2, place.1, place.2)

end SlotPlan

section Places

variable {entries : List (Option Bytes)} {stop low : Nat}

theorem length_placed (stop : Nat) (entries : List (Option Bytes)) : (placed stop entries).length = entries.length := by
  fun_induction placed stop entries with
  | case1 stop => rfl
  | case2 stop entries ih => rw [List.length_cons, List.length_cons, ih]
  | case3 stop row entries ih => rw [List.length_cons, List.length_cons, ih]

theorem placed_rows (stop : Nat) (entries : List (Option Bytes)) :
    (placed stop entries).map (Option.map (·.2)) = entries := by
  fun_induction placed stop entries with
  | case1 stop => rfl
  | case2 stop entries ih => rw [List.map_cons, ih, Option.map_none]
  | case3 stop row entries ih => rw [List.map_cons, ih, Option.map_some]

theorem placed_bounds (hne : ∀ row, some row ∈ entries → row ≠ []) (hfits : low + (rowArea entries).length ≤ stop) :
    ∀ off ∈ liveOf ((placed stop entries).map offsetOf), low ≤ off ∧ off < stop := by
  induction entries generalizing stop with
  | nil =>
      intro off hoff
      cases hoff
  | cons entry entries ih =>
      rw [rowArea, List.length_append] at hfits
      have hrest : ∀ row, some row ∈ entries → row ≠ [] := fun row hrow => hne row (List.mem_cons_of_mem _ hrow)
      cases entry with
      | none =>
          rw [placed, List.map_cons, offsetOf, liveOf_cons_zero]
          exact ih hrest hfits
      | some row =>
          have hrow : 0 < row.length := List.length_pos_of_ne_nil (hne row List.mem_cons_self)
          rw [Option.getD_some] at hfits
          have hbelow := @ih (stop - row.length) hrest (by omega)
          intro off hoff
          rw [placed, List.map_cons, offsetOf] at hoff
          have hmem := List.mem_of_mem_filter hoff
          rcases List.mem_cons.mp hmem with rfl | hlater
          · omega
          · have hne0 := (List.mem_filter.mp hoff).2
            obtain ⟨hlow, hhigh⟩ := hbelow off (List.mem_filter.mpr ⟨hlater, hne0⟩)
            omega

theorem placed_descending (hne : ∀ row, some row ∈ entries → row ≠ []) (hlow : 0 < low)
    (hfits : low + (rowArea entries).length ≤ stop) :
    (liveOf ((placed stop entries).map offsetOf)).Pairwise (· > ·) := by
  induction entries generalizing stop with
  | nil => exact List.Pairwise.nil
  | cons entry entries ih =>
      rw [rowArea, List.length_append] at hfits
      have hrest : ∀ row, some row ∈ entries → row ≠ [] := fun row hrow => hne row (List.mem_cons_of_mem _ hrow)
      cases entry with
      | none =>
          rw [placed, List.map_cons, offsetOf, liveOf_cons_zero]
          exact ih hrest hfits
      | some row =>
          rw [Option.getD_some] at hfits
          have hbelow := @placed_bounds entries (stop - row.length) low hrest (by omega)
          rw [placed, List.map_cons, offsetOf, liveOf_cons_of_ne (by omega), List.pairwise_cons]
          exact ⟨fun off hoff => (hbelow off hoff).2, ih hrest (by omega)⟩

theorem length_liveOf_placed (hne : ∀ row, some row ∈ entries → row ≠ []) (hlow : 0 < low)
    (hfits : low + (rowArea entries).length ≤ stop) :
    (liveOf ((placed stop entries).map offsetOf)).length = entries.countP Option.isSome := by
  induction entries generalizing stop with
  | nil => rfl
  | cons entry entries ih =>
      rw [rowArea, List.length_append] at hfits
      have hrest : ∀ row, some row ∈ entries → row ≠ [] := fun row hrow => hne row (List.mem_cons_of_mem _ hrow)
      cases entry with
      | none =>
          rw [placed, List.map_cons, offsetOf, liveOf_cons_zero, ih hrest hfits, List.countP_cons_of_neg (by decide)]
      | some row =>
          rw [Option.getD_some] at hfits
          rw [placed, List.map_cons, offsetOf, liveOf_cons_of_ne (by omega), List.length_cons, ih hrest (by omega),
            List.countP_cons_of_pos rfl]

theorem placed_zero {i : Nat} (hlow : 0 < low) (hfits : low + (rowArea entries).length ≤ stop)
    (h : ((placed stop entries).map offsetOf)[i]? = some 0) : entries[i]? = some none := by
  induction entries generalizing stop i with
  | nil => simp [placed] at h
  | cons entry entries ih =>
      rw [rowArea, List.length_append] at hfits
      cases entry with
      | none =>
          cases i with
          | zero => rfl
          | succ i => exact @ih stop i hfits h
      | some row =>
          rw [Option.getD_some] at hfits
          cases i with
          | zero =>
              rw [placed, List.map_cons, offsetOf, List.getElem?_cons_zero, Option.some.injEq] at h
              omega
          | succ i => exact @ih (stop - row.length) i (by omega) h

theorem listedRow_placed {above : List Nat} {front back page : Bytes} (hne : ∀ row, some row ∈ entries → row ≠ [])
    (hfront : 0 < front.length) (hstop : front.length + (rowArea entries).length = stop) (htrailer : stop ≤ trailerStart)
    (hpage : page = front ++ rowArea entries ++ back)
    (habove : above = [] ∧ stop = trailerStart ∨ stop ∈ above ∧ ∀ c ∈ above, stop ≤ c) :
    ∀ place ∈ placed stop entries,
      listedRow page (above ++ liveOf ((placed stop entries).map offsetOf)) (offsetOf place) = place := by
  induction entries generalizing stop above back with
  | nil =>
      intro place hplace
      cases hplace
  | cons entry entries ih =>
      have hrest : ∀ row, some row ∈ entries → row ≠ [] := fun row hrow => hne row (List.mem_cons_of_mem _ hrow)
      intro place hplace
      cases entry with
      | none =>
          rw [rowArea, Option.getD_none, List.append_nil] at hstop hpage
          rw [placed] at hplace
          rw [placed, List.map_cons, offsetOf, liveOf_cons_zero]
          rcases List.mem_cons.mp hplace with rfl | hplace
          · rfl
          · exact ih hrest hstop htrailer hpage habove place hplace
      | some row =>
          have hrow : 0 < row.length := List.length_pos_of_ne_nil (hne row List.mem_cons_self)
          rw [rowArea, Option.getD_some] at hstop hpage
          rw [List.length_append] at hstop
          have hoff : front.length + (rowArea entries).length = stop - row.length := by omega
          have hbelow := @placed_bounds entries (stop - row.length) front.length hrest (by omega)
          rw [placed] at hplace
          rw [placed, List.map_cons, offsetOf, liveOf_cons_of_ne (by omega)]
          rcases List.mem_cons.mp hplace with rfl | hplace
          · have hupTo : ∀ c ∈ (stop - row.length) :: liveOf ((placed (stop - row.length) entries).map offsetOf),
                c ≤ stop - row.length := List.forall_mem_cons.mpr ⟨le_rfl, fun c hc => (hbelow c hc).2.le⟩
            have hend := blockEnd_append habove hupTo (by omega)
            have hwindow : (page.take stop).drop (stop - row.length) = row := by
              have hfull : page = (front ++ rowArea entries ++ row) ++ back := by
                rw [hpage, ← List.append_assoc front]
              rw [hfull, List.take_left' (by simp only [List.length_append]; omega),
                List.drop_left' (by rw [List.length_append]; omega)]
            rw [offsetOf, listedRow, if_neg (by omega), hend, if_pos ⟨by omega, htrailer⟩, hwindow]
          · have hmore : above ++ (stop - row.length) :: liveOf ((placed (stop - row.length) entries).map offsetOf) =
                (above ++ [stop - row.length]) ++ liveOf ((placed (stop - row.length) entries).map offsetOf) := by
              rw [List.append_assoc, List.singleton_append]
            rw [hmore]
            refine @ih (stop - row.length) (above ++ [stop - row.length]) (row ++ back) hrest hoff (by omega) ?_ (.inr ⟨?_, ?_⟩) place hplace
            · rw [hpage, ← List.append_assoc front, List.append_assoc (front ++ rowArea entries)]
            · exact List.mem_append_right _ (List.mem_singleton_self _)
            · intro c hc
              rcases List.mem_append.mp hc with hc | hc
              · rcases habove with ⟨rfl, -⟩ | ⟨-, hleast⟩
                · cases hc
                · exact (Nat.sub_le _ _).trans (hleast c hc)
              · exact (List.mem_singleton.mp hc).ge

end Places

theorem row_of_listedRow (page : Bytes) (live : List Nat) (i off : Nat) :
    (listedRow page live off).map (fun place => (i, place.1, place.2)) =
      if off = 0 then none else rowOf page live i off := by
  rw [listedRow, rowOf]
  by_cases hzero : off = 0
  · rw [if_pos hzero, if_pos hzero]
    rfl
  · rw [if_neg hzero, if_neg hzero]
    split <;> rfl

section Pages

theorem u16le_words {words : List Nat} {i : Nat} (hwords : ∀ w ∈ words, w < 0x10000) (hi : i < words.length)
    (rest : Bytes) : u16le (words.flatMap (toLeBytes 2) ++ rest) (2 * i) = words[i] := by
  induction words generalizing i with
  | nil => exact absurd hi (Nat.not_lt_zero i)
  | cons word words ih =>
      obtain ⟨hword, hlater⟩ := List.forall_mem_cons.mp hwords
      cases i with
      | zero =>
          change (UInt8.ofNat word).toNat + 256 * (UInt8.ofNat (word / 256)).toNat = word
          rw [UInt8.toNat_ofNat', UInt8.toNat_ofNat']
          omega
      | succ i => exact ih hlater (Nat.lt_of_succ_lt_succ hi)

theorem getD_zeros_append {n i : Nat} (rest : Bytes) (h : i < n) : (List.replicate n 0 ++ rest).getD i 0 = 0 := by
  rw [List.getD_append _ _ _ _ (by rw [List.length_replicate]; exact h), List.getD_eq_getElem?_getD,
    List.getElem?_replicate]
  split <;> rfl

namespace SlotPlan

variable (plan : SlotPlan)

theorem length_offsets : plan.offsets.length = plan.entries.length := by
  rw [offsets, places, List.length_map, length_placed]

theorem length_array : plan.array.length = 2 * plan.entries.length := by
  rw [array, MaterializedWriting.length_flatMap_words, length_offsets]

theorem length_front : plan.front.length = trailerStart - (rowArea plan.entries).length := by
  have hroom := plan.room
  have hfits := plan.fits
  rw [front, List.length_append, List.length_append, List.length_replicate, List.length_replicate, length_array]
  omega

theorem length_bytes : plan.bytes.length = pageSize := by
  have hfits := plan.fits
  have htrailer := plan.length_trailer
  have hpage : trailerStart + 16 = pageSize := rfl
  rw [bytes, List.length_append, List.length_append, length_front]
  omega

def page (index : Nat) : Page := ⟨index, plan.bytes, plan.length_bytes⟩

theorem offset_bounds {off : Nat} (h : off ∈ liveOf plan.offsets) : searchLimit ≤ off ∧ off < trailerStart :=
  placed_bounds plan.nonempty plan.fits off h

theorem writtenDirectory : WrittenDirectory plan.bytes plan.arrayStart plan.offsets := by
  have hroom := plan.room
  have hfits := plan.fits
  have hlength := plan.length_offsets
  have hrows : ∀ off ∈ plan.offsets, off = 0 ∨ searchLimit ≤ off ∧ off < trailerStart := by
    intro off hoff
    by_cases hzero : off = 0
    · exact .inl hzero
    · exact .inr (plan.offset_bounds (List.mem_filter.mpr ⟨hoff, by simpa using hzero⟩))
  have hdeleted {i : Nat} (h : plan.offsets[i]? = some 0) : plan.entries[i]? = some none :=
    placed_zero (by decide : 0 < 0x300) plan.fits h
  refine ⟨?_, ?_, ?_, by omega, plan.apart, hrows, ?_, ?_, ?_, ?_⟩
  · intro i hi
    rw [bytes, front, List.append_assoc, List.append_assoc, List.append_assoc]
    exact getD_zeros_append _ hi
  · intro i hi
    have hshift (rest : Bytes) : u16le (List.replicate plan.arrayStart 0 ++ rest) (plan.arrayStart + 2 * i) =
        u16le rest (2 * i) := by
      rw [u16le, u16le, Nat.add_assoc, List.getD_append_right _ _ _ _ (by simp), List.getD_append_right _ _ _ _ (by simp),
        List.length_replicate, Nat.add_sub_cancel_left, Nat.add_sub_cancel_left]
    rw [bytes, front, List.append_assoc, List.append_assoc, List.append_assoc, hshift]
    refine u16le_words ?_ hi _
    intro off hoff
    rcases hrows off hoff with rfl | ⟨-, hhigh⟩
    · decide
    · exact hhigh.trans (by decide)
  · intro i hi hlow
    have hbefore : (List.replicate plan.arrayStart 0 ++ plan.array).length =
        plan.arrayStart + 2 * plan.offsets.length := by
      rw [List.length_append, List.length_replicate, length_array, hlength]
    rw [bytes, front, List.append_assoc, List.append_assoc, List.getD_append_right _ _ _ _ (by omega), hbefore]
    exact getD_zeros_append _ (by omega)
  · intro hhead
    rw [List.head?_eq_getElem?] at hhead
    exact plan.first_live (by rw [List.head?_eq_getElem?]; exact hdeleted hhead)
  · intro hlast
    rw [List.getLast?_eq_getElem?, hlength] at hlast
    exact plan.last_live (by rw [List.getLast?_eq_getElem?]; exact hdeleted hlast)
  · exact placed_descending plan.nonempty (by decide : 0 < 0x300) plan.fits
  · exact plan.enough.trans (length_liveOf_placed plan.nonempty (by decide : 0 < 0x300) plan.fits).ge

theorem slots_directory : plan.directory.slots = plan.listing.map offsetOf := by
  rw [listing, List.map_append, List.map_replicate]
  rfl

theorem directory_eq : plan.directory =
    ⟨plan.arrayStart - 2, plan.arrayStart, plan.arrayStart + 2 * (plan.entries.length + plan.freeWords),
      plan.places.map offsetOf ++ List.replicate plan.freeWords 0, decide (plan.arrayStart ≠ 0), false⟩ := by
  have hlength : (slotsOf plan.arrayStart plan.offsets).length = plan.entries.length + plan.freeWords := by
    rw [slotsOf, List.length_append, List.length_replicate, freeWords, plan.length_offsets]
  rw [directory, directoryOf, hlength]
  rfl

theorem listedRow_listing : ∀ place ∈ plan.listing,
    listedRow plan.bytes plan.directory.liveSlots (offsetOf place) = place := by
  intro place hplace
  have hlive : plan.directory.liveSlots = liveOf plan.offsets := liveOf_slotsOf plan.arrayStart plan.offsets
  rw [hlive]
  rcases List.mem_append.mp hplace with hplace | hzero
  · have hfits := plan.fits
    have hfront := plan.length_front
    have hlimit : 0 < searchLimit := by decide
    exact @listedRow_placed _ _ [] _ _ _ plan.nonempty (by omega) (by omega) le_rfl rfl (.inl ⟨rfl, rfl⟩) place hplace
  · rw [List.eq_of_mem_replicate hzero]
    rfl

theorem directory_page (index : Nat) : (SlottedPage.parse (plan.page index)).directory = some plan.directory :=
  (SlottedPage.parse_directory _).trans (findSlotDirectory_written plan.writtenDirectory)

theorem slotRows_page {ε : Type} (index : Nat) : slotRows (ε := ε) plan.directory (plan.page index).bytes =
    .ok (plan.listing.zipIdx.map fun entry => ⟨entry.2, entry.1⟩) := by
  rw [slotRows_eq, slots_directory, List.zipIdx_map, List.map_map]
  apply congrArg Except.ok
  apply List.map_congr_left
  rintro ⟨place, i⟩ hentry
  exact congrArg (SlotRow.mk i) (plan.listedRow_listing place (List.fst_mem_of_mem_zipIdx hentry))

theorem rowSlots_page {ε : Type} (index : Nat) :
    rowSlots (ε := ε) (SlottedPage.parse (plan.page index)) = .ok plan.rows := by
  rw [rowSlots_eq (plan.directory_page index), slots_directory, List.zipIdx_map, List.filterMap_map]
  apply congrArg Except.ok
  have hfree : ((List.replicate plan.freeWords (none : Option (Nat × Bytes))).zipIdx plan.places.length).filterMap
        (fun entry => entry.1.map fun place => (entry.2, place.1, place.2)) = [] := by
    rw [List.filterMap_eq_nil_iff]
    intro entry hentry
    rw [List.eq_of_mem_replicate (List.fst_mem_of_mem_zipIdx hentry)]
    rfl
  calc
    _ = plan.listing.zipIdx.filterMap fun entry => entry.1.map fun place => (entry.2, place.1, place.2) := by
      apply List.filterMap_congr
      rintro ⟨place, i⟩ hentry
      have hlisted := plan.listedRow_listing place (List.fst_mem_of_mem_zipIdx hentry)
      rw [Function.comp_apply, ← row_of_listedRow, SlottedPage.parse_page]
      exact congrArg (Option.map fun place => (i, place.1, place.2)) hlisted
    _ = plan.rows := by
      rw [listing, List.zipIdx_append, List.filterMap_append, Nat.zero_add, hfree, List.append_nil, rows]

theorem unclassifiedPrefix_page {ε : Type} (index : Nat) :
    unclassifiedPrefix (ε := ε) (SlottedPage.parse (plan.page index)) = .ok none := by
  have hroom := plan.room
  have hzeros : (slice plan.bytes 0 plan.arrayStart : Outcome ε Bytes) = .ok (List.replicate plan.arrayStart 0) := by
    have hlength := plan.length_bytes
    have hpage : searchLimit ≤ pageSize := by decide
    rw [slice_of_le (Nat.zero_le _) (by omega), List.drop_zero, bytes, front, List.append_assoc, List.append_assoc,
      List.append_assoc, List.take_left' List.length_replicate]
  rw [unclassifiedPrefix, plan.directory_page, SlottedPage.parse_page]
  change (if plan.arrayStart = 0 then pure none else slice plan.bytes 0 plan.arrayStart >>= _) = _
  by_cases hfirst : plan.arrayStart = 0
  · rw [if_pos hfirst]
    rfl
  · rw [if_neg hfirst, hzeros]
    change Except.ok (if (List.replicate plan.arrayStart 0).all (· == 0) then none else some _) = _
    rw [if_pos (by simp)]

theorem map_rows : plan.rows.map (fun row => (row.1, row.2.2)) =
    plan.entries.zipIdx.filterMap fun entry => entry.1.map fun row => (entry.2, row) := by
  have hentries : plan.places.map (Option.map (·.2)) = plan.entries := placed_rows trailerStart plan.entries
  rw [rows, List.map_filterMap]
  conv_rhs => rw [← hentries, List.zipIdx_map, List.filterMap_map]
  apply List.filterMap_congr
  rintro ⟨place, i⟩ _
  cases place with
  | none => rfl
  | some place => rfl

end SlotPlan

end Pages

/-- A page that was written with rows and deleted entries is read back: among all that a scan could take for one
its directory is found where it begins, with the entries that were written and a deleted one for each word of free
space behind them; its rows are those that were written, each at its index, and nothing lies before them. -/
theorem written_page_read (plan : SlotPlan) (index : Nat) :
    (SlottedPage.parse (plan.page index)).directory = some plan.directory ∧
      plan.directory =
        ⟨plan.arrayStart - 2, plan.arrayStart, plan.arrayStart + 2 * (plan.entries.length + plan.freeWords),
          plan.places.map offsetOf ++ List.replicate plan.freeWords 0, decide (plan.arrayStart ≠ 0), false⟩ ∧
      rowSlots (ε := Empty) (SlottedPage.parse (plan.page index)) = .ok plan.rows ∧
      plan.rows.map (fun row => (row.1, row.2.2)) =
        plan.entries.zipIdx.filterMap (fun entry => entry.1.map fun row => (entry.2, row)) ∧
      slotRows (ε := Empty) plan.directory (plan.page index).bytes =
        .ok ((plan.places ++ List.replicate plan.freeWords none).zipIdx.map
          fun entry : Option (Nat × Bytes) × Nat => ⟨entry.2, entry.1⟩) ∧
      unclassifiedPrefix (ε := Empty) (SlottedPage.parse (plan.page index)) = .ok none :=
  ⟨plan.directory_page index, plan.directory_eq, plan.rowSlots_page index, plan.map_rows, plan.slotRows_page index,
    plan.unclassifiedPrefix_page index⟩

def eightRows : SlotPlan where
  arrayStart := 0x20
  entries := [some [1], some [2, 2], none, some [3], some [4], some [5], some [6], some [7], some [8, 8, 8]]
  trailer := List.replicate 16 0
  apart := by decide
  room := by decide
  nonempty := by
    rintro row hrow rfl
    revert hrow
    decide
  first_live := by decide
  last_live := by decide
  enough := by decide
  fits := by decide
  length_trailer := by decide

example : eightRows.rows.map (fun row => (row.1, row.2.1)) = [(0, 0xFEF), (1, 0xFED), (3, 0xFEC), (4, 0xFEB),
    (5, 0xFEA), (6, 0xFE9), (7, 0xFE8), (8, 0xFE5)] := by decide

end OpenSqlAny.SlotWriting
