import OpenSqlAny.ApPages

namespace OpenSqlAny.ApLearning

open Library.LittleEndian Library.Histograms Library.HashEntries PageStores ApFill ApSectors ApVotes ApPages

theorem pageTypeRaw_eq (page : Page) :
    page.trailer.pageTypeRaw = page.bytes.getD (trailerStart + 2) 0 :=
  page.trailer_byte (by decide)

theorem getElem?_pageType (page : Page) : page.bytes[trailerStart + 2]? = some page.trailer.pageTypeRaw := by
  have hin : trailerStart + 2 < page.bytes.length := by
    rw [page.length_eq]
    decide
  rw [pageTypeRaw_eq, List.getD_eq_getElem?_getD, List.getElem?_eq_getElem hin, Option.getD_some]

def blockVotes (store : PageStore) (bi : Nat) : List UInt8 := castsOf bi (store.pages.flatMap pageCasts)

def isPure (bytes : Bytes) : Bool := pureApTypes.contains (bytes.getD (trailerStart + 2) 0)

section Votes

variable {store : PageStore} {bi : Nat}

theorem pageCasts_eq (page : Page) :
    pageCasts page = if isPure page.bytes then
      (pageVotes page.bytes page.index).map (fun bv => (page.index / 16, bv)) else [] := by
  rw [pageCasts, pageTypeRaw_eq, isPure]

theorem casts_eq (store : PageStore) :
    store.pages.flatMap pageCasts = (List.range store.pageCount).flatMap (fun pn =>
      if isPure (store.pageBytes pn) then
        (pageVotes (store.pageBytes pn) pn).map (fun bv => (pn / 16, bv)) else []) := by
  rw [List.flatMap_def, PageStore.map_pages store pageCasts (fun pn bytes =>
    if isPure bytes then (pageVotes bytes pn).map (fun bv => (pn / 16, bv)) else []) pageCasts_eq,
    List.flatMap_def]

theorem mem_blockVotes_iff {v : UInt8} :
    v ∈ blockVotes store bi ↔ ∃ pn < store.pageCount, pn / 16 = bi ∧
      isPure (store.pageBytes pn) = true ∧ v ∈ pageVotes (store.pageBytes pn) pn := by
  rw [blockVotes, castsOf, casts_eq, List.mem_map]
  constructor
  · rintro ⟨⟨block, w⟩, hcast, rfl⟩
    obtain ⟨hcast, hblock⟩ := List.mem_filter.mp hcast
    obtain ⟨pn, hpn, hcast⟩ := List.mem_flatMap.mp hcast
    rw [List.mem_range] at hpn
    split at hcast
    · rename_i hpure
      obtain ⟨w, hw, heq⟩ := List.mem_map.mp hcast
      cases heq
      exact ⟨pn, hpn, by simpa using hblock, hpure, hw⟩
    · cases hcast
  · rintro ⟨pn, hpn, rfl, hpure, hv⟩
    refine ⟨(pn / 16, v), List.mem_filter.mpr ⟨?_, by simp⟩, rfl⟩
    apply List.mem_flatMap.mpr
    refine ⟨pn, List.mem_range.mpr hpn, ?_⟩
    rw [if_pos hpure]
    exact List.mem_map_of_mem hv

variable (orders : LearnOrders)

/-- The bv that learning gives a block is the winner of the block's votes. -/
theorem find?_learnedMap : find? bi (learnedMap orders store) =
    winner (orders.ballots bi) (blockVotes store bi) := by
  have hkeys : ((collectVotes store).map (·.1)).Nodup := ballots_keys_nodup _
  have hkeys' : ((orders.blocks.iter (collectVotes store)).map (·.1)).Nodup :=
    ((orders.blocks.perm _).map _).nodup_iff.mpr hkeys
  rw [learnedMap, find?_rebuild _ hkeys', find?_perm (orders.blocks.perm _) hkeys, collectVotes, find?_ballots]
  change (if blockVotes store bi = [] then none else some (ballot (blockVotes store bi))).bind _ = _
  by_cases hnil : blockVotes store bi = []
  · rw [if_pos hnil, hnil, winner_nil]
    rfl
  · rw [if_neg hnil]
    rfl

theorem learnedMap_keys_nodup (store : PageStore) : ((learnedMap orders store).map (·.1)).Nodup :=
  keys_rebuild_nodup _ _

theorem mem_learnedMap_iff {v : UInt8} : (bi, v) ∈ learnedMap orders store ↔
    winner (orders.ballots bi) (blockVotes store bi) = some v := by
  rw [← find?_eq_some_iff (learnedMap_keys_nodup orders store), find?_learnedMap]

theorem bvAt_learn (store : PageStore) (bi : Nat) : (ApModel.learn orders store).bvAt bi =
    (winner (orders.ballots bi) (blockVotes store bi)).getD (ApModel.learn orders store).bv0 := by
  rw [ApModel.bvAt, ← find?_learnedMap]
  rfl

theorem bv0_learn (store : PageStore) : (ApModel.learn orders store).bv0 =
    (winner (orders.ballots 0) (blockVotes store 0)).getD
      (((orders.values.iter (learnedMap orders store)).head?.map (·.2)).getD 0) := by
  rw [← find?_learnedMap, ApModel.learn]

end Votes

end OpenSqlAny.ApLearning
