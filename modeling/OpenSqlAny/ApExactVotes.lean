import OpenSqlAny.ApOrders

namespace OpenSqlAny.ApExactVotes

open Library.LittleEndian Library.Histograms Library.HashEntries PageStores ApFill ApSectors ApVotes ApPages
  ApLearning ApOrders
open scoped UInt8.CommRing

/-- Every byte of the sector lies on one progression modulo 256. -/
def OnProgression (sec : Bytes) : Prop :=
  ∃ b s : UInt8, ∀ i (h : i < sec.length), sec[i] = b + UInt8.ofNat i * s

def pageSectors (store : PageStore) (pn : Nat) : List (Nat × Nat) :=
  if isPure (store.pageBytes pn) then (List.range sectorsPerPage).map (fun si => (pn, si)) else []

def blockSectors (store : PageStore) (bi : Nat) : List (Nat × Nat) :=
  ((List.range store.pageCount).filter (· / 16 = bi)).flatMap (pageSectors store)

section Sectors

variable {bytes sec : Bytes} {pn si : Nat} {bv : UInt8}

theorem onProgression_iff : OnProgression sec ↔ ∃ base step, sec = progression base step sec.length := by
  refine exists_congr fun base => exists_congr fun step => ?_
  constructor
  · intro h
    apply List.ext_getElem
    · rw [length_progression]
    · intro i hi hi'
      rw [getElem_progression, h i hi]
      rfl
  · intro h i hi
    rw [List.getElem_of_eq h, getElem_progression]
    rfl

theorem apBase_inj {v w : UInt8} : apBase pn si v = apBase pn si w ↔ v = w := by
  constructor
  · intro h
    rw [← apBase_back pn si v, h, apBase_back]
  · rintro rfl
    rfl

theorem existsUnique_apBase (pn si : Nat) (b : UInt8) : ∃! bv, apBase pn si bv = b := by
  have hback : apBase pn si (b - UInt8.ofNat pn - UInt8.ofNat si + bias pn) = b := by
    rw [apBase]
    ring
  exact ⟨_, hback, fun bv hbv => apBase_inj.mp (hbv.trans hback.symm)⟩

theorem sectorVote_iff (hlen : trailerStart ≤ bytes.length) (hsi : si < sectorsPerPage) :
    sectorVote bytes pn si = some bv ↔
      OnProgression (sectorOf bytes si) ∧ (sectorOf bytes si)[0]? = some (apBase pn si bv) := by
  obtain ⟨m, hpos, hm⟩ := sector_even hsi
  have hlength : (sectorOf bytes si).length = 2 * m := by rw [length_sectorOf hsi hlen, hm]
  have hfirst {base step : UInt8} (h : sectorOf bytes si = progression base step (sectorOf bytes si).length) :
      (sectorOf bytes si)[0]? = some base := by
    rw [h, List.getElem?_eq_getElem (by rw [length_progression]; omega), getElem_progression]
    simp [strideAt]
  rw [sectorVote_eq_some_iff (by omega), onProgression_iff]
  constructor
  · rintro ⟨base, step, hsec, rfl⟩
    refine ⟨⟨base, step, hsec⟩, ?_⟩
    rw [hfirst hsec, apBase]
    congr 1
    ring
  · intro h
    obtain ⟨⟨base, step, hsec⟩, hbase⟩ := h
    rw [hfirst hsec, Option.some.injEq] at hbase
    exact ⟨base, step, hsec, by rw [hbase, apBase_back]⟩

theorem exists_vote_iff (hlen : trailerStart ≤ bytes.length) (hsi : si < sectorsPerPage) :
    (∃ bv, sectorVote bytes pn si = some bv) ↔ OnProgression (sectorOf bytes si) := by
  constructor
  · intro ⟨bv, hvote⟩
    exact ((sectorVote_iff hlen hsi).mp hvote).1
  · intro h
    obtain ⟨m, hpos, hm⟩ := sector_even hsi
    have hlength : (sectorOf bytes si).length = 2 * m := by rw [length_sectorOf hsi hlen, hm]
    obtain ⟨bv, hbv, -⟩ := existsUnique_apBase pn si (sectorOf bytes si)[0]
    refine ⟨bv, (sectorVote_iff hlen hsi).mpr ⟨h, ?_⟩⟩
    rw [hbv, List.getElem?_eq_getElem]

end Sectors

section Counters

variable {store : PageStore} {bi : Nat}

theorem blockVotes_sectors (store : PageStore) (bi : Nat) : blockVotes store bi =
    (blockSectors store bi).filterMap (fun sector => sectorVote (store.pageBytes sector.1) sector.1 sector.2) := by
  rw [blockVotes_eq, blockBallot, blockSectors, List.filterMap_flatMap]
  apply List.flatMap_congr
  intro pn hpn
  have hin := List.mem_range.mp (List.mem_of_mem_filter hpn)
  rw [pageBallot, pageSectors, ← pageVotes_eq (trailerStart_le_pageBytes hin), pageVotes]
  split
  · rw [List.filterMap_map]
    rfl
  · rfl

theorem counter_collectVotes (store : PageStore) (bi : Nat) (bv : UInt8) :
    (find? bv ((find? bi (collectVotes store)).getD [])).getD 0 =
      (blockSectors store bi).countP
        (fun sector => sectorVote (store.pageBytes sector.1) sector.1 sector.2 == some bv) := by
  rw [collectVotes, counter_ballots, ← blockVotes, blockVotes_sectors, List.count_filterMap]

end Counters

section Pages

variable {bytes : Bytes} {pn : Nat} {bv ptype : UInt8}

theorem learnBvForPage_pure (order : HashOrder UInt8 Nat) (hpure : ptype ∈ pureApTypes) :
    learnBvForPage order bytes pn ptype = winner order (pageVotes bytes pn) := by
  rw [learnBvForPage, if_pos (List.contains_iff_mem.mpr hpure)]

theorem mem_pageVotes_iff : bv ∈ pageVotes bytes pn ↔ ∃ si < sectorsPerPage, sectorVote bytes pn si = some bv := by
  rw [pageVotes, List.mem_filterMap]
  exact exists_congr fun si => and_congr_left fun _ => List.mem_range

/-- How the sectors of one page vote, and what follows for the page and for the blocks of a store. -/
structure ExactVoting (order : HashOrder UInt8 Nat) (store : PageStore) (bytes : Bytes) (pn : Nat)
    (ptype : UInt8) : Prop where
  voters : ∀ si < sectorsPerPage, (∃ bv, sectorVote bytes pn si = some bv) ↔ OnProgression (sectorOf bytes si)
  votes : ∀ si < sectorsPerPage, ∀ bv, sectorVote bytes pn si = some bv →
    (sectorOf bytes si)[0]? = some (apBase pn si bv)
  unique : ∀ si b, ∃! bv, apBase pn si bv = b
  counted : ∀ bi bv, (find? bv ((find? bi (collectVotes store)).getD [])).getD 0 =
    (blockSectors store bi).countP
      (fun sector => sectorVote (store.pageBytes sector.1) sector.1 sector.2 == some bv)
  agreed : ∀ bv, (∃ si < sectorsPerPage, sectorVote bytes pn si = some bv) →
    (∀ si < sectorsPerPage, ∀ v, sectorVote bytes pn si = some v → v = bv) →
    learnBvForPage order bytes pn ptype = some bv
  silent : (∀ si < sectorsPerPage, ¬OnProgression (sectorOf bytes si)) →
    learnBvForPage order bytes pn ptype = none

/-- Exactly the progressions vote, in both learners, each for the one bv that explains its first byte. -/
theorem exactVoting (order : HashOrder UInt8 Nat) (store : PageStore) (pn : Nat)
    (hlen : trailerStart ≤ bytes.length) (hpure : ptype ∈ pureApTypes) :
    ExactVoting order store bytes pn ptype := by
  constructor
  · intro si hsi
    exact exists_vote_iff hlen hsi
  · intro si hsi bv hvote
    exact ((sectorVote_iff hlen hsi).mp hvote).2
  · exact existsUnique_apBase pn
  · exact counter_collectVotes store
  · intro bv hvoted hagree
    rw [learnBvForPage_pure order hpure]
    apply winner_of_all_eq order (mem_pageVotes_iff.mpr hvoted)
    intro v hv
    obtain ⟨si, hsi, hvote⟩ := mem_pageVotes_iff.mp hv
    exact hagree si hsi v hvote
  · intro hsilent
    have hnil : pageVotes bytes pn = [] := by
      apply List.eq_nil_iff_forall_not_mem.mpr
      intro bv hbv
      obtain ⟨si, hsi, hvote⟩ := mem_pageVotes_iff.mp hbv
      exact hsilent si hsi ((exists_vote_iff hlen hsi).mp ⟨bv, hvote⟩)
    rw [learnBvForPage_pure order hpure, hnil, winner_nil]

theorem exactVoting_tiedPage :
    ExactVoting insertionOrder (PageStore.ofPage tiedPage length_tiedPage) tiedPage 0 0x40 :=
  exactVoting insertionOrder _ 0 (by rw [length_tiedPage]; decide) List.mem_cons_self

end Pages

end OpenSqlAny.ApExactVotes
