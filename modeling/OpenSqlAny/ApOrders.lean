import OpenSqlAny.ApLearning

namespace OpenSqlAny.ApOrders

open Library.LittleEndian Library.Histograms Library.HashEntries PageStores ApFill ApSectors ApVotes ApPages
  ApLearning

def exactVote (bytes : Bytes) (pn si : Nat) : Option UInt8 :=
  let sec := sectorOf bytes si
  let base := sec.getD 0 0
  if sec = progression base (sec.getD 1 0 - base) sec.length then
    some (base - UInt8.ofNat pn - UInt8.ofNat si + bias pn)
  else none

def pageBallot (bytes : Bytes) (pn : Nat) : List UInt8 :=
  if isPure bytes then (List.range sectorsPerPage).filterMap (exactVote bytes pn) else []

def blockBallot (store : PageStore) (bi : Nat) : List UInt8 :=
  ((List.range store.pageCount).filter (· / 16 = bi)).flatMap (fun pn => pageBallot (store.pageBytes pn) pn)

/-- Nothing that is calibrated from a store depends on the order of a hash map. -/
structure OrderFree (store : PageStore) : Prop where
  bvAt : ∀ orders orders' bi,
    (ApModel.learn orders store).bvAt bi = (ApModel.learn orders' store).bvAt bi
  learnBvForPage : ∀ order order' pn page, store.page pn = .ok page →
    learnBvForPage order page.bytes pn page.trailer.pageTypeRaw =
      learnBvForPage order' page.bytes pn page.trailer.pageTypeRaw
  deobfuscate : ∀ orders orders' raw pn,
    (ApModel.learn orders store).deobfuscate raw pn = (ApModel.learn orders' store).deobfuscate raw pn
  deobfuscateWithStore : ∀ orders orders' order order' pn page, store.page pn = .ok page →
    (ApModel.learn orders store).deobfuscateWithStore order page.bytes pn store =
      (ApModel.learn orders' store).deobfuscateWithStore order' page.bytes pn store

/-- No two candidates tie, in a page or in a block, and the fallback has one candidate at most. -/
structure NoTies (store : PageStore) : Prop where
  blocks : ∀ bi, UniqueLeader (blockBallot store bi)
  pages : ∀ pn < store.pageCount, UniqueLeader (pageBallot (store.pageBytes pn) pn)
  fallback : blockBallot store 0 ≠ [] ∨
    ∀ bi bj v w, Leads (blockBallot store bi) v → Leads (blockBallot store bj) w → v = w

section Ballots

variable {bytes : Bytes} {pn si : Nat}

theorem sectorVote_eq_exactVote (hlen : trailerStart ≤ bytes.length) (hsi : si < sectorsPerPage) :
    sectorVote bytes pn si = exactVote bytes pn si := by
  obtain ⟨m, hpos, hm⟩ := sector_even hsi
  have hlength : (sectorOf bytes si).length = 2 * m := by rw [length_sectorOf hsi hlen, hm]
  apply Option.ext
  intro bv
  rw [sectorVote_eq_some_iff (by omega), exactVote]
  constructor
  · rintro ⟨base, step, hsec, rfl⟩
    have hfirst : (sectorOf bytes si).getD 0 0 = base := by
      rw [hsec, List.getD_eq_getElem _ _ (by rw [length_progression]; omega), getElem_progression]
      simp [strideAt]
    have hsecond : (sectorOf bytes si).getD 1 0 = base + step := by
      rw [hsec, List.getD_eq_getElem _ _ (by rw [length_progression]; omega), getElem_progression]
      simp [strideAt]
    have hstep : base + step - base = step := by simp
    simp only [hfirst, hsecond, hstep]
    rw [if_pos hsec]
  · intro hvote
    split at hvote
    · rename_i hsec
      exact ⟨_, _, hsec, (Option.some.inj hvote).symm⟩
    · cases hvote

theorem pageVotes_eq (hlen : trailerStart ≤ bytes.length) :
    pageVotes bytes pn = (List.range sectorsPerPage).filterMap (exactVote bytes pn) := by
  rw [pageVotes]
  apply List.filterMap_congr
  intro si hsi
  exact sectorVote_eq_exactVote hlen (List.mem_range.mp hsi)

variable {store : PageStore}

theorem trailerStart_le_pageBytes (h : pn < store.pageCount) :
    trailerStart ≤ (store.pageBytes pn).length := by
  rw [store.length_pageBytes h]
  decide

theorem castsOf_page (hpn : pn < store.pageCount) (bi : Nat) :
    castsOf bi (if isPure (store.pageBytes pn) then
      (pageVotes (store.pageBytes pn) pn).map (fun bv => (pn / 16, bv)) else []) =
      if pn / 16 = bi then pageBallot (store.pageBytes pn) pn else [] := by
  rw [pageBallot, ← pageVotes_eq (trailerStart_le_pageBytes hpn)]
  by_cases hpure : isPure (store.pageBytes pn) = true
  · rw [if_pos hpure, if_pos hpure, castsOf_map]
  · rw [if_neg hpure, if_neg hpure, ite_self]
    rfl

theorem blockVotes_eq (store : PageStore) (bi : Nat) : blockVotes store bi = blockBallot store bi := by
  rw [blockVotes, casts_eq, castsOf_flatMap, blockBallot]
  have hpages : ∀ pns : List Nat, (∀ pn ∈ pns, pn < store.pageCount) →
      pns.flatMap (fun pn => castsOf bi (if isPure (store.pageBytes pn) then
        (pageVotes (store.pageBytes pn) pn).map (fun bv => (pn / 16, bv)) else [])) =
      (pns.filter (· / 16 = bi)).flatMap (fun pn => pageBallot (store.pageBytes pn) pn) := by
    intro pns
    induction pns with
    | nil => intro _; rfl
    | cons pn pns ih =>
        intro hpns
        obtain ⟨hpn, hpns⟩ := List.forall_mem_cons.mp hpns
        rw [List.flatMap_cons, ih hpns, castsOf_page hpn]
        by_cases hbi : pn / 16 = bi
        · rw [if_pos hbi, List.filter_cons_of_pos (by simpa using hbi), List.flatMap_cons]
        · rw [if_neg hbi, List.filter_cons_of_neg (by simpa using hbi), List.nil_append]
  exact hpages _ (fun pn hpn => List.mem_range.mp hpn)

theorem learnBvForPage_eq (order : HashOrder UInt8 Nat) {page : Page} (hpage : store.page pn = .ok page) :
    learnBvForPage order page.bytes pn page.trailer.pageTypeRaw =
      winner order (pageBallot (store.pageBytes pn) pn) := by
  obtain ⟨hpn, -, hbytes⟩ := PageStore.page_eq_ok_iff.mp hpage
  rw [learnBvForPage, pageTypeRaw_eq, hbytes, pageBallot, ← pageVotes_eq (trailerStart_le_pageBytes hpn)]
  change (if isPure (store.pageBytes pn) then _ else _) = _
  split
  · rfl
  · rw [winner_nil]

end Ballots

section Fallbacks

variable {store : PageStore}

theorem bvAt_of_unique (orders : LearnOrders) {bi : Nat} {v : UInt8}
    (hlead : Leads (blockBallot store bi) v) (hunique : UniqueLeader (blockBallot store bi)) :
    (ApModel.learn orders store).bvAt bi = v := by
  rw [bvAt_learn, blockVotes_eq, winner_of_unique _ hlead (fun j hj => hunique j v hj hlead),
    Option.getD_some]

theorem bvAt_of_nil (orders : LearnOrders) {bi : Nat} (hnil : blockBallot store bi = []) :
    (ApModel.learn orders store).bvAt bi = (ApModel.learn orders store).bv0 := by
  rw [bvAt_learn, blockVotes_eq, hnil, winner_nil, Option.getD_none]

theorem exists_leads {κ : Type} [DecidableEq κ] {casts : List κ} (h : casts ≠ []) : ∃ k, Leads casts k := by
  obtain ⟨k, hk⟩ := winner_isSome insertionOrder h
  exact ⟨k, leads_of_winner hk⟩

theorem bv0_spec (orders : LearnOrders) (hzero : blockBallot store 0 = []) :
    (∃ bi, Leads (blockBallot store bi) (ApModel.learn orders store).bv0) ∨
      ((∀ bi, blockBallot store bi = []) ∧ (ApModel.learn orders store).bv0 = 0) := by
  rw [bv0_learn, blockVotes_eq, hzero, winner_nil, Option.getD_none]
  cases hhead : (orders.values.iter (learnedMap orders store)).head? with
  | some entry =>
      obtain ⟨bi, v⟩ := entry
      have hmem := (orders.values.perm _).mem_iff.mp (List.mem_of_head? hhead)
      rw [mem_learnedMap_iff, blockVotes_eq] at hmem
      exact .inl ⟨bi, leads_of_winner hmem⟩
  | none =>
      refine .inr ⟨?_, rfl⟩
      intro bi
      by_contra hvotes
      obtain ⟨v, hv⟩ := winner_isSome (orders.ballots bi) hvotes
      rw [← blockVotes_eq, ← mem_learnedMap_iff, ← (orders.values.perm _).mem_iff] at hv
      rw [List.head?_eq_none_iff] at hhead
      rw [hhead] at hv
      cases hv

theorem bv0_firstly {bi : Nat} {v : UInt8} (hzero : blockBallot store 0 = [])
    (hlead : Leads (blockBallot store bi) v) (hunique : UniqueLeader (blockBallot store bi)) :
    (ApModel.learn { plainOrders with values := firstly (bi, v) } store).bv0 = v := by
  have hmem : (bi, v) ∈ learnedMap { plainOrders with values := firstly (bi, v) } store := by
    rw [mem_learnedMap_iff, blockVotes_eq]
    exact winner_of_unique _ hlead (fun j hj => hunique j v hj hlead)
  rw [bv0_learn, blockVotes_eq, hzero, winner_nil, Option.getD_none]
  change (((firstly (bi, v)).iter _).head?.map _).getD 0 = v
  rw [head?_firstly hmem]
  rfl

end Fallbacks

section Freedom

variable {store : PageStore}

theorem blocks_of_orderFree (hfree : OrderFree store) (bi : Nat) :
    UniqueLeader (blockBallot store bi) := by
  intro j k hj hk
  have h := hfree.bvAt
    { plainOrders with ballots := fun _ => lastly (j, (blockBallot store bi).count j) }
    { plainOrders with ballots := fun _ => lastly (k, (blockBallot store bi).count k) } bi
  rw [bvAt_learn, bvAt_learn, blockVotes_eq] at h
  change (winner (lastly _) _).getD _ = (winner (lastly _) _).getD _ at h
  rwa [winner_lastly hj, winner_lastly hk, Option.getD_some, Option.getD_some] at h

theorem pages_of_orderFree (hfree : OrderFree store) {pn : Nat} (hpn : pn < store.pageCount) :
    UniqueLeader (pageBallot (store.pageBytes pn) pn) := by
  apply winner_order_free_iff.mp
  intro order order'
  have h := hfree.learnBvForPage order order' pn _ (PageStore.page_of_lt hpn)
  rwa [learnBvForPage_eq order (PageStore.page_of_lt hpn),
    learnBvForPage_eq order' (PageStore.page_of_lt hpn)] at h

theorem fallback_of_orderFree (hfree : OrderFree store) (hzero : blockBallot store 0 = []) {bi bj : Nat}
    {v w : UInt8} (hv : Leads (blockBallot store bi) v) (hw : Leads (blockBallot store bj) w) : v = w := by
  have h := hfree.bvAt { plainOrders with values := firstly (bi, v) }
    { plainOrders with values := firstly (bj, w) } 0
  rwa [bvAt_of_nil _ hzero, bvAt_of_nil _ hzero, bv0_firstly hzero hv (blocks_of_orderFree hfree bi),
    bv0_firstly hzero hw (blocks_of_orderFree hfree bj)] at h

theorem bv0_of_noTies (hties : NoTies store) (hzero : blockBallot store 0 = []) (orders orders' : LearnOrders) :
    (ApModel.learn orders store).bv0 = (ApModel.learn orders' store).bv0 := by
  have hagree := hties.fallback.resolve_left (by simpa using hzero)
  rcases bv0_spec orders hzero with ⟨bi, hbi⟩ | ⟨hnone, hv⟩
  · rcases bv0_spec orders' hzero with ⟨bj, hbj⟩ | ⟨hnone, -⟩
    · exact hagree bi bj _ _ hbi hbj
    · rw [hnone bi] at hbi
      exact absurd hbi.1 List.not_mem_nil
  · rcases bv0_spec orders' hzero with ⟨bj, hbj⟩ | ⟨-, hw⟩
    · rw [hnone bj] at hbj
      exact absurd hbj.1 List.not_mem_nil
    · rw [hv, hw]

theorem bvAt_of_noTies (hties : NoTies store) (orders orders' : LearnOrders) (bi : Nat) :
    (ApModel.learn orders store).bvAt bi = (ApModel.learn orders' store).bvAt bi := by
  by_cases hnil : blockBallot store bi = []
  · rw [bvAt_of_nil orders hnil, bvAt_of_nil orders' hnil]
    by_cases hzero : blockBallot store 0 = []
    · exact bv0_of_noTies hties hzero orders orders'
    · obtain ⟨v, hv⟩ := exists_leads hzero
      have hbv0 : ∀ orders : LearnOrders, (ApModel.learn orders store).bv0 = v := by
        intro orders
        rw [bv0_learn, blockVotes_eq,
          winner_of_unique _ hv (fun j hj => hties.blocks 0 j v hj hv), Option.getD_some]
      rw [hbv0 orders, hbv0 orders']
  · obtain ⟨v, hv⟩ := exists_leads hnil
    rw [bvAt_of_unique orders hv (hties.blocks bi), bvAt_of_unique orders' hv (hties.blocks bi)]

theorem recoverBvForPage_model {pn : Nat} (hpn : pn < store.pageCount) (model model' : ApModel) :
    model.recoverBvForPage store pn = model'.recoverBvForPage store pn := by
  obtain ⟨b, hb⟩ := @maxByKey_isSome _ (scoreBvCandidates (store.pageBytes pn) pn (fun _ => 0)) allBytes
    (List.ne_nil_of_mem (mem_allBytes 0))
  rw [ApModel.recoverBvForPage, ApModel.recoverBvForPage, PageStore.page_of_lt hpn]
  simp only [bestBv, hb, Option.getD_some]

theorem orderFree_of_noTies (hties : NoTies store) : OrderFree store := by
  have hlearned : ∀ order order' pn page, store.page pn = .ok page →
      learnBvForPage order page.bytes pn page.trailer.pageTypeRaw =
        learnBvForPage order' page.bytes pn page.trailer.pageTypeRaw := by
    intro order order' pn page hpage
    have hpn := (PageStore.page_eq_ok_iff.mp hpage).1
    rw [learnBvForPage_eq order hpage, learnBvForPage_eq order' hpage]
    exact winner_order_free_iff.mpr (hties.pages pn hpn) order order'
  refine ⟨bvAt_of_noTies hties, hlearned, ?_, ?_⟩
  · intro orders orders' raw pn
    rw [ApModel.deobfuscate, bvAt_of_noTies hties orders orders', ApModel.deobfuscate]
  · intro orders orders' order order' pn page hpage
    have hpn := (PageStore.page_eq_ok_iff.mp hpage).1
    simp only [ApModel.deobfuscateWithStore, ApModel.deobfuscateWithStoreAndConfidence, getElem?_pageType]
    rw [hlearned order order' pn page hpage,
      recoverBvForPage_model hpn (ApModel.learn orders store) (ApModel.learn orders' store)]

/-- Learning is free of the order of the hash maps on exactly the stores without ties. -/
theorem orderFree_iff_noTies (store : PageStore) : OrderFree store ↔ NoTies store := by
  constructor
  · intro hfree
    refine ⟨blocks_of_orderFree hfree, fun pn hpn => pages_of_orderFree hfree hpn, ?_⟩
    by_cases hzero : blockBallot store 0 = []
    · exact .inr (fun bi bj v w hv hw => fallback_of_orderFree hfree hzero hv hw)
    · exact .inl hzero
  · exact orderFree_of_noTies

end Freedom

section Ties

/-- A pure page of stored zeros: each sector is an exact progression, and no two agree. -/
def tiedPage : Bytes := zeroBody ++ pureTrailer

theorem length_tiedPage : tiedPage.length = pageSize := by
  rw [tiedPage, List.length_append, zeroBody, List.length_replicate]
  rfl

theorem sectorVote_tiedPage {si : Nat} (hsi : si < sectorsPerPage) :
    sectorVote tiedPage 0 si = some (0 - UInt8.ofNat 0 - UInt8.ofNat si + bias 0) := by
  have hbody : boundary (si + 1) ≤ zeroBody.length := by
    rw [zeroBody, List.length_replicate]
    exact Nat.min_le_right _ _
  have hsec : sectorOf tiedPage si = List.replicate (boundary (si + 1) - boundary si) 0 := by
    rw [← sectorOf_zeroBody hsi, sectorOf_eq hsi, sectorOf_eq hsi, tiedPage, List.take_append_of_le_length hbody]
  obtain ⟨m, hpos, hm⟩ := sector_even hsi
  apply (sectorVote_eq_some_iff (by rw [hsec, List.length_replicate]; omega)).mpr
  refine ⟨0, 0, ?_, rfl⟩
  rw [hsec, List.length_replicate, progression]
  apply List.ext_getElem
  · simp
  · intro i hi hi'
    simp [strideAt]

theorem pageVotes_tiedPage : pageVotes tiedPage 0 = [0, 255, 254, 253, 252, 251, 250, 249] := by
  have hvotes : pageVotes tiedPage 0 = (List.range sectorsPerPage).filterMap
      (fun si => some (0 - UInt8.ofNat 0 - UInt8.ofNat si + bias 0)) := by
    rw [pageVotes]
    apply List.filterMap_congr
    intro si hsi
    exact sectorVote_tiedPage (List.mem_range.mp hsi)
  rw [hvotes]
  rfl

theorem leads_tiedPage {v : UInt8} (hv : v ∈ pageVotes tiedPage 0) : Leads (pageVotes tiedPage 0) v := by
  have hnodup : (pageVotes tiedPage 0).Nodup := by
    rw [pageVotes_tiedPage]
    decide
  refine ⟨hv, ?_⟩
  intro j
  rw [List.count_eq_one_of_mem hnodup hv]
  exact List.nodup_iff_count_le_one.mp hnodup j

theorem not_orderFree_tiedPage :
    ¬ OrderFree (PageStore.ofPage tiedPage length_tiedPage) := by
  intro hfree
  have hpage := PageStore.page_ofPage length_tiedPage
  have hzero : (0 : UInt8) ∈ pageVotes tiedPage 0 := by
    rw [pageVotes_tiedPage]
    decide
  have hother : (255 : UInt8) ∈ pageVotes tiedPage 0 := by
    rw [pageVotes_tiedPage]
    decide
  have h := hfree.learnBvForPage (lastly (0, (pageVotes tiedPage 0).count 0))
    (lastly (255, (pageVotes tiedPage 0).count 255)) 0 _ hpage
  have hpure : pureApTypes.contains (Page.trailer ⟨0, tiedPage, length_tiedPage⟩).pageTypeRaw = true := by
    rw [pageTypeRaw_eq]
    change pureApTypes.contains ((zeroBody ++ pureTrailer).getD (trailerStart + 2) 0) = true
    rw [List.getD_eq_getElem?_getD, zeroBody, List.getElem?_append_right (by simp)]
    simp [pureTrailer, pureApTypes]
  rw [learnBvForPage, learnBvForPage, if_pos hpure, if_pos hpure, winner_lastly (leads_tiedPage hzero),
    winner_lastly (leads_tiedPage hother)] at h
  exact absurd h (by decide)

end Ties

end OpenSqlAny.ApOrders
