import Mathlib.Data.List.MinMax
import OpenSqlAny.ApBlocks
import OpenSqlAny.ApOrders

namespace OpenSqlAny.ApFallbacks

open Library.LittleEndian Library.Histograms Library.HashEntries PageStores ApFill ApSectors ApVotes ApPages
  ApLearning ApOrders ApBlocks

/-- The fallback as learning describes it: the bv of block 0, or of the lowest observed block. -/
def lowestBv (bvMap : List (Nat × UInt8)) : UInt8 :=
  (find? 0 bvMap).getD (((bvMap.argmin (·.1)).map (·.2)).getD 0)

def FallsBackToLowest (model : ApModel) : Prop :=
  ∀ bi, find? bi model.bvMap = none → model.bvAt bi = lowestBv model.bvMap

/-- Block 0 votes, or no two blocks that vote can be given different calibrations. -/
def SingleFallback (store : PageStore) : Prop :=
  blockBallot store 0 ≠ [] ∨
    ∀ bi bj v w, bi ≠ bj → Leads (blockBallot store bi) v → Leads (blockBallot store bj) w → v = w

section Fallbacks

variable {store : PageStore} {orders : LearnOrders} {bi low : Nat} {v w : UInt8}

theorem leads_of_learned (h : (bi, v) ∈ learnedMap orders store) : Leads (blockBallot store bi) v := by
  rw [mem_learnedMap_iff, blockVotes_eq] at h
  exact leads_of_winner h

theorem learned_unique (hv : (bi, v) ∈ learnedMap orders store) (hw : (bi, w) ∈ learnedMap orders store) :
    v = w := by
  rw [mem_learnedMap_iff] at hv hw
  exact Option.some.inj (hv.symm.trans hw)

theorem find?_pageCount (orders : LearnOrders) (store : PageStore) :
    find? store.pageCount (learnedMap orders store) = none := by
  have hnone : blockVotes store store.pageCount = [] := by
    apply List.eq_nil_iff_forall_not_mem.mpr
    intro v hv
    obtain ⟨pn, hpn, hblock, -⟩ := mem_blockVotes_iff.mp hv
    omega
  rw [find?_learnedMap, hnone, winner_nil]

theorem bv0_of_nil (hzero : blockBallot store 0 = []) (orders : LearnOrders) :
    (ApModel.learn orders store).bv0 =
      ((orders.values.iter (learnedMap orders store)).head?.map (·.2)).getD 0 := by
  rw [bv0_learn, blockVotes_eq, hzero, winner_nil, Option.getD_none]

theorem lowestBv_of_nil (hzero : blockBallot store 0 = []) (orders : LearnOrders) :
    lowestBv (learnedMap orders store) = (((learnedMap orders store).argmin (·.1)).map (·.2)).getD 0 := by
  rw [lowestBv, find?_learnedMap, blockVotes_eq, hzero, winner_nil, Option.getD_none]

theorem fallsBackToLowest_iff_bv0 (orders : LearnOrders) (store : PageStore) :
    FallsBackToLowest (ApModel.learn orders store) ↔
      (ApModel.learn orders store).bv0 = lowestBv (learnedMap orders store) := by
  constructor
  · intro h
    have hblock := h store.pageCount (find?_pageCount orders store)
    rwa [ApModel.bvAt, show find? store.pageCount (ApModel.learn orders store).bvMap = none from
      find?_pageCount orders store, Option.getD_none] at hblock
  · intro h bi hbi
    rw [ApModel.bvAt, hbi, Option.getD_none, h]
    rfl

theorem fallsBackToLowest_of_zero (hzero : blockBallot store 0 ≠ []) (orders : LearnOrders) :
    FallsBackToLowest (ApModel.learn orders store) := by
  obtain ⟨v, hv⟩ := winner_isSome (orders.ballots 0) hzero
  rw [fallsBackToLowest_iff_bv0, bv0_learn, lowestBv, find?_learnedMap, blockVotes_eq, hv, Option.getD_some,
    Option.getD_some]

theorem fallsBackToLowest_of_single (h : SingleFallback store) (orders : LearnOrders) :
    FallsBackToLowest (ApModel.learn orders store) := by
  by_cases hzero : blockBallot store 0 = []
  · have hagree := h.resolve_left (not_not.mpr hzero)
    rw [fallsBackToLowest_iff_bv0, bv0_of_nil hzero, lowestBv_of_nil hzero]
    cases hfirst : (orders.values.iter (learnedMap orders store)).head? with
    | none =>
        have hempty : learnedMap orders store = [] := by
          have hperm := orders.values.perm (learnedMap orders store)
          rw [List.head?_eq_none_iff.mp hfirst] at hperm
          exact hperm.symm.eq_nil
        rw [hempty]
        rfl
    | some first =>
        have hmem := (orders.values.perm _).mem_iff.mp (List.mem_of_head? hfirst)
        cases hlowest : (learnedMap orders store).argmin (·.1) with
        | none =>
            rw [List.argmin_eq_none.mp hlowest] at hmem
            cases hmem
        | some lowest =>
            have hleast := List.argmin_mem hlowest
            change first.2 = lowest.2
            by_cases hsame : first.1 = lowest.1
            · obtain ⟨bi, v⟩ := first
              obtain ⟨bj, w⟩ := lowest
              obtain rfl : bi = bj := hsame
              exact learned_unique hmem hleast
            · exact hagree _ _ _ _ hsame (leads_of_learned hmem) (leads_of_learned hleast)
  · exact fallsBackToLowest_of_zero hzero orders

def FirstVoting (store : PageStore) (low : Nat) : Prop :=
  blockBallot store low ≠ [] ∧ ∀ bi, blockBallot store bi ≠ [] → low ≤ bi

theorem exists_firstVoting (h : blockBallot store bi ≠ []) : ∃ low, FirstVoting store low := by
  obtain ⟨low, hlow, hleast⟩ :=
    wellFounded_lt.has_min {bi | blockBallot store bi ≠ []} (Set.nonempty_of_mem h)
  exact ⟨low, hlow, fun bi hbi => Nat.le_of_not_lt (hleast bi hbi)⟩

theorem argmin_learnedMap (hlow : FirstVoting store low) (h : (low, w) ∈ learnedMap orders store) :
    (learnedMap orders store).argmin (·.1) = some (low, w) := by
  cases hlowest : (learnedMap orders store).argmin (·.1) with
  | none =>
      rw [List.argmin_eq_none.mp hlowest] at h
      cases h
  | some lowest =>
      obtain ⟨bi, v⟩ := lowest
      have hmem := List.argmin_mem hlowest
      have hle : bi ≤ low := List.le_of_mem_argmin h hlowest
      have hge : low ≤ bi := hlow.2 bi (List.ne_nil_of_mem (leads_of_learned hmem).1)
      obtain rfl := Nat.le_antisymm hle hge
      rw [learned_unique hmem h]

/-- The hash orders that learn one value for a block, another elsewhere, and give out that one first. -/
def adverseOrders (store : PageStore) (low bi : Nat) (v w : UInt8) : LearnOrders where
  blocks := insertionOrder
  ballots block := if block = low then lastly (w, (blockBallot store low).count w)
    else lastly (v, (blockBallot store block).count v)
  values := firstly (bi, v)

theorem leaders_eq (h : ∀ orders, FallsBackToLowest (ApModel.learn orders store))
    (hzero : blockBallot store 0 = []) (hlow : FirstVoting store low) (hne : bi ≠ low)
    (hv : Leads (blockBallot store bi) v) (hw : Leads (blockBallot store low) w) : v = w := by
  have hfirst : (bi, v) ∈ learnedMap (adverseOrders store low bi v w) store := by
    rw [mem_learnedMap_iff, blockVotes_eq]
    simp only [adverseOrders, if_neg hne]
    exact winner_lastly hv
  have hlowest : (low, w) ∈ learnedMap (adverseOrders store low bi v w) store := by
    rw [mem_learnedMap_iff, blockVotes_eq]
    simp only [adverseOrders, if_true]
    exact winner_lastly hw
  have hfallback := (fallsBackToLowest_iff_bv0 _ store).mp (h (adverseOrders store low bi v w))
  have hhead : ((adverseOrders store low bi v w).values.iter
      (learnedMap (adverseOrders store low bi v w) store)).head? = some (bi, v) := head?_firstly hfirst
  rwa [bv0_of_nil hzero, lowestBv_of_nil hzero, argmin_learnedMap hlow hlowest, hhead] at hfallback

/-- In every hash order the fallback is the lowest block's calibration, exactly when block 0 votes or
all blocks that vote agree. -/
theorem fallsBackToLowest_iff (store : PageStore) :
    (∀ orders, FallsBackToLowest (ApModel.learn orders store)) ↔ SingleFallback store := by
  constructor
  · intro h
    by_cases hzero : blockBallot store 0 = []
    · right
      intro bi bj v w hne hv hw
      obtain ⟨low, hlow⟩ := exists_firstVoting (List.ne_nil_of_mem hv.1)
      obtain ⟨x, hx⟩ := exists_leads hlow.1
      by_cases hbi : bi = low
      · subst hbi
        exact (leaders_eq h hzero hlow hne.symm hw hv).symm
      · have hvx := leaders_eq h hzero hlow hbi hv hx
        by_cases hbj : bj = low
        · subst hbj
          exact leaders_eq h hzero hlow hbi hv hw
        · rw [hvx, leaders_eq h hzero hlow hbj hw hx]
    · exact .inl hzero
  · exact fallsBackToLowest_of_single

end Fallbacks

section LateBlocks

def untypedTrailer : Bytes := List.replicate 16 0

def latePage (pn : Nat) : Bytes :=
  encodePage pn (UInt8.ofNat (pn / 16)) (fun _ => 0) zeroBody (if pn / 16 = 0 then untypedTrailer else pureTrailer)

theorem length_latePage (pn : Nat) : (latePage pn).length = pageSize := by
  rw [latePage]
  split
  · exact encodePage_size List.length_replicate rfl
  · exact encodePage_size List.length_replicate rfl

def lateStore : PageStore := PageStore.ofPages latePage length_latePage 48 (by decide) (by decide)

theorem pageCount_lateStore : lateStore.pageCount = 48 := PageStore.pageCount_ofPages _ _ _

theorem pageBytes_lateStore {pn : Nat} (hpn : pn < 48) : lateStore.pageBytes pn = latePage pn :=
  PageStore.pageBytes_ofPages _ _ _ hpn

theorem blockVotes_lateStore_zero : blockVotes lateStore 0 = [] := by
  apply List.eq_nil_iff_forall_not_mem.mpr
  intro v hv
  obtain ⟨pn, hpn, hblock, hpure, -⟩ := mem_blockVotes_iff.mp hv
  rw [pageCount_lateStore] at hpn
  have hdrop := @drop_encodePage pn (UInt8.ofNat (pn / 16)) (fun _ => 0) zeroBody untypedTrailer
    List.length_replicate
  have htype : (latePage pn).getD (trailerStart + 2) 0 = 0 := by
    rw [latePage, if_pos hblock, List.getD_eq_getElem?_getD, ← List.getElem?_drop, hdrop]
    rfl
  rw [pageBytes_lateStore hpn, isPure, htype] at hpure
  exact absurd hpure (by decide)

theorem winner_lateStore (order : HashOrder UInt8 Nat) {bi : Nat} (hpos : 0 < bi) (hbi : bi < 3) :
    winner order (blockVotes lateStore bi) = some (UInt8.ofNat bi) := by
  apply @winner_blockVotes _ _ _ (fun _ _ => 0) (fun _ => zeroBody) (fun _ => pureTrailer)
  · intro pn hpn hblock
    rw [pageCount_lateStore] at hpn
    refine ⟨List.length_replicate, rfl, sparsePage_zeroBody, ?_⟩
    rw [pageBytes_lateStore hpn, latePage, hblock, if_neg (by omega)]
  · have hin : bi * 16 < 48 := by omega
    refine ⟨bi * 16, by rwa [pageCount_lateStore], by omega, ?_, 0, by decide, ?_⟩
    · rw [pageBytes_lateStore hin, latePage, if_neg (by omega)]
      exact isPure_encodePage List.length_replicate
    · rw [sectorOf_zeroBody (by decide)]
      intro b hb
      exact List.eq_of_mem_replicate hb

/-- A hash order that gives out block 2 first puts its calibration in place of block 1's. -/
theorem not_fallsBackToLowest_lateStore :
    ¬FallsBackToLowest (ApModel.learn { plainOrders with values := firstly (2, 2) } lateStore) := by
  have hzero : blockBallot lateStore 0 = [] := by rw [← blockVotes_eq, blockVotes_lateStore_zero]
  have hfirst : (2, 2) ∈ learnedMap { plainOrders with values := firstly (2, 2) } lateStore := by
    rw [mem_learnedMap_iff]
    exact winner_lateStore _ (by decide) (by decide)
  have hlowest : (1, 1) ∈ learnedMap { plainOrders with values := firstly (2, 2) } lateStore := by
    rw [mem_learnedMap_iff]
    exact winner_lateStore _ (by decide) (by decide)
  have hlow : FirstVoting lateStore 1 := by
    refine ⟨List.ne_nil_of_mem (leads_of_learned hlowest).1, ?_⟩
    intro bi hbi
    by_contra hlt
    obtain rfl : bi = 0 := by omega
    exact hbi hzero
  rw [fallsBackToLowest_iff_bv0, bv0_of_nil hzero, lowestBv_of_nil hzero, argmin_learnedMap hlow hlowest]
  change ¬(((firstly (2, 2)).iter _).head?.map _).getD 0 = (1 : UInt8)
  rw [head?_firstly hfirst]
  decide

end LateBlocks

end OpenSqlAny.ApFallbacks
