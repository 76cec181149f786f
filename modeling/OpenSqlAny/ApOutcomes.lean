import OpenSqlAny.ApElections

namespace OpenSqlAny.ApOutcomes

open Library.LittleEndian Library.HashEntries PageStores ApFill ApSectors ApVotes ApPages ApLearning ApOrders
  ApFallbacks ApElections

/-- A calibration of all blocks: one that leads the votes where there are votes, and one fallback
elsewhere, taken from block 0 if it voted and from some block that voted if it did not. -/
structure Elected (ballots : Nat → List UInt8) (bvAt : Nat → UInt8) : Prop where
  leads : ∀ bi, ballots bi ≠ [] → Leads (ballots bi) (bvAt bi)
  falls : ∃ bv0, (∀ bi, ballots bi = [] → bvAt bi = bv0) ∧
    ((∃ bj, ballots bj ≠ [] ∧ (ballots 0 ≠ [] → bj = 0) ∧ bvAt bj = bv0) ∨ (∀ bj, ballots bj = []) ∧ bv0 = 0)

section Learning

variable {store : PageStore} {bi bj : Nat} {bvAt : Nat → UInt8}

theorem bvAt_of_mem {orders : LearnOrders} {v : UInt8} (h : (bj, v) ∈ learnedMap orders store) :
    (ApModel.learn orders store).bvAt bj = v := by
  rw [bvAt_learn, (mem_learnedMap_iff orders).mp h, Option.getD_some]

theorem bv0_of_voted (orders : LearnOrders) (hvotes : blockBallot store 0 ≠ []) :
    (ApModel.learn orders store).bv0 = (ApModel.learn orders store).bvAt 0 := by
  obtain ⟨w, hw⟩ := winner_isSome (orders.ballots 0) hvotes
  rw [bv0_learn, bvAt_learn, blockVotes_eq, hw, Option.getD_some, Option.getD_some]

theorem elected_learn (orders : LearnOrders) (store : PageStore) :
    Elected (blockBallot store) (ApModel.learn orders store).bvAt where
  leads bi hvotes := by
    obtain ⟨w, hw⟩ := winner_isSome (orders.ballots bi) hvotes
    rw [bvAt_learn, blockVotes_eq, hw, Option.getD_some]
    exact leads_of_winner hw
  falls := by
    refine ⟨(ApModel.learn orders store).bv0, fun bi hnil => bvAt_of_nil orders hnil, ?_⟩
    by_cases hzero : blockBallot store 0 = []
    case neg => exact .inl ⟨0, hzero, fun _ => rfl, (bv0_of_voted orders hzero).symm⟩
    cases hhead : (orders.values.iter (learnedMap orders store)).head? with
    | some entry =>
        obtain ⟨bj, v⟩ := entry
        have hmem := (orders.values.perm _).mem_iff.mp (List.mem_of_head? hhead)
        refine .inl ⟨bj, ?_, fun hvotes => absurd hzero hvotes, ?_⟩
        · exact List.ne_nil_of_mem (leads_of_learned hmem).1
        · rw [bvAt_of_mem hmem, bv0_of_nil hzero, hhead]
          rfl
    | none =>
        refine .inr ⟨fun bj => ?_, ?_⟩
        · by_contra hvotes
          have hkey := (mem_keys_learnedMap orders).mpr hvotes
          rw [List.head?_eq_none_iff] at hhead
          have hnil : learnedMap orders store = [] := ((orders.values.perm _).symm.trans (by rw [hhead])).eq_nil
          rw [hnil] at hkey
          cases hkey
        · rw [bv0_of_nil hzero, hhead]
          rfl

/-- Every counter map gives the elected bv out last, and the learned map the block of the fallback first. -/
def electing (ballots : Nat → List UInt8) (bvAt : Nat → UInt8) (bj : Nat) : LearnOrders :=
  ⟨insertionOrder, fun bi => lastly (bvAt bi, (ballots bi).count (bvAt bi)), firstly (bj, bvAt bj)⟩

theorem winner_electing (hlead : Leads (blockBallot store bi) (bvAt bi)) :
    winner ((electing (blockBallot store) bvAt bj).ballots bi) (blockVotes store bi) = some (bvAt bi) := by
  rw [blockVotes_eq]
  exact winner_lastly hlead

theorem bvAt_electing (hlead : Leads (blockBallot store bi) (bvAt bi)) :
    (ApModel.learn (electing (blockBallot store) bvAt bj) store).bvAt bi = bvAt bi :=
  bvAt_of_mem ((mem_learnedMap_iff _).mpr (winner_electing hlead))

theorem bv0_electing (hlead : Leads (blockBallot store bj) (bvAt bj)) (hfirst : blockBallot store 0 ≠ [] → bj = 0) :
    (ApModel.learn (electing (blockBallot store) bvAt bj) store).bv0 = bvAt bj := by
  by_cases hzero : blockBallot store 0 = []
  · have hmem := (mem_learnedMap_iff _).mpr (@winner_electing store bj bj bvAt hlead)
    rw [bv0_of_nil hzero]
    change (((firstly (bj, bvAt bj)).iter _).head?.map _).getD 0 = bvAt bj
    rw [head?_firstly hmem]
    rfl
  · obtain rfl := hfirst hzero
    rw [bv0_of_voted _ hzero, bvAt_electing hlead]

theorem exists_orders (h : Elected (blockBallot store) bvAt) :
    ∃ orders, (ApModel.learn orders store).bvAt = bvAt := by
  obtain ⟨bv0, hrest, ⟨bj, hvotes, hfirst, rfl⟩ | ⟨hnone, rfl⟩⟩ := h.falls
  · refine ⟨electing (blockBallot store) bvAt bj, ?_⟩
    funext bi
    by_cases hnil : blockBallot store bi = []
    · rw [bvAt_of_nil _ hnil, hrest bi hnil, bv0_electing (h.leads bj hvotes) hfirst]
    · exact bvAt_electing (h.leads bi hnil)
  · refine ⟨plainOrders, ?_⟩
    funext bi
    rw [bvAt_of_nil plainOrders (hnone bi), hrest bi (hnone bi)]
    rcases bv0_spec plainOrders (hnone 0) with ⟨bj, hlead⟩ | ⟨-, hzero⟩
    · exact absurd (hnone bj) (List.ne_nil_of_mem hlead.1)
    · exact hzero

end Learning

section Pages

variable {store : PageStore} {pn : Nat} {body : Bytes}

theorem exists_order_iff (model : ApModel) (hpn : pn < store.pageCount) :
    (∃ order out, model.deobfuscateWithStore order (store.pageBytes pn) pn store = some out ∧
      out.take trailerStart = body) ↔
    ∃ v, PageCalibrates (pageBallot (store.pageBytes pn) pn) (bruteForceBv (store.pageBytes pn) pn) v ∧
      bodyUnder (store.pageBytes pn) pn v = body := by
  have hraw := (store.length_pageBytes hpn).ge
  simp only [deobfuscateWithStore_eq hpn]
  constructor
  · rintro ⟨order, out, hout, rfl⟩
    refine ⟨_, winner_pageCalibrates order _ _, ?_⟩
    obtain ⟨out', hout', hbody⟩ := deobfuscateWithBv_body hraw pn
      ((winner order (pageBallot (store.pageBytes pn) pn)).getD (bruteForceBv (store.pageBytes pn) pn))
    rw [hout', Option.some.injEq] at hout
    rw [← hbody, hout]
  · rintro ⟨v, hv, rfl⟩
    obtain ⟨order, rfl⟩ := exists_winner hv
    obtain ⟨out, hout, hbody⟩ := deobfuscateWithBv_body hraw pn
      ((winner order (pageBallot (store.pageBytes pn) pn)).getD (bruteForceBv (store.pageBytes pn) pn))
    exact ⟨order, out, hout, hbody⟩

/-- Each page is decoded with a hash map of its own, so the bodies of the pages are chosen independently. -/
theorem exists_orders_iff (model : ApModel) (bodies : Nat → Bytes) :
    (∃ orders : Nat → HashOrder UInt8 Nat, ∀ pn < store.pageCount, ∃ out,
      model.deobfuscateWithStore (orders pn) (store.pageBytes pn) pn store = some out ∧
        out.take trailerStart = bodies pn) ↔
    ∀ pn < store.pageCount, ∃ v,
      PageCalibrates (pageBallot (store.pageBytes pn) pn) (bruteForceBv (store.pageBytes pn) pn) v ∧
        bodyUnder (store.pageBytes pn) pn v = bodies pn := by
  constructor
  · rintro ⟨orders, h⟩ pn hpn
    exact (exists_order_iff model hpn).mp ⟨orders pn, h pn hpn⟩
  · intro h
    have hpages : ∀ pn, ∃ order : HashOrder UInt8 Nat, pn < store.pageCount → ∃ out,
        model.deobfuscateWithStore order (store.pageBytes pn) pn store = some out ∧
          out.take trailerStart = bodies pn := by
      intro pn
      by_cases hpn : pn < store.pageCount
      · obtain ⟨order, hout⟩ := (exists_order_iff model hpn).mpr (h pn hpn)
        exact ⟨order, fun _ => hout⟩
      · exact ⟨insertionOrder, fun h => absurd h hpn⟩
    choose orders horders using hpages
    exact ⟨orders, horders⟩

end Pages

/-- All that the order of the hash maps can bring about: the models that learning returns are those that are
elected, all with the same number of learned blocks, and the bodies that the pages of the store decode to, each
page with a hash map of its own, are those under calibrations that lead the page's votes. -/
theorem learn_outcomes (store : PageStore) :
    (∀ bvAt, (∃ orders, (ApModel.learn orders store).bvAt = bvAt) ↔ Elected (blockBallot store) bvAt) ∧
    (∀ orders, (ApModel.learn orders store).learnedBlockCount = votingBlocks (blockBallot store) store.pageCount) ∧
    ∀ model : ApModel, ∀ bodies : Nat → Bytes,
      (∃ orders : Nat → HashOrder UInt8 Nat, ∀ pn < store.pageCount, ∃ out,
        model.deobfuscateWithStore (orders pn) (store.pageBytes pn) pn store = some out ∧
          out.take trailerStart = bodies pn) ↔
      ∀ pn < store.pageCount, ∃ v,
        PageCalibrates (pageBallot (store.pageBytes pn) pn) (bruteForceBv (store.pageBytes pn) pn) v ∧
          bodyUnder (store.pageBytes pn) pn v = bodies pn := by
  refine ⟨fun bvAt => ⟨?_, exists_orders⟩, (learnedBlockCount_learn · store), exists_orders_iff⟩
  rintro ⟨orders, rfl⟩
  exact elected_learn orders store

end OpenSqlAny.ApOutcomes
