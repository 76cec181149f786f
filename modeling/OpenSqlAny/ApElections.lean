import OpenSqlAny.ApDiagnostics
import OpenSqlAny.ApFallbacks

namespace OpenSqlAny.ApElections

open Library.LittleEndian Library.Histograms Library.HashEntries PageStores ApFill ApSectors ApVotes ApPages
  ApLearning ApOrders ApFallbacks ApDiagnostics
open scoped UInt8.CommRing

def votingBlocks (ballots : Nat → List UInt8) (blocks : Nat) : Nat :=
  ((List.range blocks).filter (fun bi => ballots bi ≠ [])).length

section Models

variable {store : PageStore} {bi : Nat}

theorem block_lt_pageCount (h : blockBallot store bi ≠ []) : bi < store.pageCount := by
  obtain ⟨v, hv⟩ := List.exists_mem_of_ne_nil _ h
  rw [← blockVotes_eq] at hv
  obtain ⟨pn, hpn, hblock, -⟩ := mem_blockVotes_iff.mp hv
  omega

theorem mem_keys_learnedMap (orders : LearnOrders) :
    bi ∈ (learnedMap orders store).map (·.1) ↔ blockBallot store bi ≠ [] := by
  rw [← not_iff_not, ← find?_eq_none_iff, find?_learnedMap, blockVotes_eq, not_not]
  constructor
  · intro hnone
    by_contra hvotes
    obtain ⟨w, hw⟩ := winner_isSome (orders.ballots bi) hvotes
    rw [hw] at hnone
    cases hnone
  · intro hnil
    rw [hnil, winner_nil]

theorem learnedBlockCount_learn (orders : LearnOrders) (store : PageStore) :
    (ApModel.learn orders store).learnedBlockCount = votingBlocks (blockBallot store) store.pageCount := by
  have hperm : ((learnedMap orders store).map (·.1)).Perm
      ((List.range store.pageCount).filter (fun bi => blockBallot store bi ≠ [])) := by
    rw [List.perm_ext_iff_of_nodup (learnedMap_keys_nodup orders store) (List.nodup_range.filter _)]
    intro bi
    rw [mem_keys_learnedMap, List.mem_filter, List.mem_range, decide_eq_true_eq]
    exact ⟨fun h => ⟨block_lt_pageCount h, h⟩, fun h => h.2⟩
  have hlength := hperm.length_eq
  rw [List.length_map] at hlength
  exact hlength

end Models

def bruteForceBv (bytes : Bytes) (pn : Nat) : UInt8 := bestBv (pageScore bytes pn) 0

/-- The calibration that a page is decoded with, for some order of its counters. -/
def PageCalibrates (votes : List UInt8) (brute v : UInt8) : Prop := Leads votes v ∨ votes = [] ∧ v = brute

def bodyUnder (bytes : Bytes) (pn : Nat) (bv : UInt8) : Bytes :=
  (List.range sectorsPerPage).flatMap (plainSector bytes pn bv)

section Pages

variable {store : PageStore} {bytes : Bytes} {pn : Nat} {v : UInt8}

theorem recoverBvForPage_eq (hpn : pn < store.pageCount) (model : ApModel) :
    model.recoverBvForPage store pn = bruteForceBv (store.pageBytes pn) pn := by
  have hscore : scoreBvCandidates (store.pageBytes pn) pn (fun _ => 0) = pageScore (store.pageBytes pn) pn := by
    funext b
    rw [scoreBvCandidates_apply, Nat.zero_add]
  rw [recoverBvForPage_model hpn model ⟨[], 0⟩, ApModel.recoverBvForPage, PageStore.page_of_lt hpn]
  simp only [hscore, bruteForceBv]

theorem deobfuscateWithStore_eq (hpn : pn < store.pageCount) (model : ApModel) (order : HashOrder UInt8 Nat) :
    model.deobfuscateWithStore order (store.pageBytes pn) pn store =
      deobfuscateWithBv (store.pageBytes pn) pn
        ((winner order (pageBallot (store.pageBytes pn) pn)).getD (bruteForceBv (store.pageBytes pn) pn)) := by
  have hpage := PageStore.page_of_lt hpn
  have hlen := store.length_pageBytes hpn
  have htype := getElem?_pageType ⟨pn, store.pageBytes pn, hlen⟩
  rw [ApModel.deobfuscateWithStore, ApModel.deobfuscateWithStoreAndConfidence, htype]
  simp only [learnBvForPage_eq order hpage, recoverBvForPage_eq hpn model]
  rfl

theorem deobfuscateWithBv_body (hraw : pageSize ≤ bytes.length) (pn : Nat) (v : UInt8) :
    ∃ out, deobfuscateWithBv bytes pn v = some out ∧ out.take trailerStart = bodyUnder bytes pn v := by
  have hbody := @length_body bytes pn hraw v
  refine ⟨_, deobfuscateWithBv_eq hraw, ?_⟩
  rw [← hbody, List.take_left, bodyUnder]

theorem bodyUnder_inj (hraw : pageSize ≤ bytes.length) {w : UInt8} :
    bodyUnder bytes pn v = bodyUnder bytes pn w ↔ v = w := by
  constructor
  · intro h
    have hlen : 0 < (bodyUnder bytes pn w).length := by
      rw [bodyUnder, length_body hraw]
      decide
    have hshift : bodyUnder bytes pn v = (bodyUnder bytes pn w).map (· + (w - v)) := body_shift bytes pn v w
    rw [h] at hshift
    have hfirst := List.getElem_of_eq hshift hlen
    rw [List.getElem_map, left_eq_add, sub_eq_zero] at hfirst
    exact hfirst.symm
  · rintro rfl
    rfl

theorem winner_pageCalibrates (order : HashOrder UInt8 Nat) (votes : List UInt8) (brute : UInt8) :
    PageCalibrates votes brute ((winner order votes).getD brute) := by
  cases hwinner : winner order votes with
  | none =>
      right
      refine ⟨?_, rfl⟩
      by_contra hvotes
      obtain ⟨w, hw⟩ := winner_isSome order hvotes
      rw [hw] at hwinner
      cases hwinner
  | some w => exact .inl (leads_of_winner hwinner)

theorem exists_winner {votes : List UInt8} {brute : UInt8} (h : PageCalibrates votes brute v) :
    ∃ order, (winner order votes).getD brute = v := by
  rcases h with hlead | ⟨rfl, rfl⟩
  · exact ⟨lastly (v, votes.count v), by rw [winner_lastly hlead, Option.getD_some]⟩
  · exact ⟨insertionOrder, by rw [winner_nil, Option.getD_none]⟩

end Pages

end OpenSqlAny.ApElections
