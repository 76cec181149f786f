import OpenSqlAny.ApLearning

namespace OpenSqlAny.ApBlocks

open Library.LittleEndian Library.Histograms Library.HashEntries PageStores ApFill ApSectors ApVotes ApPages
  ApLearning

/-- A stored page that encodes a sparse plaintext. -/
structure EncodedPage (bytes : Bytes) (pn : Nat) (bv : UInt8) (steps : Nat → UInt8)
    (plain trailer : Bytes) : Prop where
  length_plain : plain.length = trailerStart
  length_trailer : trailer.length = pageSize - trailerStart
  sparse : SparsePage plain
  stored : bytes = encodePage pn bv steps plain trailer

section Blocks

variable {store : PageStore} {bi : Nat} {bv : UInt8} {steps : Nat → Nat → UInt8}
  {plains trailers : Nat → Bytes}

theorem pageVotes_zeros {bytes plain trailer : Bytes} {pn si : Nat} {steps : Nat → UInt8}
    (hpage : EncodedPage bytes pn bv steps plain trailer) (hsi : si < sectorsPerPage)
    (hzero : ∀ b ∈ sectorOf plain si, b = 0) : bv ∈ pageVotes bytes pn := by
  obtain ⟨m, hpos, hm⟩ := sector_even hsi
  have heven : (sectorOf plain si).length = 2 * m := by
    rw [length_sectorOf hsi hpage.length_plain.ge, hm]
  rw [hpage.stored, pageVotes, List.mem_filterMap]
  refine ⟨si, List.mem_range.mpr hsi, ?_⟩
  apply sectorVote_zeros (sectorOf_encodePage hpage.length_plain hsi)
  · omega
  · exact List.eq_replicate_of_mem hzero

theorem winner_blockVotes (order : HashOrder UInt8 Nat)
    (hblock : ∀ pn < store.pageCount, pn / 16 = bi →
      EncodedPage (store.pageBytes pn) pn bv (steps pn) (plains pn) (trailers pn))
    (hpure : ∃ pn < store.pageCount, pn / 16 = bi ∧ isPure (store.pageBytes pn) = true ∧
      ∃ si < sectorsPerPage, ∀ b ∈ sectorOf (plains pn) si, b = 0) :
    winner order (blockVotes store bi) = some bv := by
  apply winner_of_all_eq
  · obtain ⟨pn, hpn, hbi, htype, si, hsi, hzero⟩ := hpure
    exact mem_blockVotes_iff.mpr ⟨pn, hpn, hbi, htype, pageVotes_zeros (hblock pn hpn hbi) hsi hzero⟩
  · intro v hv
    obtain ⟨pn, hpn, hbi, -, hv⟩ := mem_blockVotes_iff.mp hv
    have hpage := hblock pn hpn hbi
    rw [hpage.stored] at hv
    exact pageVotes_encodePage hpage.length_plain hpage.sparse v hv

def samples (store : PageStore) (bi : Nat) : List Nat :=
  List.range' (bi * 16) (min (min (bi * 16 + 16) store.pageCount) (bi * 16 + 3) - bi * 16)

theorem pageCount_lt (store : PageStore) : store.pageCount < 2 ^ 63 := by
  have hle : store.pageCount ≤ store.bytes.length := Nat.div_le_self _ _
  exact Nat.lt_of_le_of_lt hle store.fits

theorem mem_samples {pn : Nat} (h : pn ∈ samples store bi) : pn < store.pageCount ∧ pn / 16 = bi := by
  rw [samples, List.mem_range'_1] at h
  omega

theorem recoverBvForBlock_eq (model : ApModel) (hin : bi * 16 < store.pageCount) :
    model.recoverBvForBlock store bi =
      bestBv (fun b => ((samples store bi).map (fun pn => pageScore (store.pageBytes pn) pn b)).sum)
        model.bv0 := by
  have hcount := pageCount_lt store
  have hstart : bi * 16 % 2 ^ 64 = bi * 16 := Nat.mod_eq_of_lt (by omega)
  have hend : (bi * 16 + 16) % 2 ^ 64 = bi * 16 + 16 := Nat.mod_eq_of_lt (by omega)
  have hsample : (bi * 16 + 3) % 2 ^ 64 = bi * 16 + 3 := Nat.mod_eq_of_lt (by omega)
  simp only [ApModel.recoverBvForBlock, hstart, hend, hsample, if_neg (Nat.not_le.mpr hin)]
  congr 1
  change (samples store bi).foldl _ _ = _
  refine (List.foldl_ext _ (fun score pn => fun b => score b + pageScore (store.pageBytes pn) pn b) _
    ?_).trans ?_
  · intro score pn hpn
    rw [PageStore.page_of_lt (mem_samples hpn).1]
    funext b
    exact scoreBvCandidates_apply _ _ _ _
  · funext b
    rw [foldl_scores (fun pn => pageScore (store.pageBytes pn) pn), Nat.zero_add]

theorem recoverBvForBlock_encoded (model : ApModel) (hin : bi * 16 < store.pageCount)
    (hblock : ∀ pn < store.pageCount, pn / 16 = bi →
      EncodedPage (store.pageBytes pn) pn bv (steps pn) (plains pn) (trailers pn)) :
    model.recoverBvForBlock store bi = bv := by
  rw [recoverBvForBlock_eq model hin]
  apply bestBv_of_unique
  intro b hb
  apply sum_lt_sum
  · intro hnil
    have hlen := congrArg List.length hnil
    rw [samples, List.length_range', List.length_nil] at hlen
    omega
  · intro pn hpn
    obtain ⟨hcount, hbi⟩ := mem_samples hpn
    have hpage := hblock pn hcount hbi
    rw [hpage.stored]
    exact pageScore_encodePage_lt hpage.length_plain hpage.sparse hb

/-- On a block of sparse pages that share one bv the votes, the block search and the page search
all find it, so the cheap path and the per-page path decode alike. -/
theorem block_paths_agree
    (hblock : ∀ pn < store.pageCount, pn / 16 = bi →
      EncodedPage (store.pageBytes pn) pn bv (steps pn) (plains pn) (trailers pn))
    (hpure : ∃ pn < store.pageCount, pn / 16 = bi ∧ isPure (store.pageBytes pn) = true ∧
      ∃ si < sectorsPerPage, ∀ b ∈ sectorOf (plains pn) si, b = 0) (orders : LearnOrders) :
    (ApModel.learn orders store).bvAt bi = bv ∧
    (∀ model : ApModel, model.recoverBvForBlock store bi = bv) ∧
    ∀ pn page order, pn / 16 = bi → store.page pn = .ok page →
      (ApModel.learn orders store).deobfuscate page.bytes pn = some (plains pn ++ trailers pn) ∧
      (ApModel.learn orders store).deobfuscateWithStore order page.bytes pn store =
        some (plains pn ++ trailers pn) := by
  have hlearned : (ApModel.learn orders store).bvAt bi = bv := by
    rw [bvAt_learn, winner_blockVotes _ hblock hpure, Option.getD_some]
  refine ⟨hlearned, ?_, ?_⟩
  · intro model
    obtain ⟨pn, hpn, hbi, -⟩ := hpure
    exact recoverBvForBlock_encoded model (by omega) hblock
  · intro pn page order hbi hpage
    obtain ⟨hpn, -, hbytes⟩ := PageStore.page_eq_ok_iff.mp hpage
    have hencoded := hblock pn hpn hbi
    have hstored := hbytes.trans hencoded.stored
    constructor
    · rw [ApModel.deobfuscate, hbi, hlearned, hstored]
      exact deobfuscateWithBv_encodePage hencoded.length_plain hencoded.length_trailer hencoded.sparse
    · exact deobfuscateWithStore_of_encoded _ order hpage hencoded.length_plain hencoded.length_trailer
        hencoded.sparse hstored

end Blocks

theorem isPure_encodePage {pn : Nat} {bv : UInt8} {steps : Nat → UInt8} {plain : Bytes}
    (hplain : plain.length = trailerStart) : isPure (encodePage pn bv steps plain pureTrailer) = true := by
  have hdrop := @drop_encodePage pn bv steps plain pureTrailer hplain
  have htype : (encodePage pn bv steps plain pureTrailer).getD (trailerStart + 2) 0 = 0x40 := by
    rw [List.getD_eq_getElem?_getD, ← List.getElem?_drop, hdrop]
    rfl
  rw [isPure, htype]
  rfl

theorem lastSector_noisyBody : ∀ b ∈ sectorOf noisyBody 7, b = 0 := by
  decide +kernel

theorem block_paths_agree_noisy :
    (ApModel.learn plainOrders noisyStore).bvAt 0 = 7 ∧ (∀ model : ApModel, model.recoverBvForBlock noisyStore 0 = 7) ∧
    ∀ pn page order, pn / 16 = 0 → noisyStore.page pn = .ok page →
      (ApModel.learn plainOrders noisyStore).deobfuscate page.bytes pn = some (noisyBody ++ pureTrailer) ∧
      (ApModel.learn plainOrders noisyStore).deobfuscateWithStore order page.bytes pn noisyStore =
        some (noisyBody ++ pureTrailer) := by
  have hcount : noisyStore.pageCount = 3 := PageStore.pageCount_ofPages _ _ _
  have hbytes {pn : Nat} (hpn : pn < noisyStore.pageCount) : noisyStore.pageBytes pn = noisyPage pn :=
    PageStore.pageBytes_ofPages _ _ _ (hcount ▸ hpn)
  refine @block_paths_agree _ 0 7 (fun pn si => UInt8.ofNat (si + pn)) (fun _ => noisyBody) (fun _ => pureTrailer)
    ?_ ?_ plainOrders
  · intro pn hpn _
    exact ⟨length_noisyBody, length_pureTrailer, sparsePage_noisyBody, hbytes hpn⟩
  · have hfirst : 0 < noisyStore.pageCount := by
      rw [hcount]
      decide
    have hpure : isPure (noisyStore.pageBytes 0) = true := by
      rw [hbytes hfirst]
      exact isPure_encodePage length_noisyBody
    exact ⟨0, hfirst, rfl, hpure, 7, by decide, lastSector_noisyBody⟩

end OpenSqlAny.ApBlocks
