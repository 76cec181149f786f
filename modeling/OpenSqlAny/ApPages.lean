import OpenSqlAny.ApVotes

namespace OpenSqlAny.ApPages

open Library.LittleEndian Library.Histograms Library.HashEntries PageStores ApFill ApSectors ApVotes
open scoped UInt8.CommRing

def boundary (k : Nat) : Nat := min (k * sectorSize) trailerStart

section Layout

variable {k si : Nat}

theorem boundary_of_lt (h : k < sectorsPerPage) : boundary k = k * sectorSize := by
  simp only [sectorsPerPage, pageSize, sectorSize] at h
  simp only [boundary, sectorSize, trailerStart]
  omega

theorem dataEnd_eq (h : si < sectorsPerPage) : dataEnd si = boundary (si + 1) := by
  rw [dataEnd, boundary]
  by_cases hlast : si + 1 = sectorsPerPage
  · rw [if_pos hlast, hlast]
    rfl
  · rw [if_neg hlast]
    simp only [sectorsPerPage, pageSize, sectorSize] at h hlast
    simp only [sectorSize, trailerStart]
    omega

theorem boundary_le_succ : boundary k ≤ boundary (k + 1) := by
  simp only [boundary, sectorSize, trailerStart]
  omega

theorem boundary_last : boundary sectorsPerPage = trailerStart := by
  simp [boundary, sectorsPerPage, pageSize, sectorSize, trailerStart]

theorem boundary_le_pageSize : boundary k ≤ pageSize := by
  simp only [boundary, sectorSize, trailerStart, pageSize]
  omega

theorem sectorOf_eq (h : si < sectorsPerPage) (bytes : Bytes) :
    sectorOf bytes si = (bytes.take (boundary (si + 1))).drop (boundary si) := by
  rw [sectorOf, dataEnd_eq h, boundary_of_lt h]

theorem length_sectorOf (h : si < sectorsPerPage) {bytes : Bytes} (hlen : trailerStart ≤ bytes.length) :
    (sectorOf bytes si).length = boundary (si + 1) - boundary si := by
  have hle : boundary (si + 1) ≤ trailerStart := Nat.min_le_right _ _
  rw [sectorOf_eq h, List.length_drop, List.length_take]
  omega

theorem sector_even (h : si < sectorsPerPage) : ∃ m, 0 < m ∧ boundary (si + 1) - boundary si = 2 * m := by
  simp only [sectorsPerPage, pageSize, sectorSize] at h
  refine ⟨(boundary (si + 1) - boundary si) / 2, ?_, ?_⟩
  · simp only [boundary, sectorSize, trailerStart]
    omega
  · simp only [boundary, sectorSize, trailerStart]
    omega

theorem flatMap_range_succ (f : Nat → Bytes) (k : Nat) :
    (List.range (k + 1)).flatMap f = (List.range k).flatMap f ++ f k := by
  rw [List.range_succ, List.flatMap_append, List.flatMap_singleton]

theorem flatMap_sectorOf (bytes : Bytes) (h : k ≤ sectorsPerPage) :
    (List.range k).flatMap (sectorOf bytes) = bytes.take (boundary k) := by
  induction k with
  | zero => simp [boundary]
  | succ k ih =>
      have hbegins : (bytes.take (boundary (k + 1))).take (boundary k) = bytes.take (boundary k) := by
        rw [List.take_take, Nat.min_eq_left boundary_le_succ]
      rw [flatMap_range_succ, ih (by omega), sectorOf_eq (by omega), ← hbegins, List.take_append_drop]

theorem flatMap_all_sectors {bytes : Bytes} (hlen : bytes.length = trailerStart) :
    (List.range sectorsPerPage).flatMap (sectorOf bytes) = bytes := by
  rw [flatMap_sectorOf bytes (Nat.le_refl _), boundary_last, ← hlen, List.take_length]

variable {f : Nat → Bytes}

theorem length_blocks (hf : ∀ si < sectorsPerPage, (f si).length = boundary (si + 1) - boundary si)
    (h : k ≤ sectorsPerPage) : ((List.range k).flatMap f).length = boundary k := by
  induction k with
  | zero => simp [boundary]
  | succ k ih =>
      have hle := boundary_le_succ (k := k)
      rw [flatMap_range_succ, List.length_append, ih (by omega), hf k (by omega)]
      omega

theorem sectorOf_blocks (hf : ∀ si < sectorsPerPage, (f si).length = boundary (si + 1) - boundary si)
    (rest : Bytes) (h : si < sectorsPerPage) :
    sectorOf ((List.range sectorsPerPage).flatMap f ++ rest) si = f si := by
  have hsplit := flatMap_range_split f h
  have hshort : ((List.range si).flatMap f).length = boundary si := length_blocks hf (by omega)
  have hlong : ((List.range si).flatMap f ++ f si).length = boundary (si + 1) := by
    rw [← flatMap_range_succ, length_blocks hf h]
  rw [sectorOf_eq h, hsplit, List.append_assoc ((List.range si).flatMap f ++ f si), ← hlong,
    List.take_left, ← hshort, List.drop_left]

end Layout

/-- A page as it is stored: eight encoded sectors and the trailer as it is. -/
def encodePage (pn : Nat) (bv : UInt8) (steps : Nat → UInt8) (plain trailer : Bytes) : Bytes :=
  (List.range sectorsPerPage).flatMap
    (fun si => encodeSector (apBase pn si bv) (steps si) (sectorOf plain si)) ++ trailer

def SparsePage (plain : Bytes) : Prop := ∀ si < sectorsPerPage, Sparse (sectorOf plain si)

section Encoding

variable {pn si : Nat} {bv : UInt8} {steps : Nat → UInt8} {plain trailer : Bytes}

theorem encoded_lengths (hplain : plain.length = trailerStart) :
    ∀ si < sectorsPerPage, (encodeSector (apBase pn si bv) (steps si) (sectorOf plain si)).length =
      boundary (si + 1) - boundary si := by
  intro si hsi
  rw [length_encodeSector, length_sectorOf hsi hplain.ge]

theorem sectorOf_encodePage (hplain : plain.length = trailerStart) (h : si < sectorsPerPage) :
    sectorOf (encodePage pn bv steps plain trailer) si =
      encodeSector (apBase pn si bv) (steps si) (sectorOf plain si) :=
  sectorOf_blocks (encoded_lengths hplain) trailer h

theorem drop_encodePage (hplain : plain.length = trailerStart) :
    (encodePage pn bv steps plain trailer).drop trailerStart = trailer := by
  have hbody := length_blocks (@encoded_lengths pn bv steps plain hplain) (Nat.le_refl sectorsPerPage)
  rw [boundary_last] at hbody
  rw [encodePage, ← hbody, List.drop_left]

theorem length_encodePage (hplain : plain.length = trailerStart) :
    (encodePage pn bv steps plain trailer).length = trailerStart + trailer.length := by
  rw [encodePage, List.length_append, length_blocks (encoded_lengths hplain) (Nat.le_refl _), boundary_last]

end Encoding

section EmptyPages

def zeroBody : Bytes := List.replicate trailerStart 0

def pureTrailer : Bytes := [0, 0, 0x40] ++ List.replicate 13 0

theorem length_pureTrailer : pureTrailer.length = pageSize - trailerStart := rfl

theorem sectorOf_zeroBody {si : Nat} (h : si < sectorsPerPage) :
    sectorOf zeroBody si = List.replicate (boundary (si + 1) - boundary si) 0 := by
  have hle : boundary (si + 1) ≤ trailerStart := Nat.min_le_right _ _
  rw [sectorOf_eq h, zeroBody, List.take_replicate, List.drop_replicate, Nat.min_eq_left hle]

theorem sparsePage_zeroBody : SparsePage zeroBody := by
  intro si hsi
  obtain ⟨m, hpos, hm⟩ := sector_even hsi
  rw [sectorOf_zeroBody hsi, Sparse, List.length_replicate, List.count_replicate_self]
  omega

end EmptyPages

section Decoding

variable {raw : Bytes} {pn : Nat} {bv : UInt8}

def plainSector (raw : Bytes) (pn : Nat) (bv : UInt8) (si : Nat) : Bytes :=
  plainUnder (sectorOf raw si) (apBase pn si bv)
    (recoverStepConfidence (sectorOf raw si) (apBase pn si bv) si).chosenStep

theorem plainSector_lengths (hraw : pageSize ≤ raw.length) :
    ∀ si < sectorsPerPage, (plainSector raw pn bv si).length = boundary (si + 1) - boundary si := by
  intro si hsi
  rw [plainSector, length_plainUnder, length_sectorOf hsi (Nat.le_trans (by decide) hraw)]

theorem foldl_deobfuscateSector (hraw : pageSize ≤ raw.length) {k : Nat} (hk : k ≤ sectorsPerPage) :
    (List.range k).foldl (deobfuscateSector raw pn bv) (List.replicate pageSize 0, []) =
      ((List.range k).flatMap (plainSector raw pn bv) ++ List.replicate (pageSize - boundary k) 0,
        (List.range k).map (fun si => recoverStepConfidence (sectorOf raw si) (apBase pn si bv) si)) := by
  induction k with
  | zero => simp [boundary]
  | succ k ih =>
      have hkt : k < sectorsPerPage := hk
      have hdone := length_blocks (@plainSector_lengths raw pn bv hraw) hkt.le
      have hsector := @plainSector_lengths raw pn bv hraw k hkt
      have hle := boundary_le_succ (k := k)
      have hpage := boundary_le_pageSize (k := k + 1)
      have hsec : (sectorOf raw k).length = boundary (k + 1) - boundary k := by
        rw [length_sectorOf hkt (Nat.le_trans (by decide) hraw)]
      rw [List.range_succ, List.foldl_append, List.foldl_cons, List.foldl_nil, ih hkt.le, deobfuscateSector,
        List.map_append, List.map_singleton, List.flatMap_append, List.flatMap_singleton]
      congr 1
      have hout : ((List.range k).flatMap (plainSector raw pn bv) ++
          List.replicate (pageSize - boundary k) 0).take (k * sectorSize) =
          (List.range k).flatMap (plainSector raw pn bv) := by
        rw [← boundary_of_lt hkt, ← hdone, List.take_left]
      have hrest : ((List.range k).flatMap (plainSector raw pn bv) ++
          List.replicate (pageSize - boundary k) (0 : UInt8)).drop (dataEnd k) =
          List.replicate (pageSize - boundary (k + 1)) 0 := by
        rw [dataEnd_eq hkt, List.drop_append, hdone, List.drop_of_length_le (by omega), List.nil_append,
          List.drop_replicate]
        congr 1
        omega
      have hwindow : ((((List.range k).flatMap (plainSector raw pn bv) ++
          List.replicate (pageSize - boundary k) (0 : UInt8)).take (dataEnd k)).drop
            (k * sectorSize)).length = (sectorOf raw k).length := by
        rw [dataEnd_eq hkt, ← boundary_of_lt hkt, List.length_drop, List.length_take, List.length_append,
          hdone, List.length_replicate, hsec]
        omega
      simp only [hout, hrest, applyStream, hwindow]
      rw [List.take_of_length_le (by rw [length_plainUnder]), List.drop_of_length_le (by rw [hwindow]),
        List.append_nil, plainSector]

theorem deobfuscateWithBvAndConfidence_eq (hraw : pageSize ≤ raw.length) :
    deobfuscateWithBvAndConfidence raw pn bv =
      some ((List.range sectorsPerPage).flatMap (plainSector raw pn bv) ++ (raw.take pageSize).drop trailerStart,
        { pageNumber := pn
          bv := bv
          sectors := (List.range sectorsPerPage).map fun si =>
            recoverStepConfidence (sectorOf raw si) (apBase pn si bv) si
          tiedSectorCount := (((List.range sectorsPerPage).map fun si =>
            recoverStepConfidence (sectorOf raw si) (apBase pn si bv) si).filter (·.bestPeakTied)).length }) := by
  have hbody := length_blocks (@plainSector_lengths raw pn bv hraw) (Nat.le_refl _)
  rw [boundary_last] at hbody
  rw [deobfuscateWithBvAndConfidence, if_neg (Nat.not_lt.mpr hraw), deobfuscateSectors,
    foldl_deobfuscateSector hraw (Nat.le_refl _)]
  simp only
  rw [← hbody, List.take_left]

theorem deobfuscateWithBv_eq (hraw : pageSize ≤ raw.length) :
    deobfuscateWithBv raw pn bv =
      some ((List.range sectorsPerPage).flatMap (plainSector raw pn bv) ++
        (raw.take pageSize).drop trailerStart) := by
  rw [deobfuscateWithBv, deobfuscateWithBvAndConfidence_eq hraw, Option.map_some]

end Decoding

section Recovery

variable {store : PageStore} {pn : Nat} {bv : UInt8} {steps : Nat → UInt8} {plain trailer : Bytes}

theorem encodePage_size (hplain : plain.length = trailerStart) (htrailer : trailer.length = pageSize - trailerStart) :
    (encodePage pn bv steps plain trailer).length = pageSize := by
  rw [length_encodePage hplain, htrailer]
  rfl

theorem sectorOf_even {si : Nat} (hplain : plain.length = trailerStart) (hsi : si < sectorsPerPage) :
    ∃ m, (sectorOf plain si).length = 2 * m := by
  obtain ⟨m, -, hm⟩ := sector_even hsi
  exact ⟨m, (length_sectorOf hsi hplain.ge).trans hm⟩

theorem plainSectors_encodePage (hplain : plain.length = trailerStart)
    (htrailer : trailer.length = pageSize - trailerStart)
    (hsteps : ∀ si < sectorsPerPage, (recoverStepConfidence
      (encodeSector (apBase pn si bv) (steps si) (sectorOf plain si)) (apBase pn si bv) si).chosenStep = steps si) :
    (List.range sectorsPerPage).flatMap (plainSector (encodePage pn bv steps plain trailer) pn bv) ++
      ((encodePage pn bv steps plain trailer).take pageSize).drop trailerStart = plain ++ trailer := by
  have hlen := @encodePage_size pn bv steps _ _ hplain htrailer
  have hsectors : (List.range sectorsPerPage).flatMap (plainSector (encodePage pn bv steps plain trailer) pn bv) =
      (List.range sectorsPerPage).flatMap (sectorOf plain) := by
    apply List.flatMap_congr
    intro si hsi
    rw [List.mem_range] at hsi
    rw [plainSector, sectorOf_encodePage hplain hsi, hsteps si hsi, plainUnder_encodeSector]
  rw [hsectors, flatMap_all_sectors hplain, ← hlen, List.take_length, drop_encodePage hplain]

theorem deobfuscateWithBv_encodePage (hplain : plain.length = trailerStart)
    (htrailer : trailer.length = pageSize - trailerStart) (hsparse : SparsePage plain) :
    deobfuscateWithBv (encodePage pn bv steps plain trailer) pn bv = some (plain ++ trailer) := by
  have hsteps (si : Nat) (hsi : si < sectorsPerPage) : (recoverStepConfidence
      (encodeSector (apBase pn si bv) (steps si) (sectorOf plain si)) (apBase pn si bv) si).chosenStep = steps si := by
    obtain ⟨m, heven⟩ := sectorOf_even hplain hsi
    exact chosenStep_encodeSector heven (hsparse si hsi) si
  rw [deobfuscateWithBv_eq (encodePage_size hplain htrailer).ge, plainSectors_encodePage hplain htrailer hsteps]

theorem foldl_scores (best : Nat → UInt8 → Nat) (sis : List Nat) (score : UInt8 → Nat) (b : UInt8) :
    sis.foldl (fun score si => fun bv => score bv + best si bv) score b =
      score b + (sis.map (best · b)).sum := by
  induction sis generalizing score with
  | nil => rfl
  | cons si sis ih => rw [List.foldl_cons, ih, List.map_cons, List.sum_cons, Nat.add_assoc]

def pageScore (bytes : Bytes) (pn : Nat) (b : UInt8) : Nat :=
  ((List.range 7).map (fun si =>
    stepBvMax ((bytes.take (si * sectorSize + sectorSize)).drop (si * sectorSize))
      (UInt8.ofNat pn + UInt8.ofNat si - bias pn) b)).sum

theorem scoreBvCandidates_apply (bytes : Bytes) (pn : Nat) (score : UInt8 → Nat) (b : UInt8) :
    scoreBvCandidates bytes pn score b = score b + pageScore bytes pn b := by
  rw [scoreBvCandidates, pageScore]
  exact foldl_scores (fun si => stepBvMax ((bytes.take (si * sectorSize + sectorSize)).drop (si * sectorSize))
    (UInt8.ofNat pn + UInt8.ofNat si - bias pn)) (List.range 7) score b

theorem sum_lt_sum {f g : Nat → Nat} {xs : List Nat} (hne : xs ≠ []) (h : ∀ x ∈ xs, f x < g x) :
    (xs.map f).sum < (xs.map g).sum := by
  induction xs with
  | nil => exact absurd rfl hne
  | cons x xs ih =>
      obtain ⟨hx, hxs⟩ := List.forall_mem_cons.mp h
      rw [List.map_cons, List.map_cons, List.sum_cons, List.sum_cons]
      cases xs with
      | nil => simpa using hx
      | cons y ys =>
          have := ih (List.cons_ne_nil y ys) hxs
          omega

/-- The right bv scores strictly best on a sparse page. -/
theorem pageScore_encodePage_lt (hplain : plain.length = trailerStart) (hsparse : SparsePage plain)
    {b : UInt8} (hb : b ≠ bv) :
    pageScore (encodePage pn bv steps plain trailer) pn b <
      pageScore (encodePage pn bv steps plain trailer) pn bv := by
  rw [pageScore, pageScore]
  apply sum_lt_sum (by decide)
  intro si hsi
  rw [List.mem_range] at hsi
  have hin : si < sectorsPerPage := Nat.lt_trans hsi (by decide)
  have hwindow : ((encodePage pn bv steps plain trailer).take (si * sectorSize + sectorSize)).drop
      (si * sectorSize) = encodeSector (bv + (UInt8.ofNat pn + UInt8.ofNat si - bias pn)) (steps si)
        (sectorOf plain si) := by
    have hnext : boundary (si + 1) = si * sectorSize + sectorSize := by
      rw [boundary_of_lt (Nat.lt_of_le_of_lt hsi (by decide)), Nat.succ_mul]
    have hbase : bv + (UInt8.ofNat pn + UInt8.ofNat si - bias pn) = apBase pn si bv := by
      rw [apBase]
      ring
    rw [hbase, ← @sectorOf_encodePage _ _ _ _ _ trailer hplain hin, sectorOf_eq hin, hnext,
      boundary_of_lt hin]
  obtain ⟨m, heven⟩ := sectorOf_even hplain hin
  rw [hwindow]
  exact stepBvMax_lt heven (hsparse si hin) hb

theorem bestBv_of_unique {score : UInt8 → Nat} (h : ∀ b, b ≠ bv → score b < score bv) (bv0 : UInt8) :
    bestBv score bv0 = bv := by
  rw [bestBv, maxByKey_of_unique (mem_allBytes bv) (fun b _ => h b), Option.getD_some]

theorem recoverBvForPage_encodePage (model : ApModel) {page : Page} (hpage : store.page pn = .ok page)
    (hplain : plain.length = trailerStart) (hsparse : SparsePage plain)
    (hstored : page.bytes = encodePage pn bv steps plain trailer) :
    model.recoverBvForPage store pn = bv := by
  rw [ApModel.recoverBvForPage, hpage]
  apply bestBv_of_unique
  intro b hb
  rw [scoreBvCandidates_apply, scoreBvCandidates_apply, hstored]
  exact Nat.add_lt_add_left (pageScore_encodePage_lt hplain hsparse hb) 0

theorem pageVotes_encodePage (hplain : plain.length = trailerStart) (hsparse : SparsePage plain) :
    ∀ v ∈ pageVotes (encodePage pn bv steps plain trailer) pn, v = bv := by
  intro v hv
  obtain ⟨si, hsi, hvote⟩ := List.mem_filterMap.mp hv
  rw [List.mem_range] at hsi
  obtain ⟨m, hpos, hm⟩ := sector_even hsi
  have heven : (sectorOf plain si).length = 2 * m := by rw [length_sectorOf hsi hplain.ge, hm]
  exact sectorVote_encodeSector (sectorOf_encodePage hplain hsi) heven hpos (hsparse si hsi) hvote

theorem learnBvForPage_encodePage (order : HashOrder UInt8 Nat) (hplain : plain.length = trailerStart)
    (hsparse : SparsePage plain) {ptype learned : UInt8}
    (hlearn : learnBvForPage order (encodePage pn bv steps plain trailer) pn ptype = some learned) :
    learned = bv := by
  rw [learnBvForPage] at hlearn
  split at hlearn
  · exact pageVotes_encodePage hplain hsparse learned (leads_of_winner hlearn).1
  · cases hlearn

theorem deobfuscateWithStore_of_encoded (model : ApModel) (order : HashOrder UInt8 Nat) {page : Page}
    (hpage : store.page pn = .ok page) (hplain : plain.length = trailerStart)
    (htrailer : trailer.length = pageSize - trailerStart) (hsparse : SparsePage plain)
    (hstored : page.bytes = encodePage pn bv steps plain trailer) :
    model.deobfuscateWithStore order page.bytes pn store = some (plain ++ trailer) := by
  obtain ⟨ptype, htype⟩ : ∃ ptype, page.bytes[trailerStart + 2]? = some ptype :=
    ⟨_, List.getElem?_eq_getElem (by rw [page.length_eq]; decide)⟩
  have hbv : (learnBvForPage order page.bytes pn ptype).getD (model.recoverBvForPage store pn) = bv := by
    cases hlearn : learnBvForPage order page.bytes pn ptype with
    | none =>
        rw [Option.getD_none, recoverBvForPage_encodePage model hpage hplain hsparse hstored]
    | some learned =>
        rw [hstored] at hlearn
        rw [Option.getD_some, learnBvForPage_encodePage order hplain hsparse hlearn]
  rw [ApModel.deobfuscateWithStore, ApModel.deobfuscateWithStoreAndConfidence, htype]
  simp only [hbv]
  rw [← deobfuscateWithBv_encodePage hplain htrailer hsparse, ← hstored, deobfuscateWithBv]

/-- Deobfuscation with the store gives a sparse page back, whichever way the page's bv is found. -/
theorem deobfuscateWithStore_encodePage (model : ApModel) (order : HashOrder UInt8 Nat) {page : Page}
    (hpage : store.page pn = .ok page) (hplain : plain.length = trailerStart)
    (htrailer : trailer.length = pageSize - trailerStart) (hsparse : SparsePage plain)
    (hstored : page.bytes = encodePage pn bv steps plain trailer) :
    model.deobfuscateWithStore order page.bytes pn store = some (plain ++ trailer) ∧
    (∀ ptype learned, learnBvForPage order page.bytes pn ptype = some learned → learned = bv) ∧
    model.recoverBvForPage store pn = bv := by
  refine ⟨deobfuscateWithStore_of_encoded model order hpage hplain htrailer hsparse hstored, ?_,
    recoverBvForPage_encodePage model hpage hplain hsparse hstored⟩
  intro ptype learned hlearn
  rw [hstored] at hlearn
  exact learnBvForPage_encodePage order hplain hsparse hlearn

def noisyBody : Bytes := (List.range trailerStart).map fun i => if i < 3584 ∧ i % 8 = 3 then UInt8.ofNat i else 0

theorem length_noisyBody : noisyBody.length = trailerStart := by
  rw [noisyBody, List.length_map, List.length_range]

theorem sparsePage_noisyBody : SparsePage noisyBody := by
  change ∀ si < 8, 3 * (sectorOf _ si).length < 4 * (sectorOf _ si).count 0
  decide +kernel

def noisyPage (pn : Nat) : Bytes := encodePage pn 7 (fun si => UInt8.ofNat (si + pn)) noisyBody pureTrailer

theorem length_noisyPage (pn : Nat) : (noisyPage pn).length = pageSize := length_encodePage length_noisyBody

theorem noisy_pos : 0 < 3 := by
  decide

theorem noisy_fits : 3 * pageSize < 2 ^ 63 := by
  decide

def noisyStore : PageStore := PageStore.ofPages noisyPage length_noisyPage 3 noisy_pos noisy_fits

theorem deobfuscateWithStore_encodePage_noisy :
    ApModel.deobfuscateWithStore ⟨[], 0⟩ insertionOrder (noisyPage 2) 2 noisyStore = some (noisyBody ++ pureTrailer) ∧
    (∀ ptype learned, learnBvForPage insertionOrder (noisyPage 2) 2 ptype = some learned → learned = 7) ∧
    ApModel.recoverBvForPage ⟨[], 0⟩ noisyStore 2 = 7 := by
  have hbytes : noisyStore.pageBytes 2 = noisyPage 2 := PageStore.pageBytes_ofPages _ _ _ (by decide)
  have hpage : noisyStore.page 2 = .ok ⟨2, noisyPage 2, length_noisyPage 2⟩ :=
    PageStore.page_eq_ok_iff.mpr ⟨by rw [noisyStore, PageStore.pageCount_ofPages]; decide, rfl, hbytes.symm⟩
  have hstored : noisyPage 2 = encodePage 2 7 (fun si => UInt8.ofNat (si + 2)) noisyBody pureTrailer := rfl
  have h := deobfuscateWithStore_encodePage ⟨[], 0⟩ insertionOrder hpage length_noisyBody length_pureTrailer
    sparsePage_noisyBody hstored
  exact h

end Recovery

end OpenSqlAny.ApPages
