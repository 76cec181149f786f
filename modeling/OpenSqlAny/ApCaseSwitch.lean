import OpenSqlAny.ApPeaks
import OpenSqlAny.ApTables

namespace OpenSqlAny.ApCaseSwitch

open Library.LittleEndian Library.Histograms Library.HashEntries PageStores ApFill ApSectors ApPeaks ApPages ApLearning
  ApOrders ApFallbacks ApDiagnostics ApElections ApOutcomes ApTables

inductive PageType
  | extent
  | alloc
  | map
  | header
  | catalog
  | bootstrap
  | index
  | unknownG
  | other (b : UInt8)
  deriving DecidableEq, Repr

def toAsciiUppercase (b : UInt8) : UInt8 := if 0x61 ≤ b ∧ b ≤ 0x7A then b - 0x20 else b

def PageType.fromByte (b : UInt8) : PageType :=
  let upper := toAsciiUppercase b
  if upper = 0x45 then .extent
  else if upper = 0x41 then .alloc
  else if upper = 0x4D then .map
  else if upper = 0x48 then .header
  else if upper = 0x43 then .catalog
  else if upper = 0x40 then .bootstrap
  else if upper = 0x49 then .index
  else if upper = 0x47 then .unknownG
  else .other b

def isFillLetter (b : UInt8) : Bool := PageType.fromByte b ∈ [.catalog, .header, .map]

def isAsciiAlphabetic (b : UInt8) : Bool := 0x41 ≤ b ∧ b ≤ 0x5A ∨ 0x61 ≤ b ∧ b ≤ 0x7A

def flipCase (b : UInt8) : UInt8 := if isAsciiAlphabetic b then b ^^^ 0x20 else b

theorem forall_byte {p : UInt8 → Prop} (h : ∀ n < 256, p (UInt8.ofNat n)) (b : UInt8) : p b := by
  have hb := h b.toNat b.toNat_lt
  rwa [UInt8.ofNat_toNat] at hb

theorem fromByte_flipCase (b : UInt8) :
    PageType.fromByte b = .other b ∨ PageType.fromByte (flipCase b) = PageType.fromByte b := by
  revert b
  apply forall_byte
  decide +kernel

theorem contains_flipCase_iff (b : UInt8) :
    pureApTypes.contains (flipCase b) = pureApTypes.contains b ↔ isFillLetter b = false := by
  revert b
  apply forall_byte
  decide +kernel

section Bodies

variable {bytes bytes' : Bytes} {pn si : Nat} {v : UInt8}

theorem window_eq {lo hi : Nat} (h : bytes.take trailerStart = bytes'.take trailerStart) (hhi : hi ≤ trailerStart) :
    (bytes.take hi).drop lo = (bytes'.take hi).drop lo := by
  have htake := congrArg (List.take hi) h
  rw [List.take_take, List.take_take, Nat.min_eq_left hhi] at htake
  rw [htake]

theorem sectorOf_congr (h : bytes.take trailerStart = bytes'.take trailerStart) (hsi : si < sectorsPerPage) :
    sectorOf bytes si = sectorOf bytes' si := by
  rw [sectorOf, sectorOf]
  apply window_eq h
  rw [dataEnd_eq hsi]
  exact Nat.min_le_right _ _

def sectorVotes (bytes : Bytes) (pn : Nat) : List UInt8 := (List.range sectorsPerPage).filterMap (exactVote bytes pn)

theorem sectorVotes_congr (h : bytes.take trailerStart = bytes'.take trailerStart) :
    sectorVotes bytes pn = sectorVotes bytes' pn := by
  apply List.filterMap_congr
  intro si hsi
  rw [exactVote, exactVote, sectorOf_congr h (List.mem_range.mp hsi)]

theorem pageScore_congr (h : bytes.take trailerStart = bytes'.take trailerStart) :
    pageScore bytes pn = pageScore bytes' pn := by
  funext b
  rw [pageScore, pageScore]
  apply congrArg List.sum
  apply List.map_congr_left
  intro si hsi
  have hwindow : si * sectorSize + sectorSize ≤ trailerStart := by
    rw [List.mem_range] at hsi
    rw [sectorSize, trailerStart]
    omega
  rw [window_eq h hwindow]

theorem bruteForceBv_congr (h : bytes.take trailerStart = bytes'.take trailerStart) :
    bruteForceBv bytes pn = bruteForceBv bytes' pn := by
  rw [bruteForceBv, bruteForceBv, pageScore_congr h]

theorem bodyUnder_congr (h : bytes.take trailerStart = bytes'.take trailerStart) :
    bodyUnder bytes pn v = bodyUnder bytes' pn v := by
  apply List.flatMap_congr
  intro si hsi
  rw [plainSector, plainSector, sectorOf_congr h (List.mem_range.mp hsi)]

end Bodies

section Switching

def switchedByte (chosen : Nat → Bool) (i : Nat) (b : UInt8) : UInt8 :=
  if i % pageSize = 0xFF2 ∧ chosen (i / pageSize) = true then flipCase b else b

/-- The store whose chosen pages have their type letters in the other case. -/
def switchCase (chosen : Nat → Bool) (store : PageStore) : PageStore where
  bytes := store.bytes.mapIdx (switchedByte chosen)
  pageSize_le := by
    rw [List.length_mapIdx]
    exact store.pageSize_le
  aligned := by
    rw [List.length_mapIdx]
    exact store.aligned
  fits := by
    rw [List.length_mapIdx]
    exact store.fits

variable {chosen : Nat → Bool} {store : PageStore} {pn i : Nat}

theorem pageCount_switchCase : (switchCase chosen store).pageCount = store.pageCount := by
  rw [PageStore.pageCount, switchCase, List.length_mapIdx, PageStore.pageCount]

theorem getElem?_pageBytes (hi : i < pageSize) : (store.pageBytes pn)[i]? = store.bytes[pn * pageSize + i]? := by
  rw [PageStore.pageBytes, List.getElem?_drop, List.getElem?_take_of_lt (by omega)]

theorem getElem?_switchCase (hi : i < pageSize) : ((switchCase chosen store).pageBytes pn)[i]? =
    (store.pageBytes pn)[i]?.map (fun b => if i = 0xFF2 ∧ chosen pn = true then flipCase b else b) := by
  have hpage : (pn * pageSize + i) / pageSize = pn := by
    rw [Nat.mul_comm, Nat.mul_add_div (by decide), Nat.div_eq_of_lt hi, Nat.add_zero]
  have hbyte : (pn * pageSize + i) % pageSize = i := by
    rw [Nat.mul_add_mod_self_right, Nat.mod_eq_of_lt hi]
  rw [getElem?_pageBytes hi, getElem?_pageBytes hi, switchCase, List.getElem?_mapIdx]
  congr 1
  funext b
  rw [switchedByte, hpage, hbyte]

theorem body_switchCase (chosen : Nat → Bool) (store : PageStore) (pn : Nat) :
    ((switchCase chosen store).pageBytes pn).take trailerStart = (store.pageBytes pn).take trailerStart := by
  apply List.ext_getElem?
  intro i
  rw [List.getElem?_take, List.getElem?_take]
  split
  · rename_i hi
    rw [trailerStart] at hi
    rw [getElem?_switchCase (by rw [pageSize]; omega)]
    have hbody : ¬(i = 0xFF2 ∧ chosen pn = true) := by omega
    simp only [hbody, if_false, Option.map_id']
  · rfl

def typeByte (store : PageStore) (pn : Nat) : UInt8 := (store.pageBytes pn).getD (trailerStart + 2) 0

theorem typeByte_switchCase (hpn : pn < store.pageCount) : typeByte (switchCase chosen store) pn =
    if chosen pn = true then flipCase (typeByte store pn) else typeByte store pn := by
  have hin : 0xFF2 < (store.pageBytes pn).length := by
    rw [store.length_pageBytes hpn]
    decide
  change ((switchCase chosen store).pageBytes pn).getD 0xFF2 0 =
    if chosen pn = true then flipCase ((store.pageBytes pn).getD 0xFF2 0) else (store.pageBytes pn).getD 0xFF2 0
  rw [List.getD_eq_getElem?_getD, List.getD_eq_getElem?_getD, getElem?_switchCase (by decide),
    List.getElem?_eq_getElem hin, Option.map_some, Option.getD_some, Option.getD_some]
  by_cases hchosen : chosen pn = true
  · rw [if_pos ⟨rfl, hchosen⟩, if_pos hchosen]
  · rw [if_neg (fun h => hchosen h.2), if_neg hchosen]

end Switching

def countedVotes (counted : Nat → Bool) (store : PageStore) (bi : Nat) : List UInt8 :=
  ((List.range store.pageCount).filter (· / 16 = bi)).flatMap
    (fun pn => if counted pn then sectorVotes (store.pageBytes pn) pn else [])

def countedStored (store : PageStore) (pn : Nat) : Bool := pureApTypes.contains (typeByte store pn)

/-- The switch puts the page in or out of the election. -/
def isMoved (chosen : Nat → Bool) (store : PageStore) (pn : Nat) : Bool := chosen pn && isFillLetter (typeByte store pn)

/-- The votes of a block that stay, those that a switch takes out and those that it puts in. -/
def kept (chosen : Nat → Bool) (store : PageStore) : Nat → List UInt8 :=
  countedVotes (fun pn => countedStored store pn && !isMoved chosen store pn) store

def leaving (chosen : Nat → Bool) (store : PageStore) : Nat → List UInt8 :=
  countedVotes (fun pn => countedStored store pn && isMoved chosen store pn) store

def entering (chosen : Nat → Bool) (store : PageStore) : Nat → List UInt8 :=
  countedVotes (fun pn => !countedStored store pn && isMoved chosen store pn) store

def votesBefore (chosen : Nat → Bool) (store : PageStore) (bi : Nat) : List UInt8 :=
  kept chosen store bi ++ leaving chosen store bi

def votesAfter (chosen : Nat → Bool) (store : PageStore) (bi : Nat) : List UInt8 :=
  kept chosen store bi ++ entering chosen store bi

/-- The highest score of the page, and the last of its like. -/
def TopScore (bytes : Bytes) (pn : Nat) (v : UInt8) : Prop :=
  ∀ w, pageScore bytes pn w ≤ pageScore bytes pn v ∧ (v < w → pageScore bytes pn w < pageScore bytes pn v)

def Learns (store : PageStore) (table : Nat → UInt8) (count : Nat) (bodies : Nat → Bytes) : Prop :=
  ∃ (orders : LearnOrders) (pageOrders : Nat → HashOrder UInt8 Nat),
    (ApModel.learn orders store).bvAt = table ∧ (ApModel.learn orders store).learnedBlockCount = count ∧
    ∀ pn < store.pageCount, ∃ out, (ApModel.learn orders store).deobfuscateWithStore (pageOrders pn)
      (store.pageBytes pn) pn store = some out ∧ out.take trailerStart = bodies pn

/-- The order of a hash map is drawn anew in every run, so it is the possible results of whole runs that
are compared. -/
def Unchanged (store store' : PageStore) : Prop :=
  ∀ table count bodies, Learns store table count bodies ↔ Learns store' table count bodies

/-- The votes of the pages that a switch puts in or out of the election decide nothing: in no table, not in
the number of blocks that vote, and not for the page itself, which then goes by the score of its bytes. -/
structure Undisturbed (chosen : Nat → Bool) (store : PageStore) : Prop where
  voting : silenced (votesBefore chosen store) (votesAfter chosen store) store.pageCount =
    silenced (votesAfter chosen store) (votesBefore chosen store) store.pageCount
  tables : SameTables (votesBefore chosen store) (votesAfter chosen store)
  pages : ∀ pn < store.pageCount, isMoved chosen store pn = true →
    sectorVotes (store.pageBytes pn) pn = [] ∨
      ∀ v, Leads (sectorVotes (store.pageBytes pn) pn) v ↔ TopScore (store.pageBytes pn) pn v

section Votes

variable {chosen : Nat → Bool} {store : PageStore} {pn bi : Nat}

def countedSwitched (chosen : Nat → Bool) (store : PageStore) (pn : Nat) : Bool :=
  pureApTypes.contains (if chosen pn = true then flipCase (typeByte store pn) else typeByte store pn)

theorem countedSwitched_eq : countedSwitched chosen store pn = (countedStored store pn ^^ isMoved chosen store pn) := by
  rw [countedSwitched, countedStored, isMoved]
  cases chosen pn with
  | false => simp
  | true =>
      have hflip := contains_flipCase_iff (typeByte store pn)
      rw [if_pos rfl, Bool.true_and]
      cases hletter : isFillLetter (typeByte store pn) with
      | false => rw [hflip.mpr hletter, Bool.xor_false]
      | true =>
          rw [hletter] at hflip
          rw [Bool.xor_true, Bool.eq_not]
          exact fun h => absurd (hflip.mp h) (by decide)

theorem countedVotes_perm {counted first second : Nat → Bool} (hor : ∀ pn, counted pn = (first pn || second pn))
    (hand : ∀ pn, (first pn && second pn) = false) (store : PageStore) (bi : Nat) :
    (countedVotes counted store bi).Perm (countedVotes first store bi ++ countedVotes second store bi) := by
  refine List.Perm.trans (.of_eq ?_) (List.flatMap_append_perm _ _ _).symm
  apply List.flatMap_congr
  intro pn _
  have hand := hand pn
  rw [hor]
  cases hfirst : first pn with
  | false => simp
  | true =>
      rw [hfirst, Bool.true_and] at hand
      simp [hand]

theorem blockBallot_perm (chosen : Nat → Bool) (store : PageStore) (bi : Nat) :
    (blockBallot store bi).Perm (votesBefore chosen store bi) := by
  refine @countedVotes_perm (countedStored store) _ _ ?_ ?_ store bi
  · intro pn
    cases countedStored store pn <;> cases isMoved chosen store pn <;> rfl
  · intro pn
    cases countedStored store pn <;> cases isMoved chosen store pn <;> rfl

theorem pageBallot_switchCase (hpn : pn < store.pageCount) :
    pageBallot ((switchCase chosen store).pageBytes pn) pn =
      if countedSwitched chosen store pn then sectorVotes (store.pageBytes pn) pn else [] := by
  change (if pureApTypes.contains (typeByte (switchCase chosen store) pn) then
    sectorVotes ((switchCase chosen store).pageBytes pn) pn else []) = _
  rw [typeByte_switchCase hpn, ← countedSwitched, sectorVotes_congr (body_switchCase chosen store pn)]

theorem blockBallot_switchCase (chosen : Nat → Bool) (store : PageStore) (bi : Nat) :
    (blockBallot (switchCase chosen store) bi).Perm (votesAfter chosen store bi) := by
  have hvotes : blockBallot (switchCase chosen store) bi = countedVotes (countedSwitched chosen store) store bi := by
    rw [blockBallot, countedVotes, pageCount_switchCase]
    apply List.flatMap_congr
    intro pn hpn
    exact pageBallot_switchCase (List.mem_range.mp (List.mem_of_mem_filter hpn))
  rw [hvotes]
  refine countedVotes_perm ?_ ?_ store bi
  · intro pn
    rw [countedSwitched_eq]
    cases countedStored store pn <;> cases isMoved chosen store pn <;> rfl
  · intro pn
    cases countedStored store pn <;> cases isMoved chosen store pn <;> rfl

end Votes

section Pages

variable {chosen : Nat → Bool} {store : PageStore} {bytes : Bytes} {pn : Nat} {v : UInt8}

theorem topScore_iff : TopScore bytes pn v ↔ v = bruteForceBv bytes pn := by
  have htop : TopScore bytes pn (bruteForceBv bytes pn) := by
    obtain ⟨u, hu⟩ := @maxByKey_isSome _ (pageScore bytes pn) allBytes (List.ne_nil_of_mem (mem_allBytes 0))
    rw [bruteForceBv, bestBv, hu, Option.getD_some]
    intro w
    refine ⟨(maxByKey_spec hu).2 w (mem_allBytes w), ?_⟩
    exact maxByKey_later (fun _ _ => UInt8.lt_asymm) allBytes_ascending hu (mem_allBytes w)
  constructor
  · intro hv
    by_contra hne
    rcases UInt8.lt_or_lt_of_ne hne with hlt | hlt
    · exact Nat.not_lt.mpr (htop v).1 ((hv _).2 hlt)
    · exact Nat.not_lt.mpr (hv _).1 ((htop v).2 hlt)
  · intro h
    rwa [← h] at htop

theorem pageCalibrates_nil {brute : UInt8} : PageCalibrates [] brute v ↔ v = brute := by
  constructor
  · rintro (hlead | ⟨-, rfl⟩)
    · cases hlead.1
    · rfl
  · intro h
    exact .inr ⟨rfl, h⟩

theorem pageCalibrates_same_iff {votes : List UInt8} {brute : UInt8} :
    (∀ v, PageCalibrates votes brute v ↔ PageCalibrates [] brute v) ↔
      votes = [] ∨ ∀ v, Leads votes v ↔ v = brute := by
  by_cases hnil : votes = []
  · subst hnil
    exact iff_of_true (fun _ => Iff.rfl) (.inl rfl)
  · rw [or_iff_right hnil]
    refine forall_congr' fun v => ?_
    rw [pageCalibrates_nil, PageCalibrates, or_iff_left fun h => hnil h.1]

def Decodes (store : PageStore) (pn : Nat) (body : Bytes) : Prop :=
  ∃ v, PageCalibrates (pageBallot (store.pageBytes pn) pn) (bruteForceBv (store.pageBytes pn) pn) v ∧
    bodyUnder (store.pageBytes pn) pn v = body

theorem exists_decodes (store : PageStore) (pn : Nat) : ∃ body, Decodes store pn body :=
  ⟨_, _, winner_pageCalibrates insertionOrder _ _, rfl⟩

theorem decodes_switchCase_iff (hpn : pn < store.pageCount) :
    (∀ body, Decodes store pn body ↔ Decodes (switchCase chosen store) pn body) ↔
      ∀ v, PageCalibrates (if countedStored store pn then sectorVotes (store.pageBytes pn) pn else [])
          (bruteForceBv (store.pageBytes pn) pn) v ↔
        PageCalibrates (if countedSwitched chosen store pn then sectorVotes (store.pageBytes pn) pn else [])
          (bruteForceBv (store.pageBytes pn) pn) v := by
  have hraw := (store.length_pageBytes hpn).ge
  have hbody := body_switchCase chosen store pn
  have hstored (body : Bytes) : Decodes store pn body ↔ ∃ v,
      PageCalibrates (if countedStored store pn then sectorVotes (store.pageBytes pn) pn else [])
        (bruteForceBv (store.pageBytes pn) pn) v ∧ bodyUnder (store.pageBytes pn) pn v = body := Iff.rfl
  have hswitched (body : Bytes) : Decodes (switchCase chosen store) pn body ↔ ∃ v,
      PageCalibrates (if countedSwitched chosen store pn then sectorVotes (store.pageBytes pn) pn else [])
        (bruteForceBv (store.pageBytes pn) pn) v ∧ bodyUnder (store.pageBytes pn) pn v = body := by
    rw [Decodes, pageBallot_switchCase hpn, bruteForceBv_congr hbody]
    simp only [bodyUnder_congr hbody]
  constructor
  · intro h v
    have hv := h (bodyUnder (store.pageBytes pn) pn v)
    rw [hstored, hswitched] at hv
    simpa only [bodyUnder_inj hraw, exists_eq_right] using hv
  · intro h body
    rw [hstored, hswitched]
    exact exists_congr fun v => and_congr_left fun _ => h v

theorem pages_unchanged_iff (hpn : pn < store.pageCount) :
    (∀ body, Decodes store pn body ↔ Decodes (switchCase chosen store) pn body) ↔
      (isMoved chosen store pn = true → sectorVotes (store.pageBytes pn) pn = [] ∨
        ∀ v, Leads (sectorVotes (store.pageBytes pn) pn) v ↔ TopScore (store.pageBytes pn) pn v) := by
  simp only [topScore_iff]
  rw [decodes_switchCase_iff hpn, ← pageCalibrates_same_iff, countedSwitched_eq]
  cases isMoved chosen store pn with
  | false =>
      rw [Bool.xor_false]
      exact iff_of_true (fun _ => Iff.rfl) (fun h => absurd h Bool.false_ne_true)
  | true =>
      rw [Bool.xor_true, imp_iff_right rfl]
      cases countedStored store pn with
      | true => simp only [Bool.not_true, if_true, Bool.false_eq_true, if_false]
      | false =>
          simp only [Bool.not_false, if_true, Bool.false_eq_true, if_false]
          exact forall_congr' fun v => Iff.comm

end Pages

section Runs

variable {chosen : Nat → Bool} {store store' : PageStore} {table : Nat → UInt8} {count : Nat} {bodies : Nat → Bytes}

/-- The table, the number of learned blocks and the body of each page vary independently. -/
theorem learns_iff : Learns store table count bodies ↔ Elected (blockBallot store) table ∧
    votingBlocks (blockBallot store) store.pageCount = count ∧ ∀ pn < store.pageCount, Decodes store pn (bodies pn) := by
  constructor
  · rintro ⟨orders, pageOrders, rfl, rfl, hbodies⟩
    exact ⟨elected_learn orders store, (learnedBlockCount_learn orders store).symm,
      (exists_orders_iff _ bodies).mp ⟨pageOrders, hbodies⟩⟩
  · rintro ⟨helected, rfl, hbodies⟩
    obtain ⟨orders, rfl⟩ := exists_orders helected
    obtain ⟨pageOrders, hpages⟩ := (exists_orders_iff (ApModel.learn orders store) bodies).mpr hbodies
    exact ⟨orders, pageOrders, rfl, learnedBlockCount_learn orders store, hpages⟩

theorem body_of_bodies {can can' : Nat → Bytes → Prop} {n pn : Nat} {body : Bytes}
    (h : ∀ bodies : Nat → Bytes, (∀ qn < n, can qn (bodies qn)) → ∀ qn < n, can' qn (bodies qn))
    (hsome : ∀ qn, ∃ body, can qn body) (hpn : pn < n) (hbody : can pn body) : can' pn body := by
  choose bodies hbodies using hsome
  have hall : ∀ qn < n, can qn (Function.update bodies pn body qn) := by
    rw [Function.forall_update_iff bodies fun qn body => qn < n → can qn body]
    exact ⟨fun _ => hbody, fun qn _ _ => hbodies qn⟩
  have hmoved := h _ hall pn hpn
  rwa [Function.update_self] at hmoved

theorem unchanged_iff (hpages : store'.pageCount = store.pageCount) : Unchanged store store' ↔
    (∀ table, Elected (blockBallot store) table ↔ Elected (blockBallot store') table) ∧
    votingBlocks (blockBallot store) store.pageCount = votingBlocks (blockBallot store') store.pageCount ∧
    ∀ pn < store.pageCount, ∀ body, Decodes store pn body ↔ Decodes store' pn body := by
  have hlearns (table : Nat → UInt8) (count : Nat) (bodies : Nat → Bytes) := @learns_iff store table count bodies
  have hlearns' (table : Nat → UInt8) (count : Nat) (bodies : Nat → Bytes) := @learns_iff store' table count bodies
  rw [hpages] at hlearns'
  rw [Unchanged]
  simp only [hlearns, hlearns']
  constructor
  · intro h
    have helected := elected_learn plainOrders store
    choose bodies hbodies using exists_decodes store
    obtain ⟨helected', hcount, hbodies'⟩ := (h _ _ bodies).mp ⟨helected, rfl, fun pn _ => hbodies pn⟩
    refine ⟨fun table => ⟨?_, ?_⟩, hcount.symm, fun pn hpn body => ⟨?_, ?_⟩⟩
    · exact fun htable => ((h table _ bodies).mp ⟨htable, rfl, fun pn _ => hbodies pn⟩).1
    · exact fun htable => ((h table _ bodies).mpr ⟨htable, hcount, hbodies'⟩).1
    · exact body_of_bodies (fun bodies hall => ((h _ _ bodies).mp ⟨helected, rfl, hall⟩).2.2) (exists_decodes store) hpn
    · exact body_of_bodies (fun bodies hall => ((h _ _ bodies).mpr ⟨helected', hcount, hall⟩).2.2)
        (exists_decodes store') hpn
  · rintro ⟨htables, hcount, hbodies⟩ table count bodies
    rw [htables, hcount]
    exact and_congr_right fun _ => and_congr_right fun _ => forall₂_congr fun pn hpn => hbodies pn hpn _

/-- A switch of the case of type bytes leaves what runs can learn and decode exactly when the votes of the
pages that it puts in or out of the election decide nothing. -/
theorem unchanged_switchCase_iff (chosen : Nat → Bool) (store : PageStore) :
    Unchanged store (switchCase chosen store) ↔ Undisturbed chosen store := by
  have hbefore (bi : Nat) := sameLead_of_perm (blockBallot_perm chosen store bi)
  have hafter (bi : Nat) := sameLead_of_perm (blockBallot_switchCase chosen store bi)
  have hfar (bi : Nat) (hbi : store.pageCount ≤ bi) : votesBefore chosen store bi = [] := by
    rw [← (hbefore bi).nil_iff]
    by_contra hvotes
    exact Nat.not_lt.mpr hbi (block_lt_pageCount hvotes)
  have hfar' (bi : Nat) (hbi : store.pageCount ≤ bi) : votesAfter chosen store bi = [] := by
    rw [← (hafter bi).nil_iff]
    by_contra hvotes
    have hlt := block_lt_pageCount hvotes
    rw [pageCount_switchCase] at hlt
    exact Nat.not_lt.mpr hbi hlt
  have htables (table : Nat → UInt8) :
      (Elected (blockBallot store) table ↔ Elected (blockBallot (switchCase chosen store)) table) ↔
        (Elected (votesBefore chosen store) table ↔ Elected (votesAfter chosen store) table) := by
    rw [Elected.congr hbefore, Elected.congr hafter]
  have hpages : (∀ pn < store.pageCount, ∀ body, Decodes store pn body ↔ Decodes (switchCase chosen store) pn body) ↔
      ∀ pn < store.pageCount, isMoved chosen store pn = true → sectorVotes (store.pageBytes pn) pn = [] ∨
        ∀ v, Leads (sectorVotes (store.pageBytes pn) pn) v ↔ TopScore (store.pageBytes pn) pn v :=
    forall₂_congr fun pn hpn => pages_unchanged_iff hpn
  rw [unchanged_iff pageCount_switchCase, votingBlocks_congr hbefore, votingBlocks_congr hafter, votingBlocks_eq_iff,
    hpages]
  simp only [htables]
  constructor
  · rintro ⟨hsame, hcount, hmoved⟩
    exact ⟨hcount, (sameTables_iff hfar hfar' hcount).mp hsame, hmoved⟩
  · intro h
    exact ⟨(sameTables_iff hfar hfar' h.voting).mpr h.tables, h.voting, h.pages⟩

end Runs

section Maps

theorem blockBallot_one {store : PageStore} (h : store.pageCount = 1) :
    blockBallot store 0 = pageBallot (store.pageBytes 0) 0 := by
  rw [blockBallot, h]
  change List.flatMap _ [0] = _
  rw [List.flatMap_singleton]

theorem votingBlocks_one {ballots : Nat → List UInt8} : votingBlocks ballots 1 = if ballots 0 = [] then 0 else 1 := by
  rw [votingBlocks]
  change (List.filter _ [0]).length = _
  by_cases hnil : ballots 0 = []
  · simp [hnil]
  · simp [hnil]

def mapPage : Bytes := zeroBody ++ ([0, 0, 0x4D] ++ List.replicate 13 0)

theorem length_mapPage : mapPage.length = pageSize := by
  rw [mapPage, List.length_append, zeroBody, List.length_replicate]
  rfl

def mapStore : PageStore := PageStore.ofPage mapPage length_mapPage

theorem typeByte_mapStore : typeByte mapStore 0 = 0x4D := by
  rw [typeByte, mapStore, PageStore.pageBytes_ofPage, mapPage, zeroBody, List.getD_eq_getElem?_getD,
    List.getElem?_append_right (by simp), List.length_replicate]
  rfl

theorem isPure_mapPage : isPure mapPage = true := by
  have htype := typeByte_mapStore
  rw [typeByte, mapStore, PageStore.pageBytes_ofPage] at htype
  rw [isPure, htype]
  decide

theorem sectorVotes_mapPage : sectorVotes mapPage 0 ≠ [] := by
  have hbody : mapPage.take trailerStart = tiedPage.take trailerStart := by
    rw [mapPage, tiedPage, List.take_append_of_le_length (by rw [zeroBody, List.length_replicate]),
      List.take_append_of_le_length (by rw [zeroBody, List.length_replicate])]
  have hvotes := pageVotes_tiedPage
  rw [pageVotes_eq (by rw [length_tiedPage]; decide), ← sectorVotes, ← sectorVotes_congr hbody] at hvotes
  rw [hvotes]
  exact List.cons_ne_nil _ _

theorem pageCount_mapStore : mapStore.pageCount = 1 := PageStore.pageCount_ofPage length_mapPage

/-- The one page of the store is a map page in either case, and it calibrates its block only in upper case. -/
theorem not_unchanged_mapStore : isAsciiAlphabetic (typeByte mapStore 0) = true ∧
    PageType.fromByte (typeByte (switchCase (fun _ => true) mapStore) 0) = PageType.fromByte (typeByte mapStore 0) ∧
    ¬ Unchanged mapStore (switchCase (fun _ => true) mapStore) := by
  have hpn : 0 < mapStore.pageCount := by
    rw [pageCount_mapStore]
    decide
  refine ⟨by rw [typeByte_mapStore]; decide, ?_, ?_⟩
  · rw [typeByte_switchCase hpn, if_pos rfl, typeByte_mapStore]
    exact (fromByte_flipCase 0x4D).resolve_left (by decide)
  · intro hsame
    obtain ⟨-, hcount, -⟩ := (unchanged_iff pageCount_switchCase).mp hsame
    have hswitched : countedSwitched (fun _ => true) mapStore 0 = false := by
      rw [countedSwitched, typeByte_mapStore]
      decide
    have hafter : blockBallot (switchCase (fun _ => true) mapStore) 0 = [] := by
      rw [blockBallot_one (pageCount_switchCase.trans pageCount_mapStore), pageBallot_switchCase hpn, hswitched]
      rfl
    have hbefore : blockBallot mapStore 0 = sectorVotes mapPage 0 := by
      rw [blockBallot_one pageCount_mapStore, pageBallot, mapStore, PageStore.pageBytes_ofPage, sectorVotes]
      exact if_pos isPure_mapPage
    rw [pageCount_mapStore, votingBlocks_one, votingBlocks_one, hafter, hbefore, if_neg sectorVotes_mapPage] at hcount
    cases hcount

end Maps

end OpenSqlAny.ApCaseSwitch
