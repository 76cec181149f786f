import OpenSqlAny.StoreDecoding

namespace OpenSqlAny.LinkWriting

open Library.Faults Library.HashEntries Library.LittleEndian PageStores ApFill PageLinks PageLinkWalks StoreDecoding

/-- What a page holds beside the fixed parts of its block: zeros before it, and bytes of which nothing is read. -/
structure LinkFiller where
  before : Nat
  gap : Bytes
  middle : Bytes
  rest : Bytes
  length_gap : gap.length = 2
  length_middle : middle.length = 12

def linkParts (filler : LinkFiller) (page : UInt32) (linkFlag : UInt8) (target : UInt32) : List Bytes :=
  [toLeBytes 4 page.toNat, [0, 0], filler.gap, f32One, filler.middle, linkMarker, [linkFlag], [0, 0, 0],
    toLeBytes 4 target.toNat]

def linkedPage (filler : LinkFiller) (page : UInt32) (linkFlag : UInt8) (target : UInt32) : Bytes :=
  List.replicate filler.before 0 ++ (linkParts filler page linkFlag target).flatten ++ filler.rest

section Blocks

variable {filler : LinkFiller} {page target : UInt32} {linkFlag : UInt8} {pageCount : Nat}

theorem part_window {front back : List Bytes} {part : Bytes} {place : Nat}
    (h : linkParts filler page linkFlag target = front ++ part :: back) (hplace : front.flatten.length = place) :
    ((linkedPage filler page linkFlag target).drop (filler.before + place)).take part.length = part := by
  have hsplit : linkedPage filler page linkFlag target =
      (List.replicate filler.before 0 ++ front.flatten) ++ (part ++ (back.flatten ++ filler.rest)) := by
    rw [linkedPage, h, List.flatten_append, List.flatten_cons]
    simp only [List.append_assoc]
  have hlength : (List.replicate filler.before (0 : UInt8) ++ front.flatten).length = filler.before + place := by
    rw [List.length_append, List.length_replicate, hplace]
  rw [hsplit, ← hlength, List.drop_left, List.take_left]

theorem byte_of_window {plain : Bytes} (part : Bytes) {offset i : Nat} (h : (plain.drop offset).take part.length = part)
    (hi : i < part.length) : plain[offset + i]? = part[i]? := by
  rw [← h, List.getElem?_take_of_lt hi, List.getElem?_drop]

theorem ownBlock_linkedPage : OwnBlock (linkedPage filler page linkFlag target) page.toNat filler.before := by
  have hgap := filler.length_gap
  have hmiddle := filler.length_middle
  have hnumber := length_toLeBytes 4 page.toNat
  have hwindow (front back : List Bytes) (part : Bytes) (place : Nat) := @part_window filler page target linkFlag
    front back part place
  have hzeros := hwindow [_] _ [0, 0] 4 rfl (by simp)
  constructor
  · have htarget := length_toLeBytes 4 target.toNat
    rw [linkedPage, List.length_append, List.length_append, List.length_replicate]
    simp [linkParts, f32One, linkMarker, hgap, hmiddle]
  · have hown := hwindow [] _ (toLeBytes 4 page.toNat) 0 rfl rfl
    rwa [hnumber] at hown
  · exact ⟨byte_of_window [0, 0] hzeros (i := 0) (by decide), byte_of_window [0, 0] hzeros (i := 1) (by decide)⟩
  · exact hwindow [_, _, _] _ f32One 8 rfl (by simp [hgap])
  · exact hwindow [_, _, _, _, _] _ linkMarker 24 rfl (by simp [hgap, hmiddle, f32One])
  · exact hwindow [_, _, _, _, _, _, _] _ [0, 0, 0] 27 rfl (by simp [hgap, hmiddle, f32One, linkMarker])

/-- No block of the page begins in the zeros before it: its number is not zero, and the bytes of the number one
do not fit into those that are written. -/
theorem before_le_of_ownBlock (hpage : page ≠ 0) {offset : Nat}
    (h : OwnBlock (linkedPage filler page linkFlag target) page.toNat offset) : filler.before ≤ offset := by
  by_contra hearlier
  rw [Nat.not_le] at hearlier
  have hone := (@ownBlock_linkedPage filler page target linkFlag).one
  have hwritten (i : Nat) (hi : i < 4) := byte_of_window f32One hone hi
  have hread := byte_of_window f32One h.one (i := 3) (by decide)
  by_cases hclear : offset + 4 ≤ filler.before
  · have hzeros : toLeBytes 4 page.toNat = List.replicate 4 0 := by
      rw [← h.own_number, linkedPage, List.append_assoc,
        List.drop_append_of_le_length (by rw [List.length_replicate]; omega), List.drop_replicate,
        List.take_append_of_le_length (by rw [List.length_replicate]; omega), List.take_replicate,
        Nat.min_eq_left (by omega)]
    have hnumber := congrArg fromLeBytes hzeros
    rw [fromLeBytes_toLeBytes page.toNat_lt] at hnumber
    exact hpage (UInt32.toNat_inj.mp hnumber)
  · have hgap : filler.before = offset + 1 ∨ filler.before = offset + 2 ∨ filler.before = offset + 3 := by omega
    rcases hgap with hgap | hgap | hgap
    · have hplace : offset + 8 + 3 = filler.before + 8 + 2 := by omega
      rw [hplace, hwritten 2 (by decide)] at hread
      exact absurd hread (by decide)
    · have hplace : offset + 8 + 3 = filler.before + 8 + 1 := by omega
      rw [hplace, hwritten 1 (by decide)] at hread
      exact absurd hread (by decide)
    · have hplace : offset + 8 + 3 = filler.before + 8 + 0 := by omega
      rw [hplace, hwritten 0 (by decide)] at hread
      exact absurd hread (by decide)

theorem isLeast_linkedPage (hpage : page ≠ 0) :
    IsLeast {o | OwnBlock (linkedPage filler page linkFlag target) page.toNat o} filler.before :=
  ⟨ownBlock_linkedPage, fun _ => before_le_of_ownBlock hpage⟩

/-- The search finds the block that was written, with its flag and its target. -/
theorem findPageLinkMetadata_linkedPage (hpage : page ≠ 0) (hin : page.toNat < pageCount) :
    findPageLinkMetadata (linkedPage filler page linkFlag target) page.toNat pageCount =
      .ok (some ⟨filler.before, linkFlag, targetOf linkFlag target page pageCount⟩) := by
  have hgap := filler.length_gap
  have hmiddle := filler.length_middle
  have hflag := @part_window filler page target linkFlag [_, _, _, _, _, _] [_, _] [linkFlag] 26 rfl
    (by simp [hgap, hmiddle, f32One, linkMarker])
  have hbyte : (linkedPage filler page linkFlag target)[filler.before + 26]? = some linkFlag :=
    take_one_eq_iff.mp hflag
  have htarget := @part_window filler page target linkFlag [_, _, _, _, _, _, _, _] [] (toLeBytes 4 target.toNat) 30 rfl
    (by simp [hgap, hmiddle, f32One, linkMarker])
  rw [length_toLeBytes] at htarget
  have hfound := (find_blockAt_iff page.toNat_lt).mpr
    (@isLeast_linkedPage filler page target linkFlag hpage)
  rw [findPageLinkMetadata_eq, if_pos ⟨hin, page.toNat_lt⟩, hfound, Option.map_some, metadataAt, htarget,
    fromLeBytes_toLeBytes target.toNat_lt, List.getD_eq_getElem?_getD, hbyte]
  simp only [Option.getD_some, UInt32.ofNat_toNat]

end Blocks

inductive ChainEnd
  | noBlock
  | noLink (linkFlag : UInt8) (target : UInt32)
  | badTarget (raw : UInt32)
  | backTo (page : UInt32)

def ChainEnd.stop : ChainEnd → PageLinkWalkStop
  | noBlock => .missingMetadata
  | noLink _ _ => .noLink
  | badTarget raw => .invalidTarget raw
  | backTo page => .cycle page

/-- The rounds of a walk through a chain of so many pages: a cycle is found in a round of its own. -/
def ChainEnd.rounds (length : Nat) : ChainEnd → Nat
  | backTo _ => length + 1
  | _ => length

/-- The last page of a chain ends it. A page that the chain goes back to is not the last one itself. -/
def Ends (plaintext : UInt32 → Bytes) (pageCount : Nat) (filler : LinkFiller) (front : List UInt32) (last : UInt32) :
    ChainEnd → Prop
  | .noBlock => ∀ offset, ¬OwnBlock (plaintext last) last.toNat offset
  | .noLink linkFlag target => linkFlag ≠ 1 ∧ plaintext last = linkedPage filler last linkFlag target
  | .badTarget raw => ¬IsSafeTarget last.toNat pageCount raw.toNat ∧ plaintext last = linkedPage filler last 1 raw
  | .backTo page => page ∈ front ∧ plaintext last = linkedPage filler last 1 page

/-- Different pages of a store, each written with a link to the next one. -/
structure WrittenChain (plaintext : UInt32 → Bytes) (pageCount : Nat) (filler : UInt32 → LinkFiller)
    (front : List UInt32) (last : UInt32) (ending : ChainEnd) : Prop where
  nodup : (front ++ [last]).Nodup
  inside : ∀ page ∈ front ++ [last], page ≠ 0 ∧ page.toNat < pageCount
  linked : (front ++ [last]).IsChain fun page next => plaintext page = linkedPage (filler page) page 1 next
  ends : Ends plaintext pageCount (filler last) front last ending

section Walks

variable {answers : UInt32 → Option PageLinkMetadata} {maxPages : Nat}

theorem walkLoop_linked {seen : List UInt32} {page next : UInt32} (hroom : seen.length < maxPages)
    (hfresh : page ∉ seen) (hlink : LinksTo answers page next) : walkLoop maxPages (statelessly answers) seen page () =
      walkLoop maxPages (statelessly answers) (seen ++ [page]) next () := by
  obtain ⟨metadata, hanswer, htarget⟩ := hlink
  rw [walkLoop.eq_def _ _ seen, if_pos hroom, if_neg hfresh]
  simp only [statelessly, hanswer, htarget]

theorem walkLoop_chain (seen front : List UInt32) (last : UInt32) (hnodup : (seen ++ (front ++ [last])).Nodup)
    (hlinked : (front ++ [last]).IsChain (LinksTo answers)) (hroom : seen.length ≤ maxPages) :
    walkLoop maxPages (statelessly answers) seen (front.headD last) () =
      if maxPages < seen.length + (front.length + 1) then
        (⟨(seen ++ (front ++ [last])).take maxPages, .limitReached⟩, ())
      else walkLoop maxPages (statelessly answers) (seen ++ front) last () := by
  by_cases hfull : seen.length = maxPages
  · rw [if_pos (by omega), walkLoop, if_neg (by omega), ← hfull, List.take_left]
  induction front generalizing seen with
  | nil => rw [if_neg (by rw [List.length_nil]; omega), List.append_nil, List.headD_nil]
  | cons page front ih =>
      have hfresh : page ∉ seen := by
        intro hseen
        exact List.disjoint_of_nodup_append hnodup hseen List.mem_cons_self
      have hlink : LinksTo answers page (front.headD last) := by
        cases front with
        | nil => exact (List.isChain_cons_cons.mp hlinked).1
        | cons next front => exact (List.isChain_cons_cons.mp hlinked).1
      have hseen : seen ++ [page] ++ (front ++ [last]) = seen ++ (page :: front ++ [last]) := by
        rw [List.append_assoc]
        rfl
      have hlength : (seen ++ [page]).length = seen.length + 1 := List.length_append
      rw [List.headD_cons, walkLoop_linked (by omega) hfresh hlink]
      by_cases hend : (seen ++ [page]).length = maxPages
      · rw [if_pos (by rw [List.length_cons]; omega), walkLoop, if_neg (by omega), ← hseen, ← hend, List.take_left]
      · rw [ih (seen ++ [page]) (hseen ▸ hnodup) hlinked.tail (by omega) hend, hseen, hlength, List.length_cons,
          List.append_assoc, List.singleton_append]
        have hcount : seen.length + 1 + (front.length + 1) = seen.length + (front.length + 1 + 1) := by omega
        rw [hcount]

def Answered (answers : UInt32 → Option PageLinkMetadata) (front : List UInt32) (last : UInt32) : ChainEnd → Prop
  | .noBlock => answers last = none
  | .noLink _ _ => ∃ metadata, answers last = some metadata ∧ metadata.target = .absent
  | .badTarget raw => ∃ metadata, answers last = some metadata ∧ metadata.target = .invalid raw
  | .backTo page => page ∈ front ∧ LinksTo answers last page

/-- The result of a walk through a chain: as many of its pages as the bound lets it visit, or all. -/
def chainWalk (front : List UInt32) (last : UInt32) (ending : ChainEnd) (maxPages : Nat) : PageLinkWalk :=
  if maxPages < ending.rounds (front.length + 1) then ⟨(front ++ [last]).take maxPages, .limitReached⟩
  else ⟨front ++ [last], ending.stop⟩

theorem chainWalk_ended {front : List UInt32} {last : UInt32} {ending : ChainEnd}
    (h : ending.rounds (front.length + 1) ≤ maxPages) :
    chainWalk front last ending maxPages = ⟨front ++ [last], ending.stop⟩ := if_neg (Nat.not_lt.mpr h)

theorem walkLoop_last {front : List UInt32} {last : UInt32} {ending : ChainEnd} (hfresh : last ∉ front)
    (hroom : front.length < maxPages) (h : Answered answers front last ending) :
    walkLoop maxPages (statelessly answers) front last () = (chainWalk front last ending maxPages, ()) := by
  cases ending with
  | noBlock =>
      rw [chainWalk_ended hroom, walkLoop, if_pos hroom, if_neg hfresh]
      simp only [statelessly, show answers last = none from h]
      rfl
  | noLink linkFlag target =>
      obtain ⟨metadata, hanswer, htarget⟩ := h
      rw [chainWalk_ended hroom, walkLoop, if_pos hroom, if_neg hfresh]
      simp only [statelessly, hanswer, htarget]
      rfl
  | badTarget raw =>
      obtain ⟨metadata, hanswer, htarget⟩ := h
      rw [chainWalk_ended hroom, walkLoop, if_pos hroom, if_neg hfresh]
      simp only [statelessly, hanswer, htarget]
      rfl
  | backTo page =>
      obtain ⟨hseen, hlink⟩ := h
      have hlength : (front ++ [last]).length = front.length + 1 := List.length_append
      rw [walkLoop_linked hroom hfresh hlink, walkLoop, chainWalk, ChainEnd.rounds]
      by_cases hend : front.length + 1 = maxPages
      · rw [if_neg (by omega), if_pos (by omega), List.take_of_length_le (by omega)]
      · rw [if_pos (by omega), if_pos (List.mem_append_left _ hseen), if_neg (by omega), ChainEnd.stop]

theorem walkOf_chain {front : List UInt32} {last : UInt32} {ending : ChainEnd} (hnodup : (front ++ [last]).Nodup)
    (hlinked : (front ++ [last]).IsChain (LinksTo answers)) (h : Answered answers front last ending) (maxPages : Nat) :
    walkOf answers (front.headD last) maxPages = chainWalk front last ending maxPages := by
  have hfresh : last ∉ front := by
    intro hmem
    exact List.disjoint_of_nodup_append hnodup hmem (List.mem_singleton_self last)
  rw [walkOf, walkPageLinks, walkLoop_chain [] front last hnodup hlinked (Nat.zero_le _), List.nil_append,
    List.nil_append, List.length_nil, Nat.zero_add]
  by_cases hbound : maxPages < front.length + 1
  · have hrounds : maxPages < ending.rounds (front.length + 1) := by
      cases ending with
      | backTo page => exact hbound.trans (Nat.lt_succ_self _)
      | noBlock => exact hbound
      | noLink linkFlag target => exact hbound
      | badTarget raw => exact hbound
    rw [if_pos hbound, chainWalk, if_pos hrounds]
  · rw [if_neg hbound, walkLoop_last hfresh (by omega) h]

end Walks

section Chains

variable {plaintext : UInt32 → Bytes} {pageCount : Nat} {filler : UInt32 → LinkFiller} {front : List UInt32}
  {last : UInt32} {ending : ChainEnd}

theorem storeLookup_linkedPage {page target : UInt32} {linkFlag : UInt8} (hpage : page ≠ 0)
    (hin : page.toNat < pageCount) (h : plaintext page = linkedPage (filler page) page linkFlag target) :
    storeLookup plaintext pageCount page =
      some ⟨(filler page).before, linkFlag, targetOf linkFlag target page pageCount⟩ := by
  rw [storeLookup, if_pos hin, h, findPageLinkMetadata_linkedPage hpage hin]

theorem WrittenChain.linksTo (h : WrittenChain plaintext pageCount filler front last ending) :
    (front ++ [last]).IsChain (LinksTo (storeLookup plaintext pageCount)) := by
  have hlinked := h.linked
  rw [List.isChain_iff_getElem] at hlinked ⊢
  intro i hi
  obtain ⟨hpage, hin⟩ := h.inside _ (List.getElem_mem (Nat.lt_of_succ_lt hi))
  obtain ⟨hnext, hnextIn⟩ := h.inside _ (List.getElem_mem hi)
  have hother : (front ++ [last])[i + 1] ≠ (front ++ [last])[i] := by
    intro hsame
    have := h.nodup.getElem_inj_iff.mp hsame
    omega
  refine ⟨_, storeLookup_linkedPage hpage hin (hlinked i hi), ?_⟩
  rw [targetOf_eq_inRange_iff]
  refine ⟨rfl, rfl, ?_, hnextIn, fun hsame => hother (UInt32.toNat_inj.mp hsame)⟩
  exact Nat.pos_of_ne_zero fun hzero => hnext (UInt32.toNat_inj.mp hzero)

theorem WrittenChain.answered (h : WrittenChain plaintext pageCount filler front last ending) :
    Answered (storeLookup plaintext pageCount) front last ending := by
  obtain ⟨hlast, hin⟩ := h.inside last (List.mem_append_right _ (List.mem_singleton_self last))
  have hends := h.ends
  cases ending with
  | noBlock =>
      change storeLookup plaintext pageCount last = none
      rw [storeLookup, if_pos hin, findPageLinkMetadata_eq, if_pos ⟨hin, last.toNat_lt⟩]
      cases hfind : (blockOffsets (plaintext last)).find? (BlockAt (plaintext last) (.ofNat last.toNat)) with
      | none => rfl
      | some offset => exact absurd ((find_blockAt_iff last.toNat_lt).mp hfind).1 (hends offset)
  | noLink linkFlag target =>
      obtain ⟨hflag, hpage⟩ := hends
      exact ⟨_, storeLookup_linkedPage hlast hin hpage, targetOf_eq_absent_iff.mpr hflag⟩
  | badTarget raw =>
      obtain ⟨hlinked, hpage⟩ := hends
      exact ⟨_, storeLookup_linkedPage hlast hin hpage, targetOf_eq_invalid_iff.mpr ⟨rfl, rfl, hlinked⟩⟩
  | backTo page =>
      obtain ⟨hmem, hpage⟩ := hends
      obtain ⟨hne, htarget⟩ := h.inside page (List.mem_append_left _ hmem)
      refine ⟨hmem, _, storeLookup_linkedPage hlast hin hpage, ?_⟩
      rw [targetOf_eq_inRange_iff]
      refine ⟨rfl, rfl, ?_, htarget, ?_⟩
      · exact Nat.pos_of_ne_zero fun hzero => hne (UInt32.toNat_inj.mp hzero)
      · intro hsame
        have hlastSame : page = last := UInt32.toNat_inj.mp hsame
        exact List.disjoint_of_nodup_append h.nodup (hlastSame ▸ hmem) (List.mem_singleton_self last)

theorem plainLinks_plainStore {database : Database} (h : ∀ page : UInt32, page.toNat < database.count →
    (database.page page.toNat).bytes = plaintext page) :
    plainLinks database.plainStore = storeLookup plaintext database.count := by
  funext page
  rw [plainLinks, storeLookup, pageCount_plainStore]
  by_cases hin : page.toNat < database.count
  · have hbytes := (@pageBytes_plainStore database page.toNat hin).trans (h page hin)
    rw [PageStore.page_of_lt ((@pageCount_plainStore database).symm ▸ hin), if_pos hin]
    simp only [hbytes]
    cases findPageLinkMetadata (plaintext page) page.toNat database.count with
    | ok found => rfl
    | error fault => rfl
  · rw [PageStore.page, dif_pos (pageCount_plainStore ▸ Nat.le_of_not_lt hin), if_neg hin]

end Chains

/-- A chain of pages that was written is walked from its first page to its last, or as far as the bound goes, and
the walk says how the chain ends; a stored database walks it in the same way. -/
theorem written_chain_walked {plaintext : UInt32 → Bytes} {pageCount : Nat} {filler : UInt32 → LinkFiller}
    {front : List UInt32} {last : UInt32} {ending : ChainEnd}
    (h : WrittenChain plaintext pageCount filler front last ending) (maxPages : Nat) :
    storeWalk plaintext pageCount (front.headD last) maxPages = chainWalk front last ending maxPages ∧
      ∀ (database : Database) (keys : PageKeys) (model : ApModel) (orders : Nat → HashOrder UInt8 Nat),
        database.count = pageCount →
          (∀ page : UInt32, page.toNat < pageCount → (database.page page.toNat).bytes = plaintext page) →
            walkOf (peeledLinks model orders (database.storedUnder keys)) (front.headD last) maxPages =
              chainWalk front last ending maxPages := by
  have hwalk := walkOf_chain h.nodup h.linksTo h.answered maxPages
  refine ⟨hwalk, ?_⟩
  rintro database keys model orders rfl hpages
  rw [peeledLinks_stored, plainLinks_plainStore hpages, hwalk]

/-- Two pages that link to each other. -/
theorem written_chain_walked_cycle :
    storeWalk (fun page => linkedPage ⟨1, [0, 0], List.replicate 12 7, [9], rfl, rfl⟩ page 1 (3 - page)) 3 1 9 =
      ⟨[1, 2], .cycle 1⟩ :=
  (@written_chain_walked _ _ (fun _ => ⟨1, [0, 0], List.replicate 12 7, [9], rfl, rfl⟩) [1] 2 (.backTo 1)
    ⟨by decide, by simp, List.isChain_pair.mpr rfl, by decide, rfl⟩ 9).1

end OpenSqlAny.LinkWriting
