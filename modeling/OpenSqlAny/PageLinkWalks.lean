import Mathlib.Data.List.Chain
import Mathlib.Data.List.Nodup
import Mathlib.Data.List.Perm.Subperm
import OpenSqlAny.Library.Rounds
import OpenSqlAny.PageLinks

namespace OpenSqlAny.PageLinkWalks

open Library.Faults Library.LittleEndian Library.Rounds PageLinks

variable {σ : Type}

structure WalkHead (σ : Type) where
  pages : List UInt32
  current : UInt32
  state : σ

def visitPage (lookup : σ → UInt32 → Option PageLinkMetadata × σ) (head : WalkHead σ) :
    Round (WalkHead σ) (PageLinkWalk × σ) :=
  if head.current ∈ head.pages then .returns (⟨head.pages, .cycle head.current⟩, head.state)
  else
    match lookup head.state head.current with
    | (none, s') => .returns (⟨head.pages ++ [head.current], .missingMetadata⟩, s')
    | (some metadata, s') =>
        match metadata.target with
        | .absent => .returns (⟨head.pages ++ [head.current], .noLink⟩, s')
        | .invalid raw => .returns (⟨head.pages ++ [head.current], .invalidTarget raw⟩, s')
        | .inRange next => .goesOn ⟨head.pages ++ [head.current], next, s'⟩

def resultOf : Round (WalkHead σ) (PageLinkWalk × σ) → PageLinkWalk × σ
  | .returns result => result
  | .goesOn head => (⟨head.pages, .limitReached⟩, head.state)

variable {lookup : σ → UInt32 → Option PageLinkMetadata × σ} {head head' : WalkHead σ}

theorem walkLoop_eq (maxPages left : Nat) (pages : List UInt32) (current : UInt32) (s : σ)
    (hleft : maxPages - pages.length = left) : walkLoop maxPages lookup pages current s =
      resultOf (runFor (visitPage lookup) left ⟨pages, current, s⟩) := by
  induction left generalizing pages current s with
  | zero => rw [walkLoop, if_neg (by omega), runFor, resultOf]
  | succ left ih =>
      rw [walkLoop, if_pos (by omega), runFor, visitPage]
      by_cases hseen : current ∈ pages
      case pos => rw [if_pos hseen, if_pos hseen, resultOf]
      rw [if_neg hseen, if_neg hseen]
      rcases lookup s current with ⟨_ | ⟨offset, linkFlag, _ | next | raw⟩, s'⟩
      · rfl
      · rfl
      · apply ih
        rw [List.length_append, List.length_singleton]
        omega
      · rfl

variable (lookup) in
theorem walkPageLinks_eq (start : UInt32) (maxPages : Nat) (s : σ) :
    walkPageLinks start maxPages lookup s = resultOf (runFor (visitPage lookup) maxPages ⟨[], start, s⟩) :=
  walkLoop_eq maxPages maxPages [] start s (Nat.sub_zero maxPages)

theorem visitPage_goesOn (h : visitPage lookup head = .goesOn head') :
    head.current ∉ head.pages ∧ ∃ metadata, (lookup head.state head.current).1 = some metadata ∧
      metadata.target = .inRange head'.current ∧ head'.pages = head.pages ++ [head.current] := by
  rw [visitPage] at h
  by_cases hseen : head.current ∈ head.pages
  · rw [if_pos hseen] at h
    cases h
  rw [if_neg hseen] at h
  refine ⟨hseen, ?_⟩
  rcases hlookup : lookup head.state head.current with ⟨_ | ⟨offset, linkFlag, _ | next | raw⟩, s'⟩
  all_goals
    rw [hlookup] at h
    cases h
  exact ⟨_, rfl, rfl, rfl⟩

theorem visitPage_returns {result : PageLinkWalk × σ} (h : visitPage lookup head = .returns result) :
    result.1.stop ≠ .limitReached ∧ (head.current ∈ head.pages ∧ result.1.pages = head.pages ∨
      head.current ∉ head.pages ∧ result.1.pages = head.pages ++ [head.current]) := by
  rw [visitPage] at h
  by_cases hseen : head.current ∈ head.pages
  · rw [if_pos hseen] at h
    cases h
    exact ⟨nofun, .inl ⟨hseen, rfl⟩⟩
  rw [if_neg hseen] at h
  rcases hlookup : lookup head.state head.current with ⟨_ | ⟨offset, linkFlag, _ | next | raw⟩, s'⟩
  all_goals
    rw [hlookup] at h
    cases h
  all_goals exact ⟨nofun, .inr ⟨hseen, rfl⟩⟩

/-- The block found on page p names page q as its safe target. -/
def LinksTo (answers : UInt32 → Option PageLinkMetadata) (p q : UInt32) : Prop :=
  ∃ metadata, answers p = some metadata ∧ metadata.target = .inRange q

def statelessly (answers : UInt32 → Option PageLinkMetadata) :
    Unit → UInt32 → Option PageLinkMetadata × Unit := fun s page => (answers page, s)

structure Visited (answers : UInt32 → Option PageLinkMetadata) (start : UInt32) (n : Nat)
    (head : WalkHead Unit) : Prop where
  count : head.pages.length = n
  nodup : head.pages.Nodup
  begins : (head.pages ++ [head.current]).head? = some start
  linked : (head.pages ++ [head.current]).IsChain (LinksTo answers)
  answered : ∀ page ∈ head.pages, answers page ≠ none

variable {answers : UInt32 → Option PageLinkMetadata} {start : UInt32} {n : Nat}

theorem Visited.initial (answers : UInt32 → Option PageLinkMetadata) (start : UInt32) :
    Visited answers start 0 ⟨[], start, ()⟩ :=
  ⟨rfl, List.nodup_nil, rfl, List.isChain_singleton start, nofun⟩

theorem Visited.next {head head' : WalkHead Unit} (h : Visited answers start n head)
    (hround : visitPage (statelessly answers) head = .goesOn head') : Visited answers start (n + 1) head' := by
  obtain ⟨hfresh, metadata, hanswer, htarget, hpages⟩ := visitPage_goesOn hround
  refine ⟨?_, ?_, ?_, ?_, ?_⟩
  · rw [hpages, List.length_append, List.length_singleton, h.count]
  · rw [hpages, ← List.concat_eq_append]
    exact h.nodup.concat hfresh
  · rw [hpages, List.head?_append, h.begins, Option.some_or]
  · rw [hpages, List.append_assoc, List.singleton_append, List.isChain_append_cons_cons]
    exact ⟨h.linked, ⟨metadata, hanswer, htarget⟩, List.isChain_singleton _⟩
  · intro page hpage
    rw [hpages, List.mem_append, List.mem_singleton] at hpage
    rcases hpage with hpage | rfl
    · exact h.answered page hpage
    · intro hnone
      cases hnone.symm.trans hanswer

theorem walk_visited {head : WalkHead Unit}
    (h : Reaches (visitPage (statelessly answers)) ⟨[], start, ()⟩ n head) : Visited answers start n head :=
  h.invariant (Visited answers start) (.initial answers start) fun _ _ _ hvisited hround => hvisited.next hround

/-- The pages of a walk are a path along links, without repetition. -/
structure SimplePath (answers : UInt32 → Option PageLinkMetadata) (start : UInt32) (maxPages : Nat)
    (pages : List UInt32) : Prop where
  nodup : pages.Nodup
  bounded : pages.length ≤ maxPages
  begins : 0 < maxPages → pages.head? = some start
  linked : pages.IsChain (LinksTo answers)

theorem Visited.simplePath {head : WalkHead Unit} (h : Visited answers start n head) :
    SimplePath answers start n head.pages where
  nodup := h.nodup
  bounded := h.count.le
  begins := by
    intro hpos
    have hne : head.pages ≠ [] := List.ne_nil_of_length_pos (h.count ▸ hpos)
    rw [← List.head?_append_of_ne_nil _ hne]
    exact h.begins
  linked := h.linked.left_of_append

theorem Visited.simplePath_returns {head : WalkHead Unit} {result : PageLinkWalk × Unit}
    (h : Visited answers start n head) (hround : visitPage (statelessly answers) head = .returns result) :
    SimplePath answers start (n + 1) result.1.pages := by
  rcases (visitPage_returns hround).2 with ⟨hseen, hpages⟩ | ⟨hfresh, hpages⟩
  · have hpath := h.simplePath
    have hpos : 0 < n := h.count ▸ List.length_pos_of_mem hseen
    rw [hpages]
    exact ⟨hpath.nodup, hpath.bounded.trans (Nat.le_succ n), fun _ => hpath.begins hpos, hpath.linked⟩
  · rw [hpages]
    refine ⟨?_, ?_, fun _ => h.begins, h.linked⟩
    · rw [← List.concat_eq_append]
      exact h.nodup.concat hfresh
    · rw [List.length_append, List.length_singleton, h.count]

theorem SimplePath.mono {m : Nat} {pages : List UInt32} (h : SimplePath answers start (n + 1) pages)
    (hle : n + 1 ≤ m) : SimplePath answers start m pages :=
  ⟨h.nodup, h.bounded.trans hle, fun _ => h.begins (Nat.succ_pos n), h.linked⟩

variable (answers start) in
def walkOf (maxPages : Nat) : PageLinkWalk := (walkPageLinks start maxPages (statelessly answers) ()).1

theorem walkOf_cases (answers : UInt32 → Option PageLinkMetadata) (start : UInt32) (maxPages : Nat) :
    (∃ head, runFor (visitPage (statelessly answers)) maxPages ⟨[], start, ()⟩ = .goesOn head ∧
      Visited answers start maxPages head ∧ walkOf answers start maxPages = ⟨head.pages, .limitReached⟩) ∨
    ∃ result, runFor (visitPage (statelessly answers)) maxPages ⟨[], start, ()⟩ = .returns result ∧
      SimplePath answers start maxPages result.1.pages ∧ result.1.stop ≠ .limitReached ∧
      walkOf answers start maxPages = result.1 := by
  have hwalk := walkPageLinks_eq (statelessly answers) start maxPages ()
  cases hrun : runFor (visitPage (statelessly answers)) maxPages ⟨[], start, ()⟩ with
  | goesOn head =>
      rw [hrun] at hwalk
      exact .inl ⟨head, rfl, walk_visited (.of_runFor hrun), congrArg Prod.fst hwalk⟩
  | returns result =>
      rw [hrun] at hwalk
      obtain ⟨n, hn, head, reached, returns⟩ := ReturnsAfter.of_runFor hrun
      have hpath := (walk_visited reached).simplePath_returns returns
      exact .inr ⟨result, rfl, hpath.mono hn, (visitPage_returns returns).1, congrArg Prod.fst hwalk⟩

theorem walkOf_simplePath (answers : UInt32 → Option PageLinkMetadata) (start : UInt32) (maxPages : Nat) :
    SimplePath answers start maxPages (walkOf answers start maxPages).pages := by
  rcases walkOf_cases answers start maxPages with ⟨head, -, hvisited, hwalk⟩ | ⟨result, -, hpath, -, hwalk⟩
  · rw [hwalk]
    exact hvisited.simplePath
  · rw [hwalk]
    exact hpath

theorem walkOf_limitReached {maxPages pageCount : Nat}
    (hanswers : ∀ page, answers page ≠ none → page.toNat < pageCount)
    (h : (walkOf answers start maxPages).stop = .limitReached) : maxPages ≤ pageCount := by
  rcases walkOf_cases answers start maxPages with ⟨head, -, hvisited, -⟩ | ⟨result, -, -, hstop, hwalk⟩
  · have hnodup : (head.pages.map UInt32.toNat).Nodup :=
      hvisited.nodup.map fun _ _ => UInt32.toNat_inj.mp
    have hsubset : head.pages.map UInt32.toNat ⊆ List.range pageCount := by
      intro number hnumber
      obtain ⟨page, hpage, rfl⟩ := List.mem_map.mp hnumber
      exact List.mem_range.mpr (hanswers page (hvisited.answered page hpage))
    have hle := (List.subperm_of_subset hnodup hsubset).length_le
    rw [List.length_map, List.length_range, hvisited.count] at hle
    exact hle
  · exact absurd (hwalk ▸ h) hstop

theorem pages_prefix_of_goesOn (h : visitPage lookup head = .goesOn head') : head.pages <+: head'.pages := by
  obtain ⟨-, -, -, -, hpages⟩ := visitPage_goesOn h
  exact hpages ▸ List.prefix_append _ _

variable (lookup head) in
theorem pages_prefix_resultOf (left : Nat) :
    head.pages <+: (resultOf (runFor (visitPage lookup) left head)).1.pages := by
  induction left generalizing head with
  | zero => exact List.prefix_rfl
  | succ left ih =>
      rw [runFor]
      cases hround : visitPage lookup head with
      | goesOn head' => exact (pages_prefix_of_goesOn hround).trans (ih head')
      | returns result =>
          rcases (visitPage_returns hround).2 with ⟨-, hpages⟩ | ⟨-, hpages⟩
          · exact hpages ▸ List.prefix_rfl
          · exact hpages ▸ List.prefix_append _ _

/-- A walk with a greater bound goes the same way, and further only from where the bound has stopped it. -/
theorem walkOf_mono {maxPages maxPages' : Nat} (h : maxPages ≤ maxPages') :
    (walkOf answers start maxPages).pages = (walkOf answers start maxPages').pages.take maxPages ∧
    ((walkOf answers start maxPages).stop ≠ .limitReached →
      walkOf answers start maxPages = walkOf answers start maxPages') := by
  have hwalk := walkPageLinks_eq (statelessly answers) start maxPages' ()
  rcases walkOf_cases answers start maxPages with ⟨head, hrun, hvisited, hhead⟩ | ⟨result, hrun, hpath, hstop, hhead⟩
  · rw [hhead]
    refine ⟨?_, fun hstop => absurd rfl hstop⟩
    have hprefix := pages_prefix_resultOf (statelessly answers) head (maxPages' - maxPages)
    rw [← runFor_add hrun, Nat.add_sub_cancel' h, ← hwalk] at hprefix
    have htake := List.prefix_iff_eq_take.mp hprefix
    rw [hvisited.count] at htake
    exact htake
  · rw [runFor_returns_mono hrun h] at hwalk
    have hsame : walkOf answers start maxPages' = result.1 := congrArg Prod.fst hwalk
    rw [hhead, hsame]
    exact ⟨(List.take_of_length_le hpath.bounded).symm, fun _ => rfl⟩

/-- The lookup of a store of so many pages with these plaintexts. -/
def storeLookup (plaintext : UInt32 → Bytes) (pageCount : Nat) (page : UInt32) : Option PageLinkMetadata :=
  if page.toNat < pageCount then
    match findPageLinkMetadata (plaintext page) page.toNat pageCount with
    | .ok found => found
    | .error _ => none
  else none

variable {plaintext : UInt32 → Bytes} {pageCount : Nat}

variable (plaintext) in
theorem findPageLinkMetadata_storeLookup {page : UInt32} (h : page.toNat < pageCount) :
    findPageLinkMetadata (plaintext page) page.toNat pageCount = .ok (storeLookup plaintext pageCount page) := by
  rw [storeLookup, if_pos h, findPageLinkMetadata_eq]

theorem storeLookup_inside {page : UInt32} (h : storeLookup plaintext pageCount page ≠ none) :
    page.toNat < pageCount := by
  by_contra houtside
  exact h (if_neg houtside)

theorem storeLookup_target {p q : UInt32} (h : LinksTo (storeLookup plaintext pageCount) p q) :
    q ≠ 0 ∧ q.toNat < pageCount := by
  obtain ⟨metadata, hlookup, htarget⟩ := h
  have hinside : p.toNat < pageCount := storeLookup_inside (hlookup ▸ Option.some_ne_none metadata)
  have hfound := findPageLinkMetadata_storeLookup plaintext hinside
  rw [hlookup, findPageLinkMetadata_eq] at hfound
  rw [if_pos ⟨hinside, p.toNat_lt⟩] at hfound
  obtain ⟨offset, -, rfl⟩ := Option.map_eq_some_iff.mp (Except.ok.inj hfound)
  obtain ⟨hne, hlt, -⟩ := targetOf_inRange htarget
  exact ⟨hne, hlt⟩

def storeWalk (plaintext : UInt32 → Bytes) (pageCount : Nat) (start : UInt32) (maxPages : Nat) : PageLinkWalk :=
  walkOf (storeLookup plaintext pageCount) start maxPages

/-- Page links lead through a store along a bounded path without repetition. -/
theorem walkPageLinks_simplePath (plaintext : UInt32 → Bytes) (pageCount : Nat) (start : UInt32) :
    (∀ page : UInt32, page.toNat < pageCount →
      findPageLinkMetadata (plaintext page) page.toNat pageCount = .ok (storeLookup plaintext pageCount page)) ∧
    (∀ page : UInt32, pageCount ≤ page.toNat → storeLookup plaintext pageCount page = none) ∧
    ∀ maxPages,
      (storeWalk plaintext pageCount start maxPages).pages.Nodup ∧
      (storeWalk plaintext pageCount start maxPages).pages.length ≤ maxPages ∧
      (0 < maxPages → (storeWalk plaintext pageCount start maxPages).pages.head? = some start) ∧
      (storeWalk plaintext pageCount start maxPages).pages.IsChain
        (fun p q => LinksTo (storeLookup plaintext pageCount) p q ∧ q ≠ 0 ∧ q.toNat < pageCount) ∧
      (pageCount < maxPages → (storeWalk plaintext pageCount start maxPages).stop ≠ .limitReached) ∧
      ∀ maxPages', maxPages ≤ maxPages' →
        (storeWalk plaintext pageCount start maxPages).pages =
          (storeWalk plaintext pageCount start maxPages').pages.take maxPages ∧
        ((storeWalk plaintext pageCount start maxPages).stop ≠ .limitReached →
          storeWalk plaintext pageCount start maxPages = storeWalk plaintext pageCount start maxPages') := by
  refine ⟨fun page h => findPageLinkMetadata_storeLookup plaintext h, fun page h => if_neg (Nat.not_lt.mpr h), ?_⟩
  intro maxPages
  have hpath := walkOf_simplePath (storeLookup plaintext pageCount) start maxPages
  refine ⟨hpath.nodup, hpath.bounded, hpath.begins, ?_, ?_, fun _ => walkOf_mono⟩
  · exact hpath.linked.imp fun _ _ hlinks => ⟨hlinks, storeLookup_target hlinks⟩
  · intro hmany hlimit
    exact Nat.not_lt.mpr (walkOf_limitReached (fun _ => storeLookup_inside) hlimit) hmany

end OpenSqlAny.PageLinkWalks
