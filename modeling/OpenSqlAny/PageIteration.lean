import Mathlib.Logic.Function.Iterate
import OpenSqlAny.Library.Faults
import OpenSqlAny.PageStores

namespace OpenSqlAny.PageIteration

open Library.Faults Library.LittleEndian PageStores

/-- A call of `next`; it leaves a finished iterator as it is. -/
def afterNext (pages : Pages) : Pages :=
  match pages.step with
  | none => pages
  | some (_, rest) => rest

def sizeHint (pages : Pages) : Outcome Empty (Nat × Option Nat) := do
  let remaining ← subtract pages.store.pageCount pages.next
  return (remaining, some remaining)

variable {store : PageStore}

theorem afterNext_of_lt {i : Nat} (h : i < store.pageCount) : afterNext ⟨store, i⟩ = ⟨store, i + 1⟩ := by
  rw [afterNext, Pages.step, if_neg (Nat.not_le.mpr h)]
  simp only [PageStore.page_of_lt h]

theorem afterNext_of_le {i : Nat} (h : store.pageCount ≤ i) : afterNext ⟨store, i⟩ = ⟨store, i⟩ := by
  rw [afterNext, Pages.step, if_pos h]

theorem iterate_afterNext (store : PageStore) (k : Nat) :
    afterNext^[k] ⟨store, 0⟩ = ⟨store, min k store.pageCount⟩ := by
  induction k with
  | zero => rw [Nat.zero_min]; rfl
  | succ k ih =>
      rw [Function.iterate_succ_apply', ih]
      by_cases h : k < store.pageCount
      · rw [Nat.min_eq_left h.le, afterNext_of_lt h, Nat.min_eq_left h]
      · have hle : store.pageCount ≤ k := Nat.le_of_not_lt h
        rw [Nat.min_eq_right hle, afterNext_of_le le_rfl, Nat.min_eq_right (hle.trans k.le_succ)]

theorem length_pages (store : PageStore) : store.pages.length = store.pageCount := by
  have h := congrArg List.length (store.map_pages Page.index (fun i _ => i) fun _ => rfl)
  rwa [List.length_map, List.length_map, List.length_range] at h

theorem index_pages (store : PageStore) : store.pages.map Page.index = List.range store.pageCount := by
  rw [store.map_pages Page.index (fun i _ => i) fun _ => rfl, List.map_id']

theorem mem_pages_iff {page : Page} :
    page ∈ store.pages ↔ page.index < store.pageCount ∧ page.bytes = store.pageBytes page.index := by
  have hpairs := store.map_pages (fun page => (page.index, page.bytes)) (fun i bytes => (i, bytes)) fun _ => rfl
  have hmem : page ∈ store.pages ↔ (page.index, page.bytes) ∈ store.pages.map fun page => (page.index, page.bytes) := by
    constructor
    · intro h
      exact List.mem_map_of_mem h
    · intro h
      obtain ⟨page', h, heq⟩ := List.mem_map.mp h
      cases page with
      | mk index bytes length_eq =>
          cases page' with
          | mk index' bytes' length_eq' =>
              cases heq
              exact h
  rw [hmem, hpairs, List.mem_map]
  constructor
  · intro ⟨i, hi, heq⟩
    obtain ⟨hindex, hbytes⟩ := Prod.mk.inj heq
    subst hindex
    exact ⟨List.mem_range.mp hi, hbytes.symm⟩
  · intro ⟨hindex, hbytes⟩
    exact ⟨page.index, List.mem_range.mpr hindex, by rw [hbytes]⟩

theorem collect_eq_drop (store : PageStore) (i : Nat) : Pages.collect ⟨store, i⟩ = store.pages.drop i := by
  induction i with
  | zero => rfl
  | succ i ih =>
      rw [← List.tail_drop, ← ih]
      by_cases h : i < store.pageCount
      · rw [Pages.collect_of_lt h, List.tail_cons]
      · have hle : store.pageCount ≤ i := Nat.le_of_not_lt h
        rw [Pages.collect_of_le hle, Pages.collect_of_le (hle.trans i.le_succ), List.tail_nil]

/-- What the iterator still gives after some calls of `next`: the pages that those calls did not give. -/
theorem collect_iterate (store : PageStore) (k : Nat) :
    Pages.collect (afterNext^[k] ⟨store, 0⟩) = store.pages.drop k := by
  rw [iterate_afterNext, collect_eq_drop]
  by_cases h : k ≤ store.pageCount
  · rw [Nat.min_eq_left h]
  · have hle : store.pageCount ≤ k := Nat.le_of_not_le h
    rw [Nat.min_eq_right hle, List.drop_of_length_le (length_pages store).le,
      List.drop_of_length_le ((length_pages store).le.trans hle)]

theorem sizeHint_iterate (store : PageStore) (k : Nat) :
    sizeHint (afterNext^[k] ⟨store, 0⟩) =
      .ok ((store.pages.drop k).length, some (store.pages.drop k).length) := by
  have hmin : store.pageCount - min k store.pageCount = store.pageCount - k := by omega
  rw [iterate_afterNext, sizeHint, subtract_of_le (Nat.min_le_right _ _), ok_bind, hmin, List.length_drop,
    length_pages]
  rfl

theorem flatten_pageBytes (store : PageStore) (n : Nat) :
    ((List.range n).map store.pageBytes).flatten = store.bytes.take (n * pageSize) := by
  induction n with
  | zero => rw [Nat.zero_mul]; rfl
  | succ n ih =>
      have hprefix : store.bytes.take (n * pageSize) =
          (store.bytes.take (n * pageSize + pageSize)).take (n * pageSize) := by
        rw [List.take_take, Nat.min_eq_left (Nat.le_add_right _ _)]
      rw [List.range_succ, List.map_append, List.flatten_append, ih, List.map_singleton, List.flatten_singleton,
        hprefix, PageStore.pageBytes, List.take_append_drop, Nat.succ_mul]

theorem pageCount_mul (store : PageStore) : store.pageCount * pageSize = store.bytes.length :=
  Nat.div_mul_cancel store.aligned

theorem pageCount_pos (store : PageStore) : 0 < store.pageCount :=
  Nat.div_pos store.pageSize_le (by decide)

theorem flatMap_pages (store : PageStore) : store.pages.flatMap Page.bytes = store.bytes := by
  rw [List.flatMap_def, store.map_pages Page.bytes (fun _ bytes => bytes) fun _ => rfl, flatten_pageBytes,
    pageCount_mul, List.take_length]

end OpenSqlAny.PageIteration
