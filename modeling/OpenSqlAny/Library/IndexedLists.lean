import Mathlib.Data.List.Basic

namespace OpenSqlAny.Library.IndexedLists

theorem take_zipIdx {α : Type} (xs : List α) (i k : Nat) : (xs.zipIdx i).take k = (xs.take k).zipIdx i := by
  induction xs generalizing i k with
  | nil => simp
  | cons x xs ih =>
      cases k with
      | zero => rfl
      | succ k => simp [ih]

theorem filterMap_take {α β : Type} {f : α × Nat → Option (Nat × β)}
    (hindex : ∀ entry item, f entry = some item → item.1 = entry.2) (xs : List α) (i k : Nat) :
    ((xs.zipIdx i).filterMap f).filter (fun item => item.1 < i + k) = ((xs.take k).zipIdx i).filterMap f := by
  induction xs generalizing i k with
  | nil => simp
  | cons x xs ih =>
      cases k with
      | zero =>
          rw [List.take_zero, List.zipIdx_nil, List.filterMap_nil, List.filter_eq_nil_iff]
          intro item hitem
          obtain ⟨entry, hentry, heq⟩ := List.mem_filterMap.mp hitem
          have hle := List.le_snd_of_mem_zipIdx hentry
          have hat := hindex entry item heq
          simp only [decide_eq_true_eq]
          omega
      | succ k =>
          have hrest := ih (i + 1) k
          rw [show i + 1 + k = i + (k + 1) by omega] at hrest
          rw [List.zipIdx_cons, List.take_succ_cons, List.zipIdx_cons, List.filterMap_cons, List.filterMap_cons]
          cases hx : f (x, i) with
          | none => exact hrest
          | some item =>
              have hat : item.1 = i := hindex _ _ hx
              change List.filter _ (item :: _) = item :: _
              rw [List.filter_cons_of_pos (by simpa using by omega), hrest]

end OpenSqlAny.Library.IndexedLists
