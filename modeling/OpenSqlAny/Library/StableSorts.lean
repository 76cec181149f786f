import Mathlib.Data.List.Sort

namespace OpenSqlAny.Library.StableSorts

variable {α : Type} {le : α → α → Bool} {r : α → α → Prop} {xs ys : List α}

/-- Ordered by `le`, and by `r` where `le` ties. -/
def Refined (le : α → α → Bool) (r : α → α → Prop) (a b : α) : Prop :=
  le a b = true ∧ (le b a = true → r a b)

theorem refined_asymm (hr : ∀ a b, r a b → ¬ r b a) {a b : α} (hab : Refined le r a b) : ¬ Refined le r b a := by
  intro hba
  exact hr a b (hab.2 hba.1) (hba.2 hab.1)

theorem zipIdxLE_iff {a b : α × Nat} :
    List.zipIdxLE le a b = true ↔ le a.1 b.1 = true ∧ (le b.1 a.1 = true → a.2 ≤ b.2) := by
  rw [List.zipIdxLE]
  split
  · split <;> simp_all
  · simp_all

theorem pairwise_position_ne : (xs.zipIdx.mergeSort (List.zipIdxLE le)).Pairwise fun a b => a.2 ≠ b.2 := by
  have hnodup : (xs.zipIdx.map Prod.snd).Nodup := by
    rw [List.zipIdx_map_snd]
    exact List.nodup_range'
  rw [← ((List.mergeSort_perm xs.zipIdx (List.zipIdxLE le)).map Prod.snd).nodup_iff] at hnodup
  exact List.pairwise_map.mp hnodup

theorem pairwise_mergeSort_refined (trans : ∀ a b c, le a b = true → le b c = true → le a c = true)
    (total : ∀ a b, (le a b || le b a) = true) (h : xs.Pairwise r) : (xs.mergeSort le).Pairwise (Refined le r) := by
  rw [← List.mergeSort_zipIdx, List.pairwise_map]
  have hsorted := List.pairwise_mergeSort (List.zipIdxLE_trans trans) (List.zipIdxLE_total total) xs.zipIdx
  refine (hsorted.and pairwise_position_ne).imp_of_mem ?_
  intro a b ha hb hab
  obtain ⟨hle, htie⟩ := zipIdxLE_iff.mp hab.1
  refine ⟨hle, fun hge => ?_⟩
  -- the positions of a tie are those of the list, in its order
  have hlt : a.2 < b.2 := Nat.lt_of_le_of_ne (htie hge) hab.2
  have hxa := List.mk_mem_zipIdx_iff_getElem?.mp (List.mem_mergeSort.mp ha)
  have hxb := List.mk_mem_zipIdx_iff_getElem?.mp (List.mem_mergeSort.mp hb)
  obtain ⟨hia, hxa⟩ := List.getElem?_eq_some_iff.mp hxa
  obtain ⟨hib, hxb⟩ := List.getElem?_eq_some_iff.mp hxb
  have hr := List.pairwise_iff_getElem.mp h a.2 b.2 hia hib hlt
  rwa [hxa, hxb] at hr

/-- The stable sort is the only arrangement of a list that both orders sort. -/
theorem eq_mergeSort_iff (trans : ∀ a b c, le a b = true → le b c = true → le a c = true)
    (total : ∀ a b, (le a b || le b a) = true) (hr : ∀ a b, r a b → ¬ r b a) (h : xs.Pairwise r) :
    ys = xs.mergeSort le ↔ ys.Perm xs ∧ ys.Pairwise (Refined le r) := by
  constructor
  · rintro rfl
    exact ⟨List.mergeSort_perm xs le, pairwise_mergeSort_refined trans total h⟩
  · rintro ⟨hperm, hsorted⟩
    refine List.Perm.eq_of_pairwise ?_ hsorted (pairwise_mergeSort_refined trans total h)
      (hperm.trans (List.mergeSort_perm xs le).symm)
    intro a b _ _ hab hba
    exact absurd hba (refined_asymm hr hab)

end OpenSqlAny.Library.StableSorts
