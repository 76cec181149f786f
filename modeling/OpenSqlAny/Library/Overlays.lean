import Mathlib.Data.List.GetD

namespace OpenSqlAny.Library.Overlays

variable {α : Type} {xs ys : List α} {off lo hi i : Nat}

/-- A list with others in the place of its entries from an offset on. Its length stays. -/
def overlay (xs : List α) (off : Nat) (ys : List α) : List α :=
  xs.mapIdx fun i x => if off ≤ i then ys.getD (i - off) x else x

@[simp] theorem length_overlay : (overlay xs off ys).length = xs.length := List.length_mapIdx

theorem getElem?_overlay : (overlay xs off ys)[i]? =
    xs[i]?.map fun x => if off ≤ i then ys.getD (i - off) x else x := List.getElem?_mapIdx

theorem getElem?_overlay_of_not (h : i < off ∨ off + ys.length ≤ i) : (overlay xs off ys)[i]? = xs[i]? := by
  rw [getElem?_overlay]
  have hsame : (fun x => if off ≤ i then ys.getD (i - off) x else x) = id := by
    funext x
    by_cases hi : off ≤ i
    · rw [if_pos hi, List.getD_eq_default _ _ (by omega)]
      rfl
    · rw [if_neg hi]
      rfl
  rw [hsame, Option.map_id]
  rfl

theorem getElem?_overlay_of_mem (h : i < ys.length) (hin : off + i < xs.length) :
    (overlay xs off ys)[off + i]? = ys[i]? := by
  rw [getElem?_overlay, List.getElem?_eq_getElem hin, Option.map_some, if_pos (Nat.le_add_right off i),
    Nat.add_sub_cancel_left, List.getD_eq_getElem?_getD, List.getElem?_eq_getElem h, Option.getD_some]

theorem getElem?_window : ((xs.take hi).drop lo)[i]? = if lo + i < hi then xs[lo + i]? else none := by
  rw [List.getElem?_drop, List.getElem?_take]

theorem window_overlay_of_not (h : hi ≤ off ∨ off + ys.length ≤ lo) :
    ((overlay xs off ys).take hi).drop lo = (xs.take hi).drop lo := by
  apply List.ext_getElem?
  intro i
  rw [getElem?_window, getElem?_window]
  by_cases hin : lo + i < hi
  · rw [if_pos hin, if_pos hin]
    exact getElem?_overlay_of_not (by omega)
  · rw [if_neg hin, if_neg hin]

theorem window_overlay (hhi : off + ys.length ≤ hi) (hxs : hi ≤ xs.length) :
    ((overlay xs off ys).take hi).drop off = ys ++ ((xs.take hi).drop off).drop ys.length := by
  apply List.ext_getElem?
  intro i
  rw [getElem?_window, List.drop_drop, List.getElem?_append]
  by_cases hi' : i < ys.length
  · rw [if_pos (by omega), if_pos hi']
    exact getElem?_overlay_of_mem hi' (by omega)
  · rw [if_neg hi', getElem?_window, show off + ys.length + (i - ys.length) = off + i by omega]
    by_cases hin : off + i < hi
    · rw [if_pos hin, if_pos hin]
      exact getElem?_overlay_of_not (by omega)
    · rw [if_neg hin, if_neg hin]

theorem take_overlay (h : hi ≤ off) : (overlay xs off ys).take hi = xs.take hi := by
  have hwindow := @window_overlay_of_not α xs ys off 0 hi (.inl h)
  rwa [List.drop_zero, List.drop_zero] at hwindow

end OpenSqlAny.Library.Overlays
