import Mathlib.Data.List.GetD
import Mathlib.Data.List.Induction
import Mathlib.Logic.Function.Basic
import Mathlib.Order.Bounds.Basic

namespace OpenSqlAny.Library.Histograms

section Tallies

variable {κ : Type} [DecidableEq κ]

/-- An array of counters, one for each key, after a loop that counts every key of the list. -/
def tally (keys : List κ) : κ → Nat :=
  keys.foldl (fun hist k => Function.update hist k (hist k + 1)) (fun _ => 0)

theorem foldl_tally (keys : List κ) (hist : κ → Nat) :
    keys.foldl (fun hist k => Function.update hist k (hist k + 1)) hist =
      fun k => hist k + keys.count k := by
  induction keys generalizing hist with
  | nil => simp
  | cons k keys ih =>
      rw [List.foldl_cons, ih]
      funext j
      by_cases hj : j = k
      · subst j
        rw [Function.update_self, List.count_cons_self]
        omega
      · rw [Function.update_of_ne hj, List.count_cons_of_ne (Ne.symm hj)]

theorem tally_apply (keys : List κ) (k : κ) : tally keys k = keys.count k := by
  rw [tally, foldl_tally]
  exact Nat.zero_add _

end Tallies

section LastMaximum

variable {α : Type} (key : α → Nat)

def laterMax (best a : α) : α := if key a < key best then best else a

def maxByKey : List α → Option α
  | [] => none
  | a :: as => some (as.foldl (laterMax key) a)

theorem maxByKey_append_singleton (as : List α) (a : α) :
    maxByKey key (as ++ [a]) = some (((maxByKey key as).map (laterMax key · a)).getD a) := by
  cases as with
  | nil => rfl
  | cons b as =>
      rw [List.cons_append, maxByKey, List.foldl_append, maxByKey]
      rfl

variable {key}

theorem maxByKey_spec {as : List α} {a : α} (h : maxByKey key as = some a) :
    a ∈ as ∧ ∀ b ∈ as, key b ≤ key a := by
  induction as using List.reverseRecOn generalizing a with
  | nil => simp [maxByKey] at h
  | append_singleton as x ih =>
      rw [maxByKey_append_singleton, Option.some.injEq] at h
      cases hbest : maxByKey key as with
      | none =>
          have hnil : as = [] := by
            cases as with
            | nil => rfl
            | cons b as => simp [maxByKey] at hbest
          subst hnil
          rw [hbest] at h
          simp only [Option.map_none, Option.getD_none] at h
          simp [h]
      | some best =>
          obtain ⟨hmem, hmax⟩ := ih hbest
          rw [hbest, Option.map_some, Option.getD_some, laterMax] at h
          by_cases hlt : key x < key best
          · rw [if_pos hlt] at h
            subst h
            refine ⟨List.mem_append_left _ hmem, ?_⟩
            intro b hb
            rcases List.mem_append.mp hb with hb | hb
            · exact hmax b hb
            · rw [List.mem_singleton.mp hb]
              exact Nat.le_of_lt hlt
          · rw [if_neg hlt] at h
            subst h
            refine ⟨List.mem_append_right _ List.mem_cons_self, ?_⟩
            intro b hb
            rcases List.mem_append.mp hb with hb | hb
            · exact Nat.le_trans (hmax b hb) (Nat.le_of_not_lt hlt)
            · exact Nat.le_of_eq (congrArg key (List.mem_singleton.mp hb))

theorem maxByKey_isSome {as : List α} (h : as ≠ []) : ∃ a, maxByKey key as = some a := by
  cases as with
  | nil => exact absurd rfl h
  | cons a as => exact ⟨_, rfl⟩

theorem maxByKey_of_unique {as : List α} {a : α} (hmem : a ∈ as)
    (hunique : ∀ b ∈ as, b ≠ a → key b < key a) : maxByKey key as = some a := by
  obtain ⟨b, hb⟩ := @maxByKey_isSome _ key _ (List.ne_nil_of_mem hmem)
  obtain ⟨hbmem, hbmax⟩ := maxByKey_spec hb
  by_cases hab : b = a
  · rw [hb, hab]
  · exact absurd (hunique b hbmem hab) (Nat.not_lt.mpr (hbmax a hmem))

theorem maxByKey_append_of_max {as : List α} {a : α} (hmax : ∀ b ∈ as, key b ≤ key a) :
    maxByKey key (as ++ [a]) = some a := by
  rw [maxByKey_append_singleton, Option.some.injEq]
  cases hbest : maxByKey key as with
  | none => rfl
  | some best =>
      have hle := hmax best (maxByKey_spec hbest).1
      rw [Option.map_some, Option.getD_some, laterMax, if_neg (Nat.not_lt.mpr hle)]

/-- Whatever comes after the last maximum in an ordered list has a lower key. -/
theorem maxByKey_later {r : α → α → Prop} (hasymm : ∀ a b, r a b → ¬r b a) {as : List α} (hordered : as.Pairwise r)
    {a b : α} (h : maxByKey key as = some a) (hb : b ∈ as) (hlater : r a b) : key b < key a := by
  induction as using List.reverseRecOn generalizing a with
  | nil => cases hb
  | append_singleton as x ih =>
      rw [List.pairwise_append] at hordered
      obtain ⟨hfront, -, hlast⟩ := hordered
      rw [maxByKey_append_singleton, Option.some.injEq] at h
      have hx (hxa : x = a) : b ∉ as ++ [x] := by
        subst hxa
        intro hb
        rcases List.mem_append.mp hb with hb | hb
        · exact hasymm x b hlater (hlast b hb x (List.mem_singleton_self x))
        · obtain rfl := List.mem_singleton.mp hb
          exact hasymm b b hlater hlater
      cases hbest : maxByKey key as with
      | none =>
          rw [hbest] at h
          exact absurd hb (hx h)
      | some best =>
          rw [hbest, Option.map_some, Option.getD_some, laterMax] at h
          by_cases hless : key x < key best
          · rw [if_pos hless] at h
            subst h
            rcases List.mem_append.mp hb with hb | hb
            · exact ih hfront hbest hb hlater
            · rwa [List.mem_singleton.mp hb]
          · rw [if_neg hless] at h
            exact absurd hb (hx h)

end LastMaximum

theorem foldl_max_le_iff {xs : List Nat} {a n : Nat} :
    xs.foldl max a ≤ n ↔ a ≤ n ∧ ∀ x ∈ xs, x ≤ n := by
  induction xs generalizing a with
  | nil => simp
  | cons x xs ih => rw [List.foldl_cons, ih, Nat.max_le, List.forall_mem_cons, and_assoc]

theorem le_foldl_max {xs : List Nat} {a x : Nat} (h : x ∈ xs) : x ≤ xs.foldl max a :=
  (foldl_max_le_iff.mp (Nat.le_refl _)).2 x h

theorem foldl_max_mem (xs : List Nat) (a : Nat) : xs.foldl max a ∈ a :: xs := by
  induction xs generalizing a with
  | nil => exact List.mem_cons_self
  | cons x xs ih =>
      rw [List.foldl_cons]
      rcases List.mem_cons.mp (ih (max a x)) with hmax | htail
      · rw [hmax]
        rcases Nat.le_total a x with hle | hle
        · rw [Nat.max_eq_right hle]
          exact List.mem_cons_of_mem _ List.mem_cons_self
        · rw [Nat.max_eq_left hle]
          exact List.mem_cons_self
      · exact List.mem_cons_of_mem _ (List.mem_cons_of_mem _ htail)

theorem foldl_max_isGreatest {α : Type} (key : α → Nat) {xs : List α} (hne : xs ≠ []) :
    IsGreatest {n | ∃ x ∈ xs, key x = n} ((xs.map key).foldl max 0) := by
  obtain ⟨x, hx⟩ := List.exists_mem_of_ne_nil _ hne
  constructor
  · rcases List.mem_cons.mp (foldl_max_mem (xs.map key) 0) with hzero | hattained
    · have hle := le_foldl_max (a := 0) (List.mem_map_of_mem (f := key) hx)
      exact ⟨x, hx, by omega⟩
    · obtain ⟨y, hy, hkey⟩ := List.mem_map.mp hattained
      exact ⟨y, hy, hkey⟩
  · rintro n ⟨y, hy, rfl⟩
    exact le_foldl_max (List.mem_map_of_mem hy)

section Positions

theorem mapIdx_eq_map_range {α β : Type} (f : Nat → α → β) (d : α) (xs : List α) :
    xs.mapIdx f = (List.range xs.length).map (fun i => f i (xs.getD i d)) := by
  apply List.ext_getElem
  · simp
  · intro i hi hi'
    rw [List.length_mapIdx] at hi
    rw [List.getElem_mapIdx, List.getElem_map, List.getElem_range, List.getD_eq_getElem _ _ hi]

theorem count_mapIdx {α β : Type} [DecidableEq β] (f : Nat → α → β) (d : α) (xs : List α) (b : β) :
    (xs.mapIdx f).count b = (List.range xs.length).countP (fun i => f i (xs.getD i d) = b) := by
  rw [mapIdx_eq_map_range f d, List.count_eq_countP, List.countP_map]
  apply List.countP_congr
  intro i _
  simp

/-- A property that never holds at both places of a pair holds at no more than half of them. -/
theorem countP_range_le_half {p : Nat → Bool} (hpair : ∀ k, ¬ (p (2 * k) = true ∧ p (2 * k + 1) = true))
    (m : Nat) : (List.range (2 * m)).countP p ≤ m := by
  induction m with
  | zero => simp
  | succ m ih =>
      have hpair := hpair m
      rw [show 2 * (m + 1) = 2 * m + 1 + 1 by omega, List.range_succ, List.range_succ,
        List.countP_append, List.countP_append, List.countP_singleton, List.countP_singleton]
      by_cases heven : p (2 * m) = true
      · have hodd : ¬ p (2 * m + 1) = true := fun h => hpair ⟨heven, h⟩
        rw [if_pos heven, if_neg hodd]
        omega
      · rw [if_neg heven]
        split <;> omega

theorem countP_le_countP_add {α : Type} (p q : α → Bool) (xs : List α) :
    xs.countP p ≤ xs.countP (fun x => !q x) + xs.countP (fun x => p x && q x) := by
  induction xs with
  | nil => simp
  | cons x xs ih =>
      rw [List.countP_cons, List.countP_cons, List.countP_cons]
      cases p x with
      | false => simp; omega
      | true =>
          cases q x with
          | false => simp; omega
          | true => simp; omega

theorem countP_not_add (p : Nat → Bool) (n : Nat) :
    (List.range n).countP (fun i => !p i) + (List.range n).countP p = n := by
  have h := List.length_eq_countP_add_countP p (l := List.range n)
  rw [List.length_range] at h
  have hnot : (List.range n).countP (fun i => decide (¬ p i = true)) =
      (List.range n).countP (fun i => !p i) := by
    apply List.countP_congr
    intro i _
    simp
  omega

end Positions

end OpenSqlAny.Library.Histograms
