import Mathlib.Data.List.Induction
import Mathlib.Order.Lattice

namespace OpenSqlAny.Library.RankedSearch

variable {α β κ : Type} [LinearOrder κ] (rank : β → κ) (scan : α → Option β)

/-- A candidate takes the place of the one that is kept only when it ranks above it. -/
def keepHigher (best : Option β) (cand : β) : Option β :=
  match best with
  | none => some cand
  | some b => if rank b < rank cand then some cand else some b

def search (tried : List α) : Option β :=
  tried.foldl
    (fun best a =>
      match scan a with
      | none => best
      | some cand => keepHigher rank best cand)
    none

/-- A candidate that nothing ranks above, and that ranks above everything tried before it. -/
structure FirstBest (tried : List α) (d : β) : Prop where
  found : ∃ before a after, tried = before ++ a :: after ∧ scan a = some d ∧
    ∀ b ∈ before, ∀ c, scan b = some c → rank c < rank d
  highest : ∀ a ∈ tried, ∀ c, scan a = some c → rank c ≤ rank d

section Searches

variable {rank scan} {tried : List α} {a : α} {d d' : β}

theorem search_append_none (h : scan a = none) : search rank scan (tried ++ [a]) = search rank scan tried := by
  rw [search, List.foldl_append, List.foldl_cons, List.foldl_nil, h]
  rfl

theorem search_append_some (h : scan a = some d) :
    search rank scan (tried ++ [a]) = keepHigher rank (search rank scan tried) d := by
  rw [search, List.foldl_append, List.foldl_cons, List.foldl_nil, h]
  rfl

theorem search_eq_none_iff : search rank scan tried = none ↔ ∀ a ∈ tried, scan a = none := by
  induction tried using List.reverseRecOn with
  | nil => simp [search]
  | append_singleton tried x ih =>
      rw [List.forall_mem_append, List.forall_mem_singleton]
      cases hscan : scan x with
      | none => rw [search_append_none hscan, ih, and_iff_left rfl]
      | some cand =>
          rw [search_append_some hscan]
          cases search rank scan tried with
          | none => simp [keepHigher]
          | some b =>
              rw [keepHigher]
              split <;> simp

theorem FirstBest.exists_mem (h : FirstBest rank scan tried d) : ∃ a ∈ tried, scan a = some d := by
  obtain ⟨before, a, after, hsplit, hscan, -⟩ := h.found
  exact ⟨a, hsplit ▸ List.mem_append_right _ List.mem_cons_self, hscan⟩

theorem FirstBest.append (h : FirstBest rank scan tried d) (hnew : ∀ c, scan a = some c → rank c ≤ rank d) :
    FirstBest rank scan (tried ++ [a]) d := by
  obtain ⟨before, x, after, hsplit, hscan, hbefore⟩ := h.found
  refine ⟨⟨before, x, after ++ [a], ?_, hscan, hbefore⟩, ?_⟩
  · rw [hsplit, List.append_assoc, List.cons_append]
  · intro y hy
    rcases List.mem_append.mp hy with hy | hy
    · exact h.highest y hy
    · rw [List.mem_singleton.mp hy]
      exact hnew

theorem firstBest_last (hscan : scan a = some d)
    (hbefore : ∀ b ∈ tried, ∀ c, scan b = some c → rank c < rank d) :
    FirstBest rank scan (tried ++ [a]) d := by
  refine ⟨⟨tried, a, [], rfl, hscan, hbefore⟩, ?_⟩
  intro y hy c hc
  rcases List.mem_append.mp hy with hy | hy
  · exact (hbefore y hy c hc).le
  · rw [List.mem_singleton.mp hy, hscan] at hc
    exact (congrArg rank (Option.some.inj hc)).ge

theorem firstBest_search (h : search rank scan tried = some d) : FirstBest rank scan tried d := by
  induction tried using List.reverseRecOn generalizing d with
  | nil => cases h
  | append_singleton tried x ih =>
      cases hscan : scan x with
      | none =>
          rw [search_append_none hscan] at h
          refine (ih h).append ?_
          intro c hc
          rw [hscan] at hc
          cases hc
      | some cand =>
          rw [search_append_some hscan] at h
          cases hbest : search rank scan tried with
          | none =>
              rw [hbest] at h
              cases h
              refine firstBest_last hscan ?_
              intro b hb c hc
              rw [search_eq_none_iff.mp hbest b hb] at hc
              cases hc
          | some b =>
              have hkept := ih hbest
              rw [hbest, keepHigher] at h
              split at h
              · rename_i hhigher
                cases h
                exact firstBest_last hscan fun y hy c hc => lt_of_le_of_lt (hkept.highest y hy c hc) hhigher
              · rename_i hlower
                cases h
                refine hkept.append ?_
                intro c hc
                rw [hscan] at hc
                cases hc
                exact le_of_not_gt hlower

theorem FirstBest.unique (h : FirstBest rank scan tried d) (h' : FirstBest rank scan tried d') : d = d' := by
  obtain ⟨before, a, after, hsplit, hscan, hbefore⟩ := h.found
  obtain ⟨before', a', after', hsplit', hscan', hbefore'⟩ := h'.found
  have hmem : a ∈ tried := hsplit ▸ List.mem_append_right _ List.mem_cons_self
  have hmem' : a' ∈ tried := hsplit' ▸ List.mem_append_right _ List.mem_cons_self
  have hout : a ∉ before' := fun hin => absurd (h.highest a' hmem' d' hscan') (hbefore' a hin d hscan).not_ge
  have hout' : a' ∉ before := fun hin => absurd (h'.highest a hmem d hscan) (hbefore a' hin d' hscan').not_ge
  rcases List.append_eq_append_iff.mp (hsplit.symm.trans hsplit') with ⟨gap, hgap, hrest⟩ | ⟨gap, hgap, hrest⟩
  · cases gap with
    | nil =>
        obtain rfl : a = a' := (List.cons.inj hrest).1
        exact Option.some.inj (hscan.symm.trans hscan')
    | cons x gap =>
        obtain rfl : a = x := (List.cons.inj hrest).1
        exact absurd (hgap ▸ List.mem_append_right _ List.mem_cons_self) hout
  · cases gap with
    | nil =>
        obtain rfl : a' = a := (List.cons.inj hrest).1
        exact Option.some.inj (hscan.symm.trans hscan')
    | cons x gap =>
        obtain rfl : a' = x := (List.cons.inj hrest).1
        exact absurd (hgap ▸ List.mem_append_right _ List.mem_cons_self) hout'

theorem search_eq_some_iff : search rank scan tried = some d ↔ FirstBest rank scan tried d := by
  constructor
  · exact firstBest_search
  · intro h
    cases hsearch : search rank scan tried with
    | none =>
        obtain ⟨a, hmem, hscan⟩ := h.exists_mem
        rw [search_eq_none_iff.mp hsearch a hmem] at hscan
        cases hscan
    | some d' => rw [(firstBest_search hsearch).unique h]

end Searches

end OpenSqlAny.Library.RankedSearch
