import OpenSqlAny.Library.Histograms

namespace OpenSqlAny.Library.HashEntries

open Histograms

section Entries

variable {κ ν : Type} [DecidableEq κ]

/-- The assignment `*map.entry(k).or_insert(d) = f(..)` on the entries of a hash map. -/
def upsert (k : κ) (d : ν) (f : ν → ν) : List (κ × ν) → List (κ × ν)
  | [] => [(k, f d)]
  | (j, v) :: entries => if j = k then (j, f v) :: entries else (j, v) :: upsert k d f entries

def put (k : κ) (v : ν) : List (κ × ν) → List (κ × ν) := upsert k v (fun _ => v)

def find? (k : κ) (entries : List (κ × ν)) : Option ν :=
  (entries.find? (fun entry => decide (entry.1 = k))).map (·.2)

variable {k j : κ} {d v : ν} {f : ν → ν} {entries : List (κ × ν)}

@[simp]
theorem find?_nil : find? k ([] : List (κ × ν)) = none := rfl

theorem find?_cons_self : find? k ((k, v) :: entries) = some v := by
  simp [find?]

theorem find?_cons_of_ne (h : j ≠ k) : find? k ((j, v) :: entries) = find? k entries := by
  simp [find?, h]

theorem find?_upsert_self : find? k (upsert k d f entries) = some (f ((find? k entries).getD d)) := by
  induction entries with
  | nil => exact find?_cons_self
  | cons entry entries ih =>
      obtain ⟨i, v⟩ := entry
      rw [upsert]
      by_cases hi : i = k
      · subst hi
        rw [if_pos rfl, find?_cons_self, find?_cons_self, Option.getD_some]
      · rw [if_neg hi, find?_cons_of_ne hi, find?_cons_of_ne hi, ih]

theorem find?_upsert_of_ne (h : j ≠ k) : find? j (upsert k d f entries) = find? j entries := by
  induction entries with
  | nil => exact find?_cons_of_ne h.symm
  | cons entry entries ih =>
      obtain ⟨i, v⟩ := entry
      rw [upsert]
      by_cases hi : i = k
      · subst hi
        rw [if_pos rfl, find?_cons_of_ne h.symm, find?_cons_of_ne h.symm]
      · rw [if_neg hi]
        by_cases hij : i = j
        · subst hij
          rw [find?_cons_self, find?_cons_self]
        · rw [find?_cons_of_ne hij, find?_cons_of_ne hij, ih]

theorem mem_keys_upsert : j ∈ (upsert k d f entries).map (·.1) ↔ j = k ∨ j ∈ entries.map (·.1) := by
  induction entries with
  | nil => simp [upsert]
  | cons entry entries ih =>
      obtain ⟨i, v⟩ := entry
      rw [upsert]
      by_cases hi : i = k
      · subst hi
        simp
      · rw [if_neg hi, List.map_cons, List.mem_cons, ih, List.map_cons, List.mem_cons]
        tauto

theorem keys_upsert_nodup (h : (entries.map (·.1)).Nodup) :
    ((upsert k d f entries).map (·.1)).Nodup := by
  induction entries with
  | nil => simp [upsert]
  | cons entry entries ih =>
      obtain ⟨i, v⟩ := entry
      obtain ⟨hfresh, hrest⟩ := List.nodup_cons.mp h
      rw [upsert]
      by_cases hi : i = k
      · rw [if_pos hi]
        exact h
      · rw [if_neg hi, List.map_cons, List.nodup_cons, mem_keys_upsert]
        exact ⟨by tauto, ih hrest⟩

theorem find?_eq_some_iff (h : (entries.map (·.1)).Nodup) : find? k entries = some v ↔ (k, v) ∈ entries := by
  induction entries with
  | nil => simp
  | cons entry entries ih =>
      obtain ⟨i, w⟩ := entry
      obtain ⟨hfresh, hrest⟩ := List.nodup_cons.mp h
      by_cases hi : i = k
      · subst hi
        have hout : (i, v) ∉ entries := fun hmem => hfresh (List.mem_map.mpr ⟨(i, v), hmem, rfl⟩)
        rw [find?_cons_self, List.mem_cons]
        simp [hout, eq_comm]
      · rw [find?_cons_of_ne hi, ih hrest, List.mem_cons]
        simp [Ne.symm hi]

theorem find?_eq_none_iff : find? k entries = none ↔ k ∉ entries.map (·.1) := by
  rw [find?, Option.map_eq_none_iff, List.find?_eq_none, List.mem_map]
  simp only [decide_eq_true_eq, not_exists, not_and]

theorem find?_perm {entries' : List (κ × ν)} (hperm : entries'.Perm entries)
    (h : (entries.map (·.1)).Nodup) : find? k entries' = find? k entries := by
  have h' : (entries'.map (·.1)).Nodup := (hperm.map _).nodup_iff.mpr h
  apply Option.ext
  intro v
  rw [find?_eq_some_iff h', find?_eq_some_iff h, hperm.mem_iff]

/-- A loop over the entries of one map that builds another: each entry puts at most one value. -/
def rebuild {μ : Type} (choose : κ × ν → Option μ) (entries : List (κ × ν)) : List (κ × μ) :=
  entries.foldl (fun built entry =>
    match choose entry with
    | some x => put entry.1 x built
    | none => built) []

theorem rebuild_append_singleton {μ : Type} (choose : κ × ν → Option μ) (entries : List (κ × ν))
    (entry : κ × ν) : rebuild choose (entries ++ [entry]) =
      match choose entry with
      | some x => put entry.1 x (rebuild choose entries)
      | none => rebuild choose entries := by
  rw [rebuild, List.foldl_append]
  rfl

theorem find?_rebuild {μ : Type} (choose : κ × ν → Option μ) (h : (entries.map (·.1)).Nodup) :
    find? k (rebuild choose entries) = (find? k entries).bind (fun v => choose (k, v)) := by
  induction entries using List.reverseRecOn with
  | nil => rfl
  | append_singleton entries entry ih =>
      obtain ⟨i, v⟩ := entry
      rw [List.map_append, List.map_singleton, List.nodup_append] at h
      rw [rebuild_append_singleton]
      have hsplit : find? k (entries ++ [(i, v)]) = (find? k entries).or (find? k [(i, v)]) := by
        rw [find?, List.find?_append, Option.map_or]
        rfl
      by_cases hi : k = i
      · subst hi
        have hfresh : find? k entries = none :=
          find?_eq_none_iff.mpr (fun hmem => h.2.2 k hmem k (by simp) rfl)
        rw [hsplit, hfresh, Option.none_or, find?_cons_self, Option.bind_some]
        cases hchoose : choose (k, v) with
        | none =>
            change find? k (rebuild choose entries) = none
            rw [ih h.1, hfresh, Option.bind_none]
        | some x => exact find?_upsert_self
      · rw [hsplit, find?_cons_of_ne (Ne.symm hi), find?_nil, Option.or_none, ← ih h.1]
        cases choose (i, v) with
        | none => rfl
        | some x => exact find?_upsert_of_ne hi

theorem keys_rebuild_nodup {μ : Type} (choose : κ × ν → Option μ) (entries : List (κ × ν)) :
    ((rebuild choose entries).map (·.1)).Nodup := by
  induction entries using List.reverseRecOn with
  | nil => exact List.nodup_nil
  | append_singleton entries entry ih =>
      rw [rebuild_append_singleton]
      cases choose entry with
      | none => exact ih
      | some x => exact keys_upsert_nodup ih

end Entries

/-- How one hash map gives its entries out: any order of them. -/
structure HashOrder (κ ν : Type) where
  iter : List (κ × ν) → List (κ × ν)
  perm : ∀ entries, (iter entries).Perm entries

def insertionOrder {κ ν : Type} : HashOrder κ ν := ⟨id, fun _ => List.Perm.refl _⟩

def lastly {κ ν : Type} [DecidableEq κ] [DecidableEq ν] (entry : κ × ν) : HashOrder κ ν where
  iter entries := if entry ∈ entries then entries.erase entry ++ [entry] else entries
  perm entries := by
    by_cases h : entry ∈ entries
    · rw [if_pos h]
      exact List.perm_append_singleton _ _ |>.trans (List.perm_cons_erase h).symm
    · rw [if_neg h]

def firstly {κ ν : Type} [DecidableEq κ] [DecidableEq ν] (entry : κ × ν) : HashOrder κ ν where
  iter entries := if entry ∈ entries then entry :: entries.erase entry else entries
  perm entries := by
    by_cases h : entry ∈ entries
    · rw [if_pos h]
      exact (List.perm_cons_erase h).symm
    · rw [if_neg h]

theorem head?_firstly {κ ν : Type} [DecidableEq κ] [DecidableEq ν] {entry : κ × ν}
    {entries : List (κ × ν)} (h : entry ∈ entries) : ((firstly entry).iter entries).head? = some entry := by
  have hiter : (firstly entry).iter entries = entry :: entries.erase entry := if_pos h
  rw [hiter, List.head?_cons]

section Ballots

variable {κ : Type} [DecidableEq κ]

def ballot (casts : List κ) : List (κ × Nat) :=
  casts.foldl (fun entries k => upsert k 0 (· + 1) entries) []

theorem ballot_append_singleton (casts : List κ) (k : κ) :
    ballot (casts ++ [k]) = upsert k 0 (· + 1) (ballot casts) := by
  rw [ballot, List.foldl_append, ballot]
  rfl

theorem ballot_keys_nodup (casts : List κ) : ((ballot casts).map (·.1)).Nodup := by
  induction casts using List.reverseRecOn with
  | nil => exact List.nodup_nil
  | append_singleton casts k ih =>
      rw [ballot_append_singleton]
      exact keys_upsert_nodup ih

theorem find?_ballot (casts : List κ) (k : κ) :
    find? k (ballot casts) = if k ∈ casts then some (casts.count k) else none := by
  induction casts using List.reverseRecOn with
  | nil => rfl
  | append_singleton casts j ih =>
      rw [ballot_append_singleton, List.count_append]
      by_cases hk : k = j
      · subst hk
        rw [find?_upsert_self, ih, List.count_singleton_self]
        by_cases hmem : k ∈ casts
        · simp [hmem]
        · simp [hmem, List.count_eq_zero_of_not_mem hmem]
      · have hout : k ∉ [j] := by simpa using hk
        rw [find?_upsert_of_ne hk, ih, List.count_eq_zero_of_not_mem hout]
        simp [hk]

theorem mem_ballot_iff {casts : List κ} {k : κ} {n : Nat} :
    (k, n) ∈ ballot casts ↔ k ∈ casts ∧ n = casts.count k := by
  rw [← find?_eq_some_iff (ballot_keys_nodup casts), find?_ballot]
  by_cases hk : k ∈ casts
  · simp [hk, eq_comm]
  · simp [hk]

/-- The key that `max_by_key` picks from a hash map of counters. -/
def pick (order : HashOrder κ Nat) (counters : List (κ × Nat)) : Option κ :=
  (maxByKey (·.2) (order.iter counters)).map (·.1)

def winner (order : HashOrder κ Nat) (casts : List κ) : Option κ := pick order (ballot casts)

def Leads (casts : List κ) (k : κ) : Prop := k ∈ casts ∧ ∀ j, casts.count j ≤ casts.count k

variable {casts : List κ} {k : κ}

theorem leads_of_winner {order : HashOrder κ Nat} (h : winner order casts = some k) : Leads casts k := by
  obtain ⟨⟨k', n⟩, hmax, rfl⟩ := Option.map_eq_some_iff.mp h
  obtain ⟨hmem, hle⟩ := maxByKey_spec hmax
  obtain ⟨hk, rfl⟩ := mem_ballot_iff.mp ((order.perm _).mem_iff.mp hmem)
  refine ⟨hk, ?_⟩
  intro j
  by_cases hj : j ∈ casts
  · exact hle (j, casts.count j) ((order.perm _).mem_iff.mpr (mem_ballot_iff.mpr ⟨hj, rfl⟩))
  · rw [List.count_eq_zero_of_not_mem hj]
    exact Nat.zero_le _

theorem winner_nil (order : HashOrder κ Nat) : winner order [] = none := by
  rw [winner, pick, (order.perm (ballot [])).eq_nil]
  rfl

theorem winner_isSome (order : HashOrder κ Nat) (h : casts ≠ []) : ∃ k, winner order casts = some k := by
  obtain ⟨k, hk⟩ := List.exists_mem_of_ne_nil casts h
  have hmem := (order.perm _).mem_iff.mpr (mem_ballot_iff.mpr ⟨hk, rfl⟩)
  obtain ⟨entry, hentry⟩ := @maxByKey_isSome _ (fun e : κ × Nat => e.2) _ (List.ne_nil_of_mem hmem)
  exact ⟨entry.1, by rw [winner, pick, hentry, Option.map_some]⟩

theorem winner_of_unique (order : HashOrder κ Nat) (hlead : Leads casts k)
    (hunique : ∀ j, Leads casts j → j = k) : winner order casts = some k := by
  obtain ⟨j, hj⟩ := winner_isSome order (List.ne_nil_of_mem hlead.1)
  rw [hj, hunique j (leads_of_winner hj)]

theorem winner_of_all_eq (order : HashOrder κ Nat) (hmem : k ∈ casts) (hall : ∀ j ∈ casts, j = k) :
    winner order casts = some k := by
  apply winner_of_unique order
  · refine ⟨hmem, ?_⟩
    intro j
    by_cases hj : j ∈ casts
    · exact Nat.le_of_eq (by rw [hall j hj])
    · rw [List.count_eq_zero_of_not_mem hj]
      exact Nat.zero_le _
  · intro j hj
    exact hall j hj.1

theorem winner_lastly (hlead : Leads casts k) : winner (lastly (k, casts.count k)) casts = some k := by
  have hmem := mem_ballot_iff.mpr ⟨hlead.1, rfl⟩
  have hiter : (lastly (k, casts.count k)).iter (ballot casts) =
      (ballot casts).erase (k, casts.count k) ++ [(k, casts.count k)] := if_pos hmem
  rw [winner, pick, hiter, maxByKey_append_of_max]
  · rfl
  · intro entry hentry
    obtain ⟨j, n⟩ := entry
    obtain ⟨-, rfl⟩ := mem_ballot_iff.mp (List.mem_of_mem_erase hentry)
    exact hlead.2 j

def UniqueLeader (casts : List κ) : Prop := ∀ j k, Leads casts j → Leads casts k → j = k

/-- A pick from a hash map of counters is free of the map's order exactly when no two keys tie
for the lead. -/
theorem winner_order_free_iff :
    (∀ order order', winner order casts = winner order' casts) ↔ UniqueLeader casts := by
  constructor
  · intro hfree j k hj hk
    have h := hfree (lastly (j, casts.count j)) (lastly (k, casts.count k))
    rw [winner_lastly hj, winner_lastly hk] at h
    exact Option.some.inj h
  · intro hunique order order'
    cases casts with
    | nil => rw [winner_nil, winner_nil]
    | cons k casts =>
        obtain ⟨j, hj⟩ := winner_isSome order (List.cons_ne_nil k casts)
        obtain ⟨i, hi⟩ := winner_isSome order' (List.cons_ne_nil k casts)
        rw [hj, hi, hunique _ _ (leads_of_winner hj) (leads_of_winner hi)]

end Ballots

section NestedBallots

variable {κ ι : Type} [DecidableEq ι]

def castsOf (i : ι) (casts : List (ι × κ)) : List κ := (casts.filter (·.1 = i)).map (·.2)

theorem castsOf_flatMap {α : Type} (xs : List α) (f : α → List (ι × κ)) (i : ι) :
    castsOf i (xs.flatMap f) = xs.flatMap (fun x => castsOf i (f x)) := by
  rw [castsOf, List.filter_flatMap, List.map_flatMap]
  rfl

theorem castsOf_map (i j : ι) (ks : List κ) :
    castsOf i (ks.map (fun k => (j, k))) = if j = i then ks else [] := by
  induction ks with
  | nil => simp [castsOf]
  | cons k ks ih =>
      rw [castsOf] at ih ⊢
      by_cases h : j = i
      · rw [if_pos h] at ih ⊢
        rw [List.map_cons, List.filter_cons_of_pos (by simpa using h), List.map_cons, ih]
      · rw [if_neg h] at ih ⊢
        rw [List.map_cons, List.filter_cons_of_neg (by simpa using h), ih]

variable [DecidableEq κ]

/-- A hash map of hash maps of counters, as a loop over the votes builds it. -/
def ballots (casts : List (ι × κ)) : List (ι × List (κ × Nat)) :=
  casts.foldl (fun votes cast => upsert cast.1 [] (upsert cast.2 0 (· + 1)) votes) []

theorem ballots_keys_nodup (casts : List (ι × κ)) : ((ballots casts).map (·.1)).Nodup := by
  induction casts using List.reverseRecOn with
  | nil => exact List.nodup_nil
  | append_singleton casts cast ih =>
      rw [ballots, List.foldl_append]
      exact keys_upsert_nodup ih

theorem find?_ballots (casts : List (ι × κ)) (i : ι) :
    find? i (ballots casts) = if castsOf i casts = [] then none else some (ballot (castsOf i casts)) := by
  induction casts using List.reverseRecOn with
  | nil => rfl
  | append_singleton casts cast ih =>
      obtain ⟨j, k⟩ := cast
      have hstep : ballots (casts ++ [(j, k)]) = upsert j [] (upsert k 0 (· + 1)) (ballots casts) := by
        rw [ballots, List.foldl_append, ballots]
        rfl
      rw [hstep]
      by_cases hi : i = j
      · subst hi
        have hcasts : castsOf i (casts ++ [(i, k)]) = castsOf i casts ++ [k] := by
          simp [castsOf, List.filter_append]
        have hne : castsOf i casts ++ [k] ≠ [] := List.append_ne_nil_of_right_ne_nil _ (List.cons_ne_nil k [])
        rw [find?_upsert_self, ih, hcasts, if_neg hne, ballot_append_singleton]
        by_cases hnil : castsOf i casts = []
        · rw [if_pos hnil, hnil]
          rfl
        · rw [if_neg hnil, Option.getD_some]
      · have hcasts : castsOf i (casts ++ [(j, k)]) = castsOf i casts := by
          simp [castsOf, List.filter_append, Ne.symm hi]
        rw [find?_upsert_of_ne hi, ih, hcasts]

theorem counter_ballots (casts : List (ι × κ)) (i : ι) (k : κ) :
    (find? k ((find? i (ballots casts)).getD [])).getD 0 = (castsOf i casts).count k := by
  rw [find?_ballots]
  by_cases hnil : castsOf i casts = []
  · rw [if_pos hnil, hnil]
    rfl
  · rw [if_neg hnil, Option.getD_some, find?_ballot]
    by_cases hk : k ∈ castsOf i casts
    · rw [if_pos hk, Option.getD_some]
    · rw [if_neg hk, Option.getD_none, List.count_eq_zero_of_not_mem hk]

end NestedBallots

end OpenSqlAny.Library.HashEntries
