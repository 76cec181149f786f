import Mathlib.Data.Finset.Max

namespace OpenSqlAny.Library.Cuts

variable {α : Type} [LinearOrder α] {cuts : List α} {stop a b x : α}

def leastAbove : List α → α → Option α
  | [], _ => none
  | c :: cuts, a => if a < c then some ((leastAbove cuts a).elim c (min c)) else leastAbove cuts a

theorem leastAbove_eq_none_iff : leastAbove cuts a = none ↔ ∀ c ∈ cuts, c ≤ a := by
  induction cuts with
  | nil => simp [leastAbove]
  | cons c cuts ih =>
      rw [leastAbove, List.forall_mem_cons]
      by_cases h : a < c
      · rw [if_pos h]
        exact iff_of_false (by simp) fun hle => absurd hle.1 (not_le.mpr h)
      · rw [if_neg h, ih]
        exact (and_iff_right (not_lt.mp h)).symm

theorem leastAbove_spec (h : leastAbove cuts a = some b) : b ∈ cuts ∧ a < b ∧ ∀ c ∈ cuts, a < c → b ≤ c := by
  induction cuts generalizing b with
  | nil => cases h
  | cons c cuts ih =>
      rw [leastAbove] at h
      by_cases hac : a < c
      · rw [if_pos hac] at h
        cases hrest : leastAbove cuts a with
        | none =>
            rw [hrest] at h
            obtain rfl : c = b := Option.some_inj.mp h
            refine ⟨List.mem_cons_self .., hac, List.forall_mem_cons.mpr ⟨fun _ => le_rfl, ?_⟩⟩
            intro d hd had
            exact absurd (leastAbove_eq_none_iff.mp hrest d hd) (not_le.mpr had)
        | some d =>
            obtain ⟨hd, had, hleast⟩ := ih hrest
            rw [hrest] at h
            obtain rfl : min c d = b := Option.some_inj.mp h
            refine ⟨?_, lt_min hac had, List.forall_mem_cons.mpr ⟨fun _ => min_le_left c d, ?_⟩⟩
            · rcases min_choice c d with hmin | hmin
              · rw [hmin]
                exact List.mem_cons_self ..
              · rw [hmin]
                exact List.mem_cons_of_mem c hd
            · intro e he hae
              exact (min_le_right c d).trans (hleast e he hae)
      · rw [if_neg hac] at h
        obtain ⟨hb, hab, hleast⟩ := ih h
        refine ⟨List.mem_cons_of_mem c hb, hab, List.forall_mem_cons.mpr ⟨fun hac' => absurd hac' hac, hleast⟩⟩

theorem leastAbove_eq_some_iff : leastAbove cuts a = some b ↔ b ∈ cuts ∧ a < b ∧ ∀ c ∈ cuts, a < c → b ≤ c := by
  refine ⟨leastAbove_spec, ?_⟩
  rintro ⟨hb, hab, hleast⟩
  cases habove : leastAbove cuts a with
  | none => exact absurd (leastAbove_eq_none_iff.mp habove b hb) (not_le.mpr hab)
  | some c =>
      obtain ⟨hc, hac, hleast'⟩ := leastAbove_spec habove
      rw [le_antisymm (hleast c hc hac) (hleast' b hb hab)]

theorem leastAbove_congr {cuts' : List α} (h : ∀ c, c ∈ cuts ↔ c ∈ cuts') (a : α) :
    leastAbove cuts a = leastAbove cuts' a := by
  ext b
  simp only [leastAbove_eq_some_iff, h]

/-- The end of the block that begins at a cut: the next cut, or where the last block stops. -/
def blockEnd (cuts : List α) (stop a : α) : α := (leastAbove cuts a).getD stop

theorem blockEnd_cons_of_le {c : α} (h : c ≤ a) : blockEnd (c :: cuts) stop a = blockEnd cuts stop a := by
  rw [blockEnd, leastAbove, if_neg (not_lt.mpr h), blockEnd]

variable (cuts) in
theorem lt_blockEnd (h : a < stop) : a < blockEnd cuts stop a := by
  rw [blockEnd]
  cases habove : leastAbove cuts a with
  | none => exact h
  | some b => exact (leastAbove_spec habove).2.1

theorem blockEnd_le_stop (h : ∀ c ∈ cuts, c < stop) : blockEnd cuts stop a ≤ stop := by
  rw [blockEnd]
  cases habove : leastAbove cuts a with
  | none => exact le_rfl
  | some b => exact (h b (leastAbove_spec habove).1).le

theorem blockEnd_le (hb : b ∈ cuts) (h : a < b) : blockEnd cuts stop a ≤ b := by
  rw [blockEnd]
  cases habove : leastAbove cuts a with
  | none => exact absurd (leastAbove_eq_none_iff.mp habove b hb) (not_le.mpr h)
  | some c => exact (leastAbove_spec habove).2.2 b hb h

/-- A block ends with the lowest of the cuts above it, or where the last block stops if there are none. -/
theorem blockEnd_append {above below : List α} (habove : above = [] ∧ b = stop ∨ b ∈ above ∧ ∀ c ∈ above, b ≤ c)
    (hbelow : ∀ c ∈ below, c ≤ a) (h : a < b) : blockEnd (above ++ below) stop a = b := by
  rw [blockEnd]
  rcases habove with ⟨rfl, rfl⟩ | ⟨hb, hleast⟩
  · rw [List.nil_append, leastAbove_eq_none_iff.mpr hbelow, Option.getD_none]
  · have hnext : leastAbove (above ++ below) a = some b := by
      refine leastAbove_eq_some_iff.mpr ⟨List.mem_append_left _ hb, h, ?_⟩
      intro c hc hac
      rcases List.mem_append.mp hc with hc | hc
      · exact hleast c hc
      · exact absurd (hbelow c hc) (not_le.mpr hac)
    rw [hnext, Option.getD_some]

/-- The blocks cover all from a cut on: a point is in the block of the greatest cut not above it. -/
theorem exists_block (ha : a ∈ cuts) (hax : a ≤ x) (hx : x < stop) :
    ∃ c ∈ cuts, c ≤ x ∧ x < blockEnd cuts stop c := by
  have hbelow {c : α} : c ∈ (cuts.filter (· ≤ x)).toFinset ↔ c ∈ cuts ∧ c ≤ x := by
    rw [List.mem_toFinset, List.mem_filter, decide_eq_true_eq]
  obtain ⟨c, hc, hgreatest⟩ := Finset.exists_max_image _ id ⟨a, hbelow.mpr ⟨ha, hax⟩⟩
  obtain ⟨hc, hcx⟩ := hbelow.mp hc
  refine ⟨c, hc, hcx, ?_⟩
  rw [blockEnd]
  cases habove : leastAbove cuts c with
  | none => exact hx
  | some b =>
      obtain ⟨hb, hcb, -⟩ := leastAbove_spec habove
      apply lt_of_not_ge
      intro hbx
      exact absurd (hgreatest b (hbelow.mpr ⟨hb, hbx⟩)) (not_le.mpr hcb)

end OpenSqlAny.Library.Cuts
