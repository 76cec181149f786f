import Mathlib.Data.Int.ModEq
import Mathlib.Data.List.Nodup
import Mathlib.Order.Interval.Finset.Nat
import Mathlib.RingTheory.Coprime.Lemmas

namespace OpenSqlAny.Library.StrideOrbits

section Seeking

variable {α : Type}

/-- The first element that satisfies p among fuel elements of the walk of step from a. -/
def seek (step : α → α) (p : α → Bool) : Nat → α → Option α
  | 0, _ => none
  | fuel + 1, a => if p a then some a else seek step p fuel (step a)

variable {step : α → α} {p : α → Bool}

theorem seek_chain {gap : List α} {a b : α} {fuel : Nat}
    (hchain : (a :: gap ++ [b]).IsChain (fun x y => y = step x)) (hgap : ∀ x ∈ gap, p x = false)
    (hb : p b = true) (hfuel : gap.length < fuel) : seek step p fuel (step a) = some b := by
  induction gap generalizing a fuel with
  | nil =>
      obtain ⟨fuel, rfl⟩ : ∃ n, fuel = n + 1 := ⟨fuel - 1, by simp at hfuel; omega⟩
      rw [List.cons_append, List.nil_append, List.isChain_cons_cons] at hchain
      rw [← hchain.1, seek, if_pos hb]
  | cons x gap ih =>
      obtain ⟨fuel, rfl⟩ : ∃ n, fuel = n + 1 := ⟨fuel - 1, by simp at hfuel; omega⟩
      rw [List.cons_append, List.cons_append, List.isChain_cons_cons] at hchain
      obtain ⟨hx, hgap⟩ := List.forall_mem_cons.mp hgap
      rw [← hchain.1, seek, if_neg (by simp [hx])]
      exact ih hchain.2 hgap (by simpa using hfuel)

/-- A walk that is thinned to the elements that satisfy p is a walk of the seeks. -/
theorem filter_isChain_seek {gap rest : List α} {a : α} {fuel : Nat}
    (hchain : (a :: gap ++ rest).IsChain (fun x y => y = step x))
    (hgap : ∀ x ∈ gap, p x = false) (hfuel : gap.length + rest.length ≤ fuel) :
    (a :: rest.filter p).IsChain (fun x y => seek step p fuel (step x) = some y) := by
  induction rest generalizing a gap with
  | nil => exact List.isChain_singleton a
  | cons b rest ih =>
      cases hb : p b with
      | true =>
          rw [List.filter_cons_of_pos hb, List.isChain_cons_cons]
          have hsplit : a :: gap ++ b :: rest = (a :: gap ++ [b]) ++ rest := by simp
          refine ⟨seek_chain (hsplit ▸ hchain).left_of_append hgap hb ?_, ?_⟩
          · rw [List.length_cons] at hfuel; omega
          · apply @ih [] b
            · exact hchain.right_of_append
            · simp
            · rw [List.length_cons] at hfuel; simp; omega
      | false =>
          rw [List.filter_cons_of_neg (by simp [hb])]
          apply @ih (gap ++ [b]) a
          · simpa using hchain
          · intro x hx
            rcases List.mem_append.mp hx with h | h
            · exact hgap x h
            · rw [List.mem_singleton.mp h, hb]
          · rw [List.length_cons] at hfuel; simp; omega

end Seeking

section Strides

/-- The residues that the stride visits from start before it is back. -/
def orbit (len start : Nat) (stride : Int) : List Nat :=
  (List.range len).map (fun j : Nat => ((start + j * stride) % len).toNat)

def advance (len : Nat) (stride : Int) (current : Nat) : Nat := ((current + stride) % len).toNat

variable {len start : Nat} {stride : Int}

@[simp]
theorem orbit_length : (orbit len start stride).length = len := by simp [orbit]

theorem orbit_getElem {j : Nat} (h : j < (orbit len start stride).length) :
    (orbit len start stride)[j] = ((start + j * stride) % len).toNat := by
  simp [orbit]

theorem coe_residue (hlen : 0 < len) (a : Int) : ((a % len).toNat : Int) = a % len :=
  Int.toNat_of_nonneg (Int.emod_nonneg a (by omega))

theorem advance_residue (hlen : 0 < len) (a : Int) :
    advance len stride ((a % len).toNat) = ((a + stride) % len).toNat := by
  rw [advance, coe_residue hlen, Int.emod_add_emod]

theorem mem_orbit_lt (hlen : 0 < len) {x : Nat} (hx : x ∈ orbit len start stride) : x < len := by
  obtain ⟨j, -, rfl⟩ := List.mem_map.mp hx
  have := Int.emod_lt_of_pos (start + j * stride) (show (0 : Int) < len by omega)
  omega

theorem orbit_nodup (hcoprime : IsCoprime (len : Int) stride) : (orbit len start stride).Nodup := by
  refine List.Nodup.map_on ?_ List.nodup_range
  intro i hi j hj hij
  rw [List.mem_range] at hi hj
  have hlen : 0 < len := by omega
  have hmod : (start + i * stride) % (len : Int) = (start + j * stride) % len := by
    rw [← coe_residue hlen (start + i * stride), ← coe_residue hlen (start + j * stride), hij]
  have hdvd : (len : Int) ∣ (j - i : Int) * stride := by
    have h := Int.ModEq.dvd (n := len) hmod
    rwa [show (start + j * stride - (start + i * stride) : Int) = (j - i) * stride by ring] at h
  have h := Int.eq_zero_of_dvd_of_natAbs_lt_natAbs (hcoprime.dvd_of_dvd_mul_right hdvd) (by omega)
  omega

theorem orbit_eq_cons (hstart : start < len) :
    orbit len start stride = start :: (orbit len start stride).tail := by
  obtain ⟨n, rfl⟩ : ∃ n, len = n + 1 := ⟨len - 1, by omega⟩
  have hhead : ((start + (0 : Nat) * stride) % ((n + 1 : Nat) : Int)).toNat = start := by
    rw [Int.natCast_zero, Int.zero_mul, Int.add_zero, Int.emod_eq_of_lt (by omega) (by omega)]
    simp
  rw [orbit, List.range_succ_eq_map, List.map_cons, hhead, List.tail_cons]

theorem orbit_isChain (hstart : start < len) :
    (orbit len start stride ++ [start]).IsChain (fun x y => y = advance len stride x) := by
  have hlen : 0 < len := by omega
  apply List.isChain_iff_getElem.mpr
  intro i hi
  rw [List.length_append, orbit_length, List.length_singleton] at hi
  have hvisit : (orbit len start stride ++ [start])[i] = ((start + i * stride) % len).toNat := by
    rw [List.getElem_append_left (by rw [orbit_length]; omega), orbit_getElem]
  rw [hvisit, advance_residue hlen]
  by_cases hlast : i + 1 < len
  · rw [List.getElem_append_left (by simpa using hlast), orbit_getElem]
    congr 2
    push_cast
    ring
  · have hi : i + 1 = len := by omega
    rw [List.getElem_append_right (by simp; omega), List.getElem_singleton]
    have hround : (start + i * stride + stride : Int) = start + len * stride := by
      rw [← hi]
      push_cast
      ring
    rw [hround, Int.add_mul_emod_self_left, Int.emod_eq_of_lt (by omega) (by omega)]
    simp

theorem orbit_neg (hstart : start < len) :
    orbit len start (-stride) = start :: (orbit len start stride).tail.reverse := by
  have hlen : 0 < len := by omega
  apply List.ext_getElem
  · simp; omega
  · intro j hj hj'
    rw [orbit_length] at hj
    rw [orbit_getElem]
    cases j with
    | zero =>
        rw [List.getElem_cons_zero, Int.natCast_zero, Int.zero_mul, Int.add_zero,
          Int.emod_eq_of_lt (by omega) (by omega)]
        simp
    | succ j =>
        rw [List.getElem_cons_succ, List.getElem_reverse, List.getElem_tail, orbit_getElem]
        have hindex : (orbit len start stride).tail.length - 1 - j + 1 = len - (j + 1) := by
          simp; omega
        rw [hindex, Int.natCast_sub (by omega)]
        have hback : (start + (len - (j + 1 : Nat)) * stride : Int) =
            start + (j + 1 : Nat) * -stride + len * stride := by ring
        rw [hback, Int.add_mul_emod_self_left]

end Strides

end OpenSqlAny.Library.StrideOrbits
