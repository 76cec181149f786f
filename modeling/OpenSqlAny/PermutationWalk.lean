import Mathlib.Tactic.Ring
import OpenSqlAny.PagePermutation

namespace OpenSqlAny.PermutationWalk

open Library.Faults Library.LittleEndian Library.StrideOrbits PagePermutation

theorem nextCandidate_eq_advance {e : Nat} (he : e ≤ 64) (stride : Int16) (current : Nat) :
    nextCandidate stride (2 ^ e) current = advance (2 ^ e) stride.toInt current := by
  have hdvd : ((2 ^ e : Nat) : Int) ∣ (usizeCount : Nat) :=
    Int.natCast_dvd_natCast.mpr (pow_dvd_pow 2 he)
  have husize : (0 : Int) < usizeCount := by rw [usizeCount]; positivity
  rw [nextCandidate, wrappingAddSigned, Nat.and_two_pow_sub_one_eq_mod, advance]
  have hwrapped := Int.emod_nonneg (current + stride.toInt) husize.ne'
  have hcast : ((((current + stride.toInt) % usizeCount).toNat % 2 ^ e : Nat) : Int) =
      (current + stride.toInt) % (2 ^ e : Nat) := by
    rw [Int.natCast_emod, Int.toNat_of_nonneg hwrapped, Int.emod_emod_of_dvd _ hdvd]
  rw [← hcast, Int.toNat_natCast]

/-- The active bytes in the order in which the stride reaches them from start. -/
def activePath (len start endIndex : Nat) (stride : Int) : List Nat :=
  (orbit len start stride).filter (inRange start endIndex)

def laterPath (len start endIndex : Nat) (stride : Int) : List Nat :=
  (orbit len start stride).tail.filter (inRange start endIndex)

section Paths

variable {len start endIndex : Nat} {stride : Int}

theorem activePath_eq_cons (hstart : start ≤ endIndex) (hend : endIndex < len) :
    activePath len start endIndex stride = start :: laterPath len start endIndex stride := by
  rw [activePath, orbit_eq_cons (by omega), List.filter_cons_of_pos (by simpa [inRange] using hstart),
    laterPath]

theorem laterPath_neg (hstart : start < len) :
    laterPath len start endIndex (-stride) = (laterPath len start endIndex stride).reverse := by
  rw [laterPath, orbit_neg hstart, List.tail_cons, List.filter_reverse, laterPath]

theorem activePath_nodup (hcoprime : IsCoprime (len : Int) stride) :
    (activePath len start endIndex stride).Nodup :=
  (orbit_nodup hcoprime).filter _

theorem mem_orbit_iff (hlen : 0 < len) (hcoprime : IsCoprime (len : Int) stride) {x : Nat} :
    x ∈ orbit len start stride ↔ x < len := by
  have hsub : (orbit len start stride).Subperm (List.range len) := by
    apply List.subperm_of_subset (orbit_nodup hcoprime)
    intro x hx
    exact List.mem_range.mpr (mem_orbit_lt hlen hx)
  have hperm := hsub.perm_of_length_le (by simp)
  rw [hperm.mem_iff, List.mem_range]

theorem mem_activePath_iff (hend : endIndex < len) (hcoprime : IsCoprime (len : Int) stride)
    {x : Nat} : x ∈ activePath len start endIndex stride ↔ start ≤ x ∧ x ≤ endIndex := by
  rw [activePath, List.mem_filter, mem_orbit_iff (by omega) hcoprime]
  simp [inRange]
  omega

theorem activePath_length (hend : endIndex < len) (hcoprime : IsCoprime (len : Int) stride) :
    (activePath len start endIndex stride).length = endIndex + 1 - start := by
  have hset : (activePath len start endIndex stride).toFinset = Finset.Icc start endIndex := by
    ext x
    rw [List.mem_toFinset, mem_activePath_iff hend hcoprime, Finset.mem_Icc]
  rw [← List.toFinset_card_of_nodup (activePath_nodup hcoprime), hset, Nat.card_Icc]

end Paths

theorem nextInActiveRange_of_seek {current len start endIndex next : Nat} {stride : Int16}
    (h : seek (nextCandidate stride len) (inRange start endIndex) len
      (nextCandidate stride len current) = some next) :
    nextInActiveRange current stride len start endIndex = .ok next := by
  rw [nextInActiveRange, h]

/-- The active bytes are one cycle of the source's search for the next active byte. -/
theorem activePath_isChain {e start endIndex : Nat} (he : e ≤ 64) (stride : Int16)
    (hstart : start ≤ endIndex) (hend : endIndex < 2 ^ e) :
    (activePath (2 ^ e) start endIndex stride.toInt ++ [start]).IsChain
      (fun x y => nextInActiveRange x stride (2 ^ e) start endIndex = .ok y) := by
  have horbit := @orbit_eq_cons (2 ^ e) start stride.toInt (by omega)
  have hchain := @orbit_isChain (2 ^ e) start stride.toInt (by omega)
  rw [horbit, List.cons_append] at hchain
  have hstep : (start :: [] ++ ((orbit (2 ^ e) start stride.toInt).tail ++ [start])).IsChain
      (fun x y => y = nextCandidate stride (2 ^ e) x) := by
    apply List.IsChain.imp _ hchain
    intro x y hxy
    rw [nextCandidate_eq_advance he, hxy]
  have hsteps : 0 + ((orbit (2 ^ e) start stride.toInt).tail ++ [start]).length ≤ 2 ^ e := by
    have hpos := Nat.two_pow_pos e
    rw [List.length_append, List.length_tail, orbit_length, List.length_singleton]
    omega
  have hseek := @filter_isChain_seek Nat _ (inRange start endIndex) [] _ start (2 ^ e) hstep
    (by simp) hsteps
  rw [activePath_eq_cons hstart hend, List.cons_append]
  have hclosed : inRange start endIndex start = true := by simpa [inRange] using hstart
  rw [List.filter_append, List.filter_singleton, hclosed] at hseek
  apply List.IsChain.imp _ hseek
  intro x y hxy
  exact nextInActiveRange_of_seek hxy

end OpenSqlAny.PermutationWalk
