import OpenSqlAny.ApDiagnostics
import OpenSqlAny.Library.ListDistances
import OpenSqlAny.StoreDecoding

namespace OpenSqlAny.ApDamage

open Library.HashEntries Library.LittleEndian Library.ListDistances PageStores ApFill ApSectors ApPages ApDiagnostics
open StoreDecoding
open scoped UInt8.CommRing

def fillAt (pn : Nat) (bv : UInt8) (steps : Nat → UInt8) (i : Nat) : UInt8 :=
  if i < trailerStart then
    apBase pn (i / sectorSize) bv + strideAt (i % sectorSize) (steps (i / sectorSize))
  else 0

section Bytes

variable {pn si i : Nat} {bv : UInt8} {steps : Nat → UInt8} {plain trailer bytes : Bytes}

theorem sector_of_lt (h : i < trailerStart) : i / sectorSize < sectorsPerPage := by
  simp only [trailerStart] at h
  simp only [sectorsPerPage, pageSize, sectorSize]
  omega

theorem getD_sectorOf (h : i < trailerStart) :
    (sectorOf bytes (i / sectorSize)).getD (i % sectorSize) 0 = bytes.getD i 0 := by
  have hend : i < boundary (i / sectorSize + 1) := by
    simp only [trailerStart] at h
    simp only [boundary, sectorSize, trailerStart]
    omega
  have hstart : boundary (i / sectorSize) + i % sectorSize = i := by
    rw [boundary_of_lt (sector_of_lt h), Nat.mul_comm, Nat.div_add_mod]
  rw [sectorOf_eq (sector_of_lt h), List.getD_eq_getElem?_getD, List.getElem?_drop, hstart,
    List.getElem?_take_of_lt hend, ← List.getD_eq_getElem?_getD]

theorem getD_encodeSector {base step : UInt8} (h : i < plain.length) :
    (encodeSector base step plain).getD i 0 = base + strideAt i step + plain.getD i 0 := by
  rw [encodeSector, List.getD_eq_getElem?_getD, List.getElem?_mapIdx, List.getD_eq_getElem?_getD,
    List.getElem?_eq_getElem h]
  rfl

theorem getD_encodePage (hplain : plain.length = trailerStart) (i : Nat) :
    (encodePage pn bv steps plain trailer).getD i 0 = fillAt pn bv steps i + (plain ++ trailer).getD i 0 := by
  by_cases h : i < trailerStart
  · have hlen := @length_sectorOf (i / sectorSize) (sector_of_lt h) plain hplain.ge
    have hin : i % sectorSize < (sectorOf plain (i / sectorSize)).length := by
      simp only [trailerStart] at h
      rw [hlen]
      simp only [boundary, sectorSize, trailerStart]
      omega
    rw [fillAt, if_pos h, ← getD_sectorOf h, sectorOf_encodePage hplain (sector_of_lt h), getD_encodeSector hin,
      getD_sectorOf h, List.getD_append _ _ _ _ (hplain.symm ▸ h)]
  · have hle := Nat.le_of_not_lt h
    have hlast : trailer.getD (i - trailerStart) 0 =
        ((encodePage pn bv steps plain trailer).drop trailerStart).getD (i - trailerStart) 0 := by
      rw [drop_encodePage hplain]
    rw [fillAt, if_neg h, zero_add, List.getD_append_right _ _ _ _ (hplain.symm ▸ hle), hplain, hlast,
      List.getD_eq_getElem?_getD, List.getD_eq_getElem?_getD, List.getElem?_drop, Nat.add_sub_cancel' hle]

end Bytes

/-- The body of a page under the keys of another one. -/
def bodyOf (pn : Nat) (bv : UInt8) (steps : Nat → UInt8) (found : Bytes) : Bytes :=
  (List.range sectorsPerPage).flatMap fun si => plainUnder (sectorOf found si) (apBase pn si bv) (steps si)

/-- The page that was found differs from the stored one at so few bytes of each sector that, without one zero
byte for each, more than three quarters of the plaintext would still be zero. -/
def Outlasts (plain stored found : Bytes) : Prop :=
  ∀ si < sectorsPerPage, 3 * (sectorOf plain si).length + 4 * distance (sectorOf stored si) (sectorOf found si) <
    4 * (sectorOf plain si).count 0

section Damage

variable {pn si : Nat} {bv : UInt8} {steps : Nat → UInt8} {plain trailer found : Bytes}

theorem bodyOf_lengths (hfound : found.length = pageSize) :
    ∀ si < sectorsPerPage, (plainUnder (sectorOf found si) (apBase pn si bv) (steps si)).length =
      boundary (si + 1) - boundary si := by
  intro si hsi
  rw [length_plainUnder, length_sectorOf hsi (hfound.symm ▸ by decide)]

theorem length_bodyOf (hfound : found.length = pageSize) : (bodyOf pn bv steps found).length = trailerStart := by
  rw [bodyOf, length_blocks (bodyOf_lengths hfound) (Nat.le_refl _), boundary_last]

theorem sectorOf_bodyOf (hfound : found.length = pageSize) (hsi : si < sectorsPerPage) :
    sectorOf (bodyOf pn bv steps found) si = plainUnder (sectorOf found si) (apBase pn si bv) (steps si) := by
  have h := sectorOf_blocks (@bodyOf_lengths pn bv steps found hfound) [] hsi
  rwa [List.append_nil] at h

theorem encodePage_bodyOf (hfound : found.length = pageSize) :
    encodePage pn bv steps (bodyOf pn bv steps found) (found.drop trailerStart) = found := by
  have hsectors : ∀ si ∈ List.range sectorsPerPage,
      encodeSector (apBase pn si bv) (steps si) (sectorOf (bodyOf pn bv steps found) si) = sectorOf found si := by
    intro si hsi
    rw [sectorOf_bodyOf hfound (List.mem_range.mp hsi), encodeSector_plainUnder]
  rw [encodePage, List.flatMap_congr hsectors, flatMap_sectorOf found (Nat.le_refl _), boundary_last,
    List.take_append_drop]

theorem distance_encodeSector (base step : UInt8) (xs ys : Bytes) :
    distance (encodeSector base step xs) (encodeSector base step ys) = distance xs ys :=
  distance_mapIdx (fun _ => add_right_injective _) xs ys

theorem sparsePage_bodyOf (hplain : plain.length = trailerStart) (hfound : found.length = pageSize)
    (houtlasts : Outlasts plain (encodePage pn bv steps plain trailer) found) :
    SparsePage (bodyOf pn bv steps found) := by
  intro si hsi
  have hslack := houtlasts si hsi
  have hlength : (sectorOf plain si).length = (sectorOf (bodyOf pn bv steps found) si).length := by
    rw [length_sectorOf hsi hplain.ge, length_sectorOf hsi (length_bodyOf hfound).ge]
  have hstored : distance (sectorOf (encodePage pn bv steps plain trailer) si) (sectorOf found si) =
      distance (sectorOf plain si) (sectorOf (bodyOf pn bv steps found) si) := by
    rw [sectorOf_encodePage hplain hsi, ← distance_encodeSector (apBase pn si bv) (steps si) (sectorOf plain si),
      sectorOf_bodyOf hfound hsi, encodeSector_plainUnder]
  have hcount := count_le_count_add_distance hlength 0
  rw [hstored, hlength] at hslack
  rw [Sparse]
  omega

theorem deobfuscate_damaged {store : PageStore} {page : Page} (hpage : store.page pn = .ok page)
    (hplain : plain.length = trailerStart)
    (houtlasts : Outlasts plain (encodePage pn bv steps plain trailer) page.bytes) (model : ApModel)
    (order : HashOrder UInt8 Nat) :
    ∃ out, model.deobfuscateWithStore order page.bytes pn store = some out ∧ out.length = pageSize ∧
      ∀ i, out.getD i 0 = (plain ++ trailer).getD i 0 +
        (page.bytes.getD i 0 - (encodePage pn bv steps plain trailer).getD i 0) := by
  have hfound := page.length_eq
  have hbody := @length_bodyOf pn bv steps page.bytes hfound
  have htrailer : (page.bytes.drop trailerStart).length = pageSize - trailerStart := by
    rw [List.length_drop, hfound]
  have hencoded := @encodePage_bodyOf pn bv steps page.bytes hfound
  refine ⟨_, deobfuscateWithStore_of_encoded model order hpage hbody htrailer
    (sparsePage_bodyOf hplain hfound houtlasts) hencoded.symm, ?_, ?_⟩
  · rw [List.length_append, hbody, htrailer]
    decide
  · intro i
    have hbytes := @getD_encodePage pn bv steps _ (page.bytes.drop trailerStart) hbody i
    rw [hencoded] at hbytes
    rw [hbytes, getD_encodePage hplain]
    ring

end Damage

/-- Damage to the file of a database stays where it is: a page whose sectors have zero bytes enough to outlast it
opens, whatever the other pages hold and whatever has been learned, to the page of the plaintext with each byte
moved as far as the file's byte was moved, and so with the bytes that were not hit as they were. -/
theorem damage_stays_local (database : Database) (keys : PageKeys) (store : PageStore)
    (hcount : store.pageCount = database.count) (model : ApModel) (orders : Nat → HashOrder UInt8 Nat) {pn : Nat}
    (hpn : pn < database.count)
    (houtlasts : Outlasts (database.page pn).body (storedPage database keys pn) (store.pageBytes pn)) :
    ∃ page plain, store.page pn = .ok page ∧ peelPage model orders store page = some plain ∧
      ∀ i, plain.bytes.getD i 0 = (database.page pn).bytes.getD i 0 +
        ((store.pageBytes pn).getD i 0 - (storedPage database keys pn).getD i 0) := by
  have hpage := PageStore.page_of_lt (hcount.symm ▸ hpn)
  obtain ⟨out, hout, hlength, hbytes⟩ :=
    deobfuscate_damaged hpage (database.page pn).length_body houtlasts model (orders pn)
  refine ⟨_, ⟨pn, out, hlength⟩, hpage, ?_, hbytes⟩
  rw [peelPage]
  simp only [hout]
  exact pageFromBytes_of_length hlength

section ZeroPage

def zeroKeys : PageKeys := ⟨fun _ => 7, fun _ _ => 3⟩

def hitPage : Bytes := (storedPage default zeroKeys 0).set 515 0

theorem length_hitPage : hitPage.length = pageSize := by
  rw [hitPage, List.length_set, length_storedPage]

theorem outlasts_hitPage : Outlasts (Database.page default 0).body (storedPage default zeroKeys 0) hitPage := by
  intro si hsi
  have hdistance : distance (sectorOf (storedPage default zeroKeys 0) si) (sectorOf hitPage si) ≤ 1 :=
    (distance_part_le _ _ _ _).trans (distance_set_le _ _ _)
  have hsector : sectorOf (Database.page default 0).body si = List.replicate (boundary (si + 1) - boundary si) 0 :=
    sectorOf_zeroBody hsi
  have hlong : 4 < boundary (si + 1) - boundary si := by
    simp only [sectorsPerPage, pageSize, sectorSize] at hsi
    simp only [boundary, sectorSize, trailerStart]
    omega
  rw [hsector, List.count_replicate_self, List.length_replicate]
  omega

theorem damage_stays_local_zeros :
    ∃ page plain, (PageStore.ofPage hitPage length_hitPage).page 0 = .ok page ∧
      peelPage ⟨[], 0⟩ (fun _ => insertionOrder) (PageStore.ofPage hitPage length_hitPage) page = some plain ∧
      ∀ i, plain.bytes.getD i 0 = (Database.page default 0).bytes.getD i 0 +
        (((PageStore.ofPage hitPage length_hitPage).pageBytes 0).getD i 0 - (storedPage default zeroKeys 0).getD i 0) :=
  damage_stays_local default zeroKeys (PageStore.ofPage hitPage length_hitPage)
    (PageStore.pageCount_ofPage length_hitPage) ⟨[], 0⟩ (fun _ => insertionOrder) Nat.one_pos
    ((PageStore.pageBytes_ofPage length_hitPage).symm ▸ outlasts_hitPage)

end ZeroPage

end OpenSqlAny.ApDamage
