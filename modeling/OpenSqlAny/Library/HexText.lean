import Mathlib.Algebra.Order.Group.Nat

namespace OpenSqlAny.Library.HexText

def hexPair (b : UInt8) : List Char := [Nat.digitChar (b.toNat / 16), Nat.digitChar (b.toNat % 16)]

def hexDigits : List Char := (List.range 16).map Nat.digitChar

def hexValue (c : Char) : Option Nat := hexDigits.findIdx? fun d => d = c

def readPair (high low : Char) : Option UInt8 :=
  match hexValue high, hexValue low with
  | some h, some l => some (UInt8.ofNat (16 * h + l))
  | _, _ => none

theorem hexValue_digitChar {n : Nat} (h : n < 16) : hexValue (Nat.digitChar n) = some n :=
  (show ∀ n < 16, hexValue (Nat.digitChar n) = some n by decide) n h

theorem readPair_hexPair (b : UInt8) :
    readPair (Nat.digitChar (b.toNat / 16)) (Nat.digitChar (b.toNat % 16)) = some b := by
  have hb : b.toNat < 256 := b.toNat_lt
  have hsum : 16 * (b.toNat / 16) + b.toNat % 16 = b.toNat := Nat.div_add_mod b.toNat 16
  rw [readPair, hexValue_digitChar (by omega), hexValue_digitChar (by omega)]
  simp only [hsum, UInt8.ofNat_toNat]

theorem digitChar_ne {n : Nat} (h : n < 16) : Nat.digitChar n ≠ ' ' ∧ Nat.digitChar n ≠ '|' :=
  (show ∀ n < 16, Nat.digitChar n ≠ ' ' ∧ Nat.digitChar n ≠ '|' by decide) n h

def paddedHex (width n : Nat) : List Char :=
  List.replicate (width - (Nat.toDigits 16 n).length) '0' ++ Nat.toDigits 16 n

theorem mem_toDigits_of_small {base : Nat} (hbase : 1 < base) (n : Nat) {c : Char} (h : c ∈ Nat.toDigits base n) :
    ∃ d < base, c = Nat.digitChar d := by
  induction n using Nat.strongRecOn with
  | ind n ih =>
      by_cases hsmall : n < base
      · rw [Nat.toDigits_of_lt_base hsmall, List.mem_singleton] at h
        exact ⟨n, hsmall, h⟩
      · have hquotient : 0 < n / base := Nat.div_pos (Nat.le_of_not_lt hsmall) (by omega)
        have hdigit : n % base < base := Nat.mod_lt n (by omega)
        rw [← Nat.div_add_mod n base, ← Nat.toDigits_append_toDigits hbase hquotient hdigit, List.mem_append] at h
        rcases h with hhigh | hlow
        · exact ih (n / base) (Nat.div_lt_self (by omega) hbase) hhigh
        · rw [Nat.toDigits_of_lt_base hdigit, List.mem_singleton] at hlow
          exact ⟨n % base, hdigit, hlow⟩

theorem ne_space_of_mem_paddedHex {width n : Nat} {c : Char} (h : c ∈ paddedHex width n) : c ≠ ' ' := by
  rcases List.mem_append.mp h with hzero | hdigit
  · rw [List.eq_of_mem_replicate hzero]
    decide
  · obtain ⟨d, hd, rfl⟩ := mem_toDigits_of_small (by decide) n hdigit
    exact (digitChar_ne hd).1

def hexNumber (text : List Char) : Nat := text.foldl (fun n c => 16 * n + (hexValue c.toLower).getD 0) 0

def upperHexDigits (width n : Nat) : List Char := (paddedHex width n).map Char.toUpper

theorem hexValue_upper {n : Nat} (h : n < 16) : hexValue (Nat.digitChar n).toUpper.toLower = some n :=
  (show ∀ n < 16, hexValue (Nat.digitChar n).toUpper.toLower = some n by decide) n h

theorem upper_ne_space {n : Nat} (h : n < 16) : (Nat.digitChar n).toUpper ≠ ' ' :=
  (show ∀ n < 16, (Nat.digitChar n).toUpper ≠ ' ' by decide) n h

theorem hexNumber_zeros (width : Nat) : hexNumber (List.replicate width '0') = 0 := by
  induction width with
  | zero => rfl
  | succ width ih =>
      rw [List.replicate_succ', hexNumber, List.foldl_append]
      change 16 * hexNumber (List.replicate width '0') + _ = 0
      rw [ih]
      rfl

theorem hexNumber_append (front back : List Char) : hexNumber (front ++ back) =
    back.foldl (fun n c => 16 * n + (hexValue c.toLower).getD 0) (hexNumber front) :=
  List.foldl_append

theorem hexNumber_toDigits (n : Nat) : hexNumber ((Nat.toDigits 16 n).map Char.toUpper) = n := by
  induction n using Nat.strongRecOn with
  | ind n ih =>
      by_cases hsmall : n < 16
      · rw [Nat.toDigits_of_lt_base hsmall]
        change 16 * 0 + (hexValue (Nat.digitChar n).toUpper.toLower).getD 0 = n
        rw [hexValue_upper hsmall, Option.getD_some, Nat.mul_zero, Nat.zero_add]
      · have hdigit : n % 16 < 16 := Nat.mod_lt n (by decide)
        rw [← Nat.div_add_mod n 16, ← Nat.toDigits_append_toDigits (by decide) (by omega) hdigit,
          Nat.toDigits_of_lt_base hdigit, List.map_append, hexNumber_append, ih (n / 16) (by omega)]
        change 16 * (n / 16) + (hexValue (Nat.digitChar (n % 16)).toUpper.toLower).getD 0 = _
        rw [hexValue_upper hdigit, Option.getD_some]

theorem hexNumber_zeros_append (width : Nat) (text : List Char) :
    hexNumber (List.replicate width '0' ++ text) = hexNumber text := by
  rw [hexNumber_append, hexNumber_zeros, hexNumber]

theorem hexNumber_upperHexDigits (width n : Nat) : hexNumber (upperHexDigits width n) = n := by
  rw [upperHexDigits, paddedHex, List.map_append, List.map_replicate, show '0'.toUpper = '0' from rfl,
    hexNumber_zeros_append, hexNumber_toDigits]

theorem ne_space_of_mem_upperHexDigits {width n : Nat} {c : Char} (h : c ∈ upperHexDigits width n) : c ≠ ' ' := by
  obtain ⟨d, hd, rfl⟩ := List.mem_map.mp h
  rcases List.mem_append.mp hd with hzero | hdigit
  · rw [List.eq_of_mem_replicate hzero]
    decide
  · obtain ⟨digit, hlt, rfl⟩ := mem_toDigits_of_small (by decide) n hdigit
    exact upper_ne_space hlt

def readGroups : List Char → Option (List UInt8)
  | [] => none
  | c :: rest =>
      if c = ' ' then readGroups rest
      else if c = '|' then some []
      else
        match rest with
        | [] => none
        | d :: rest =>
            match readPair c d, readGroups rest with
            | some b, some bytes => some (b :: bytes)
            | _, _ => none

theorem readGroups_space (rest : List Char) : readGroups (' ' :: rest) = readGroups rest := by
  rw [readGroups.eq_def]
  rfl

theorem readGroups_bar (rest : List Char) : readGroups ('|' :: rest) = some [] := by
  rw [readGroups.eq_def]
  rfl

theorem readGroups_spaces {spaces text : List Char} (h : ∀ c ∈ spaces, c = ' ') :
    readGroups (spaces ++ text) = readGroups text := by
  induction spaces with
  | nil => rfl
  | cons c spaces ih =>
      obtain ⟨hc, hspaces⟩ := List.forall_mem_cons.mp h
      rw [List.cons_append, hc, readGroups_space, ih hspaces]

theorem readGroups_hexPair (b : UInt8) (text : List Char) :
    readGroups (hexPair b ++ text) = (readGroups text).map (b :: ·) := by
  have hb : b.toNat < 256 := b.toNat_lt
  obtain ⟨hspace, hbar⟩ := @digitChar_ne (b.toNat / 16) (by omega)
  change readGroups (Nat.digitChar (b.toNat / 16) :: Nat.digitChar (b.toNat % 16) :: text) = _
  rw [readGroups.eq_def]
  simp only [if_neg hspace, if_neg hbar, readPair_hexPair]
  cases readGroups text with
  | none => rfl
  | some bytes => rfl

/-- Bytes that are written each as a pair of digits and then any number of spaces are read back. -/
theorem readGroups_written {β : Type} (items : List β) (byte : β → UInt8) (gap : β → List Char)
    (hgap : ∀ item ∈ items, ∀ c ∈ gap item, c = ' ') (text : List Char) :
    readGroups ((items.flatMap fun item => hexPair (byte item) ++ gap item) ++ text) =
      (readGroups text).map (items.map byte ++ ·) := by
  induction items with
  | nil => simp
  | cons item items ih =>
      obtain ⟨hitem, hitems⟩ := List.forall_mem_cons.mp hgap
      rw [List.flatMap_cons, List.append_assoc, List.append_assoc, readGroups_hexPair, readGroups_spaces hitem,
        ih hitems, Option.map_map]
      rfl

end OpenSqlAny.Library.HexText
