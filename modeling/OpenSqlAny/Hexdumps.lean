import OpenSqlAny.ApCaseSwitch
import OpenSqlAny.Library.HexText
import OpenSqlAny.Library.Windows
import OpenSqlAny.StoreDecoding

namespace OpenSqlAny.Hexdumps

open Library.HashEntries Library.HexText Library.LittleEndian Library.Windows PageStores ApFill ApPages ApCaseSwitch
  StoreDecoding

abbrev Line := List Char

def asciiOrDot (b : UInt8) : Char := if 0x20 ≤ b ∧ b < 0x7F then Char.ofNat b.toNat else '.'

def gap (i : Nat) : List Char := if i = 7 then [' ', ' '] else [' ']

def hexdumpLine (off : Nat) (chunk : Bytes) : Line :=
  paddedHex 8 off ++ [' ', ' '] ++ (chunk.zipIdx.flatMap fun item => hexPair item.1 ++ gap item.2) ++
    ((List.range' chunk.length (16 - chunk.length)).flatMap fun _ => [' ', ' ', ' ']) ++
    [' ', '|'] ++ chunk.map asciiOrDot ++ ['|']

def hexdump (buf : Bytes) (base : Nat) : List Line :=
  (chunks 16 buf).zipIdx.map fun item => hexdumpLine (base + item.2 * 16) item.1

def PageType.debug : PageType → String
  | .extent => "Extent"
  | .alloc => "Alloc"
  | .map => "Map"
  | .header => "Header"
  | .catalog => "Catalog"
  | .bootstrap => "Bootstrap"
  | .index => "Index"
  | .unknownG => "UnknownG"
  | .other b => "Other(" ++ toString b ++ ")"

def upperHex (width n : Nat) : String := String.ofList ((paddedHex width n).map Char.toUpper)

def byteHex (b : UInt8) : String := upperHex 2 b.toNat

def wordHex (w : UInt32) : String := upperHex 8 w.toNat

def dumpPage (hash : Bytes → UInt32) (store : PageStore) (pn : Nat) : Except StoreError (List Line) :=
  match store.page pn with
  | .error e => .error e
  | .ok page =>
      let t := page.trailer
      let title := "page " ++ toString pn ++ "  type " ++ PageType.debug (PageType.fromByte t.pageTypeRaw) ++ "  (0x" ++
        byteHex t.pageTypeRaw ++ ")  flags_ff0/1 = " ++ byteHex t.flagFf0 ++ "/" ++ byteHex t.flagFf1 ++ "  lsn = " ++
        toString t.lsn ++ " (0x" ++ wordHex t.lsn ++ ")"
      let crc := "crc stored = 0x" ++ wordHex page.storedCrc ++ "  computed = 0x" ++ wordHex (page.computedCrc hash) ++
        "  " ++ if page.storedCrc = page.computedCrc hash then "OK" else "MISMATCH"
      .ok (title.toList :: crc.toList :: [] :: hexdump page.bytes 0)

/-- The output of `deob`. None is a failed read or assertion. -/
def deob (orders : LearnOrders) (order : HashOrder UInt8 Nat) (raw : Bool) (store : PageStore) (pn : Nat) :
    Option (Except StoreError (List Line)) :=
  match store.page pn with
  | .error e => some (.error e)
  | .ok page =>
      if raw then
        let t := page.trailer
        let title := "page " ++ toString pn ++ " (raw)  type 0x" ++ byteHex t.pageTypeRaw ++ "  flags " ++
          byteHex t.flagFf0 ++ "/" ++ byteHex t.flagFf1
        some (.ok (title.toList :: hexdump page.bytes 0))
      else
        match (ApModel.learn orders store).deobfuscateWithStore order page.bytes pn store with
        | none => none
        | some plain =>
            match plain[0xFF2]?, plain[0xFF0]?, plain[0xFF1]? with
            | some ptype, some ff0, some ff1 =>
                let title := "page " ++ toString pn ++ " (deobfuscated)  type " ++
                  PageType.debug (PageType.fromByte ptype) ++ " (0x" ++ byteHex ptype ++ ")  flags " ++ byteHex ff0 ++
                  "/" ++ byteHex ff1
                some (.ok (title.toList :: hexdump plain 0))
            | _, _, _ => none

def readLine (line : Line) : Option Bytes := readGroups (line.dropWhile fun c => c != ' ')

def readHexdump (lines : List Line) : Option Bytes := (lines.mapM readLine).map List.flatten

section Reading

variable {chunk buf : Bytes}

theorem eq_space_of_mem_gap {i : Nat} {c : Char} (h : c ∈ gap i) : c = ' ' := by
  rw [gap] at h
  split at h
  · simpa using h
  · simpa using h

theorem readLine_hexdumpLine (off : Nat) (chunk : Bytes) : readLine (hexdumpLine off chunk) = some chunk := by
  have hoffset : ∀ text : List Char, (paddedHex 8 off ++ ' ' :: text).dropWhile (fun c => c != ' ') = ' ' :: text := by
    intro text
    rw [List.dropWhile_append_of_pos, List.dropWhile_cons_of_neg (by decide)]
    intro c hc
    exact bne_iff_ne.mpr (ne_space_of_mem_paddedHex hc)
  have hpadding : ∀ c ∈ (List.range' chunk.length (16 - chunk.length)).flatMap fun _ => [' ', ' ', ' '], c = ' ' := by
    intro c hc
    obtain ⟨_, -, hc⟩ := List.mem_flatMap.mp hc
    simpa using hc
  rw [readLine, hexdumpLine]
  simp only [List.append_assoc]
  rw [List.cons_append, hoffset, readGroups_space, List.cons_append, readGroups_space, List.nil_append,
    readGroups_written chunk.zipIdx Prod.fst (fun item => gap item.2) (fun item _ c hc => eq_space_of_mem_gap hc),
    readGroups_spaces hpadding, List.cons_append, readGroups_space, List.cons_append, readGroups_bar, Option.map_some,
    List.append_nil, List.zipIdx_map_fst]

theorem mapM_readLine (base k : Nat) (lines : List Bytes) :
    ((lines.zipIdx k).map fun item => hexdumpLine (base + item.2 * 16) item.1).mapM readLine = some lines := by
  induction lines generalizing k with
  | nil => rfl
  | cons line lines ih =>
      rw [List.zipIdx_cons, List.map_cons, List.mapM_cons, readLine_hexdumpLine, ih]
      rfl

theorem readHexdump_hexdump (buf : Bytes) (base : Nat) : readHexdump (hexdump buf base) = some buf := by
  rw [readHexdump, hexdump, mapM_readLine, Option.map_some, flatten_chunks (by decide)]

end Reading

section Stored

variable {database : Database} {keys : PageKeys} {orders : LearnOrders} {order : HashOrder UInt8 Nat}
  {hash : Bytes → UInt32} {pn : Nat}

theorem dumpPage_plain (h : pn < database.count) :
    ∃ title crc, dumpPage hash database.plainStore pn = .ok (title :: crc :: [] :: hexdump (database.page pn).bytes 0) := by
  have hpage := PageStore.page_of_lt ((@pageCount_plainStore database).symm ▸ h)
  simp only [dumpPage, hpage, pageBytes_plainStore h]
  exact ⟨_, _, rfl⟩

theorem deob_raw (h : pn < database.count) :
    ∃ title, deob orders order true (database.storedUnder keys) pn =
      some (.ok (title :: hexdump (storedPage database keys pn) 0)) := by
  have hpage := PageStore.page_of_lt ((@pageCount_storedUnder database keys).symm ▸ h)
  simp only [deob, hpage, pageBytes_storedUnder h, if_true]
  exact ⟨_, rfl⟩

theorem deob_plain (h : pn < database.count) :
    ∃ title, deob orders order false (database.storedUnder keys) pn =
      some (.ok (title :: hexdump (database.page pn).bytes 0)) := by
  have hpage := PageStore.page_of_lt ((@pageCount_storedUnder database keys).symm ▸ h)
  have hplain := deobfuscateWithStore_of_encoded (ApModel.learn orders (database.storedUnder keys)) order hpage
    (database.page pn).length_body (database.page pn).length_trailer (database.page pn).sparse
    (pageBytes_storedUnder h)
  have hget : ∀ i, i < pageSize → ∃ b, (database.page pn).bytes[i]? = some b := by
    intro i hi
    have hlt : i < (database.page pn).bytes.length := (database.page pn).length_bytes.symm ▸ hi
    exact ⟨_, List.getElem?_eq_getElem hlt⟩
  obtain ⟨ptype, hptype⟩ := hget 0xFF2 (by decide)
  obtain ⟨ff0, hff0⟩ := hget 0xFF0 (by decide)
  obtain ⟨ff1, hff1⟩ := hget 0xFF1 (by decide)
  change _ = some (database.page pn).bytes at hplain
  simp only [deob, hpage, hplain, hptype, hff0, hff1]
  exact ⟨_, rfl⟩

end Stored

/-- What `deob` lists of a page of a stored database is, but for the title, what `dump-page` lists of the page of
the plaintext, and it reads back as this page; with `--raw` the listing reads back as the stored page. -/
theorem deob_shows_plaintext (database : Database) (keys : PageKeys) (orders : LearnOrders)
    (order : HashOrder UInt8 Nat) (hash : Bytes → UInt32) {pn : Nat} (h : pn < database.count) :
    ∃ lines rawLines,
      (∃ title, deob orders order false (database.storedUnder keys) pn = some (.ok (title :: lines))) ∧
      (∃ title crc, dumpPage hash database.plainStore pn = .ok (title :: crc :: [] :: lines)) ∧
      (∃ title, deob orders order true (database.storedUnder keys) pn = some (.ok (title :: rawLines))) ∧
      readHexdump lines = some (database.page pn).bytes ∧
      readHexdump rawLines = some (storedPage database keys pn) :=
  ⟨_, _, deob_plain h, dumpPage_plain h, deob_raw h, readHexdump_hexdump _ 0, readHexdump_hexdump _ 0⟩

def noisyDatabase : Database :=
  ⟨fun _ => ⟨noisyBody, pureTrailer, length_noisyBody, length_pureTrailer, sparsePage_noisyBody⟩, 3, noisy_pos,
    noisy_fits⟩

def noisyKeys : PageKeys := ⟨fun pn => UInt8.ofNat (7 * pn), fun pn si => UInt8.ofNat (3 * si + pn)⟩

theorem deob_shows_plaintext_noisy :
    ∃ lines rawLines,
      (∃ title, deob plainOrders insertionOrder false (noisyDatabase.storedUnder noisyKeys) 2 =
        some (.ok (title :: lines))) ∧
      (∃ title crc, dumpPage (fun _ => 0) noisyDatabase.plainStore 2 = .ok (title :: crc :: [] :: lines)) ∧
      (∃ title, deob plainOrders insertionOrder true (noisyDatabase.storedUnder noisyKeys) 2 =
        some (.ok (title :: rawLines))) ∧
      readHexdump lines = some (noisyDatabase.page 2).bytes ∧
      readHexdump rawLines = some (storedPage noisyDatabase noisyKeys 2) :=
  deob_shows_plaintext noisyDatabase noisyKeys plainOrders insertionOrder (fun _ => 0) (by decide)

end OpenSqlAny.Hexdumps
