import OpenSqlAny.Library.Faults
import OpenSqlAny.PageStores

namespace OpenSqlAny.StoreSnapshots

open Library.Faults Library.LittleEndian PageStores

inductive IoErrorKind
  | invalidData
  | outOfMemory
  | unexpectedEof
  | interrupted
  | other
  deriving DecidableEq, Repr

structure IoError where
  kind : IoErrorKind
  message : String
  deriving DecidableEq, Repr

inductive OpenError
  | io (error : IoError)
  | store (error : StoreError)
  deriving DecidableEq, Repr

/-- What a reader does with the buffer it is handed: it may write more than it counts, and also when it fails. -/
structure ReadAnswer where
  written : Bytes
  count : Except IoError Nat

structure Reader where
  initialSize : Except IoError Nat
  rewound : Except IoError Nat
  reads : List ReadAnswer
  finalSize : Except IoError Nat

def overwrite (buf written : Bytes) : Bytes := written.take buf.length ++ buf.drop written.length

/-- The loop of `read_exact`, without a result where the reader has to be asked once more. -/
def readExact : Bytes → Bytes → List ReadAnswer → Option (Outcome IoError Bytes)
  | filled, buf, [] => if buf.isEmpty then some (.ok filled) else none
  | filled, buf, answer :: answers =>
      if buf.isEmpty then some (.ok filled)
      else
        let buf := overwrite buf answer.written
        match answer.count with
        | .error e => if e.kind = .interrupted then readExact filled buf answers else some (fail e)
        | .ok 0 => some (fail ⟨.unexpectedEof, "failed to fill whole buffer"⟩)
        | .ok (n + 1) =>
            -- the slice that advances the buffer panics on a count beyond its end
            if n + 1 ≤ buf.length then readExact (filled ++ buf.take (n + 1)) (buf.drop (n + 1)) answers
            else some panicked

def validateStoreSize (size : Nat) : Except StoreError Unit :=
  if size < pageSize then .error (.tooSmall size)
  else if pageSize ∣ size then .ok ()
  else .error (.notPageAligned size pageSize)

def seek (answer : Except IoError Nat) : Outcome OpenError Nat :=
  match answer with
  | .ok position => .ok position
  | .error e => fail (.io e)

def validated (size : Nat) : Outcome OpenError Unit :=
  match validateStoreSize size with
  | .ok () => .ok ()
  | .error e => fail (.store e)

/-- No vector reserves more than `isize::MAX` bytes, whatever the allocator answers. -/
def tryReserveExact (allocates : Bool) (capacity : Nat) : Outcome OpenError Unit :=
  if capacity < 2 ^ 63 ∧ allocates = true then .ok ()
  else fail (.io ⟨.outOfMemory, "unable to allocate page-store snapshot"⟩)

def snapshotBuffer (allocates : Bool) (reader : Reader) : Outcome OpenError Bytes := do
  let initialSize ← seek reader.initialSize
  validated initialSize
  let _ ← seek reader.rewound
  tryReserveExact allocates initialSize
  return List.replicate initialSize 0

def settleSnapshot (initialSize : Nat) (reader : Reader) (bytes : Bytes) : Outcome OpenError Bytes := do
  let finalSize ← seek reader.finalSize
  if finalSize ≠ initialSize then
    fail (.io ⟨.invalidData, "page-store changed while its snapshot was read"⟩)
  else
    validated finalSize
    return bytes

def readSizeStableSnapshot (allocates : Bool) (reader : Reader) : Option (Outcome OpenError Bytes) :=
  match snapshotBuffer allocates reader with
  | .error fault => some (.error fault)
  | .ok buf =>
      (readExact [] buf reader.reads).map fun read =>
        mapErr .io read >>= settleSnapshot buf.length reader

section Buffers

variable {filled buf bytes : Bytes} {answers : List ReadAnswer}

theorem length_overwrite (buf written : Bytes) : (overwrite buf written).length = buf.length := by
  rw [overwrite, List.length_append, List.length_take, List.length_drop]
  omega

theorem length_readExact (h : readExact filled buf answers = some (.ok bytes)) :
    bytes.length = filled.length + buf.length := by
  induction answers generalizing filled buf with
  | nil =>
      rw [readExact] at h
      split at h
      · rename_i hempty
        obtain rfl := List.isEmpty_iff.mp hempty
        cases h
        rfl
      · cases h
  | cons answer answers ih =>
      have hlength := length_overwrite buf answer.written
      rw [readExact] at h
      split at h
      · rename_i hempty
        obtain rfl := List.isEmpty_iff.mp hempty
        cases h
        rfl
      · simp only at h
        split at h
        · split at h
          · rw [ih h, hlength]
          · cases h
        · cases h
        · split at h
          · rename_i hcount
            rw [ih h, List.length_append, List.length_take, List.length_drop]
            omega
          · cases h

theorem validateStoreSize_eq_ok_iff {size : Nat} :
    validateStoreSize size = .ok () ↔ pageSize ≤ size ∧ pageSize ∣ size := by
  rw [validateStoreSize]
  split
  · rename_i hsmall
    simp [hsmall]
  · rename_i hlarge
    split
    · rename_i haligned
      simp [haligned, Nat.le_of_not_lt hlarge]
    · rename_i hodd
      simp [hodd]

theorem validated_eq_ok_iff {size : Nat} : validated size = .ok () ↔ pageSize ≤ size ∧ pageSize ∣ size := by
  rw [← validateStoreSize_eq_ok_iff, validated]
  cases validateStoreSize size with
  | error e => simp [fail]
  | ok u => simp

theorem seek_eq_ok_iff {answer : Except IoError Nat} {position : Nat} :
    seek answer = .ok position ↔ answer = .ok position := by
  cases answer with
  | error e => simp [seek, fail]
  | ok p => simp [seek]

theorem tryReserveExact_eq_ok_iff {allocates : Bool} {capacity : Nat} :
    tryReserveExact allocates capacity = .ok () ↔ capacity < 2 ^ 63 ∧ allocates = true := by
  rw [tryReserveExact]
  by_cases h : capacity < 2 ^ 63 ∧ allocates = true
  · rw [if_pos h]
    exact iff_of_true rfl h
  · rw [if_neg h]
    exact iff_of_false (by simp [fail]) h

end Buffers

section Snapshots

variable {allocates : Bool} {reader : Reader} {bytes buf : Bytes}

theorem snapshotBuffer_eq_ok (h : snapshotBuffer allocates reader = .ok buf) :
    reader.initialSize = .ok buf.length ∧ pageSize ≤ buf.length ∧ pageSize ∣ buf.length ∧ buf.length < 2 ^ 63 := by
  obtain ⟨initialSize, hinitial, h⟩ := bind_eq_ok_iff.mp h
  obtain ⟨_, hvalid, h⟩ := bind_eq_ok_iff.mp h
  obtain ⟨_, -, h⟩ := bind_eq_ok_iff.mp h
  obtain ⟨_, hreserved, h⟩ := bind_eq_ok_iff.mp h
  cases h
  rw [List.length_replicate]
  obtain ⟨hle, hdvd⟩ := validated_eq_ok_iff.mp hvalid
  exact ⟨seek_eq_ok_iff.mp hinitial, hle, hdvd, (tryReserveExact_eq_ok_iff.mp hreserved).1⟩

theorem settleSnapshot_eq_ok {initialSize : Nat} {read : Bytes}
    (h : settleSnapshot initialSize reader read = .ok bytes) :
    bytes = read ∧ reader.finalSize = .ok initialSize := by
  obtain ⟨finalSize, hfinal, h⟩ := bind_eq_ok_iff.mp h
  split at h
  · cases h
  · rename_i hsame
    obtain ⟨_, -, h⟩ := bind_eq_ok_iff.mp h
    cases h
    rw [← not_not.mp hsame]
    exact ⟨rfl, seek_eq_ok_iff.mp hfinal⟩

theorem readSizeStableSnapshot_eq_ok (h : readSizeStableSnapshot allocates reader = some (.ok bytes)) :
    ∃ buf, snapshotBuffer allocates reader = .ok buf ∧ readExact [] buf reader.reads = some (.ok bytes) ∧
      reader.finalSize = .ok buf.length := by
  rw [readSizeStableSnapshot] at h
  split at h
  · cases h
  · rename_i buf hbuf
    obtain ⟨read, hread, hsettled⟩ := Option.map_eq_some_iff.mp h
    obtain ⟨filled, hfilled, hsettled⟩ := bind_eq_ok_iff.mp hsettled
    obtain ⟨rfl, hfinal⟩ := settleSnapshot_eq_ok hsettled
    rw [mapErr_eq_ok_iff] at hfilled
    exact ⟨buf, hbuf, by rw [hread, hfilled], hfinal⟩

theorem readSizeStableSnapshot_size (h : readSizeStableSnapshot allocates reader = some (.ok bytes)) :
    reader.initialSize = .ok bytes.length ∧ reader.finalSize = .ok bytes.length ∧ pageSize ≤ bytes.length ∧
      pageSize ∣ bytes.length ∧ bytes.length < 2 ^ 63 := by
  obtain ⟨buf, hbuf, hread, hfinal⟩ := readSizeStableSnapshot_eq_ok h
  have hlength := length_readExact hread
  rw [List.length_nil, Nat.zero_add] at hlength
  obtain ⟨hinitial, hvalid⟩ := snapshotBuffer_eq_ok hbuf
  rw [hlength]
  exact ⟨hinitial, hfinal, hvalid⟩

def ofSnapshot (h : readSizeStableSnapshot allocates reader = some (.ok bytes)) : PageStore :=
  have hsize := (readSizeStableSnapshot_size h).2.2
  ⟨bytes, hsize.1, hsize.2.1, hsize.2.2⟩

def openStore (allocates : Bool) (file : Except IoError Reader) : Option (Outcome OpenError PageStore) :=
  match file with
  | .error e => some (fail (.io e))
  | .ok reader =>
      match h : readSizeStableSnapshot allocates reader with
      | none => none
      | some (.error fault) => some (.error fault)
      | some (.ok _) => some (.ok (ofSnapshot h))

theorem openStore_eq_ok_iff {store : PageStore} :
    openStore allocates (.ok reader) = some (.ok store) ↔
      readSizeStableSnapshot allocates reader = some (.ok store.bytes) := by
  rw [openStore]
  split
  · rename_i h
    simp [h]
  · rename_i h
    simp [h]
  · rename_i bytes h
    constructor
    · intro hopened
      cases hopened
      exact h
    · intro hread
      cases store with
      | mk bytes' pageSize_le aligned fits =>
          cases h.symm.trans hread
          rfl

end Snapshots

end OpenSqlAny.StoreSnapshots
