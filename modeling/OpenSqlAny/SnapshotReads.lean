import OpenSqlAny.StoreSnapshots

namespace OpenSqlAny.SnapshotReads

open Library.Faults Library.LittleEndian PageStores StoreSnapshots

/-- A call that is interrupted, or one that reads at most so many bytes. In both cases the buffer may
be left with further bytes that are not counted. -/
inductive ReadCall
  | interrupted (message : String) (left : Bytes)
  | bytes (most : Nat) (left : Bytes)

def serveReads (file : Bytes) : Nat → Nat → List ReadCall → List ReadAnswer
  | _, _, [] => []
  | pos, room, .interrupted message left :: calls =>
      ⟨left, .error ⟨.interrupted, message⟩⟩ :: serveReads file pos room calls
  | pos, room, .bytes most left :: calls =>
      let chunk := (file.drop pos).take (min most room)
      ⟨chunk ++ left, .ok chunk.length⟩ :: serveReads file (pos + chunk.length) (room - chunk.length) calls

/-- A file that says one size before it is read and another one after. -/
def fileReader (file : Bytes) (size final : Nat) (calls : List ReadCall) : Reader :=
  ⟨.ok size, .ok 0, serveReads file 0 size calls, .ok final⟩

/-- The calls fill a buffer, and none of them is empty before it is full. -/
def fills : Nat → List ReadCall → Bool
  | 0, _ => true
  | _ + 1, [] => false
  | room + 1, .interrupted _ _ :: calls => fills (room + 1) calls
  | room + 1, .bytes most _ :: calls => most != 0 && fills (room + 1 - most) calls

section Reads

variable {file filled buf bytes : Bytes} {calls : List ReadCall} {pos : Nat}

theorem fills_cons_bytes {room most : Nat} {left : Bytes} (hroom : room ≠ 0) :
    fills room (.bytes most left :: calls) = (most != 0 && fills (room - most) calls) := by
  cases room with
  | zero => exact absurd rfl hroom
  | succ room => rfl

theorem fills_cons_interrupted {room : Nat} {message : String} {left : Bytes} (hroom : room ≠ 0) :
    fills room (.interrupted message left :: calls) = fills room calls := by
  cases room with
  | zero => exact absurd rfl hroom
  | succ room => rfl

theorem take_overwrite {chunk left : Bytes} (h : chunk.length ≤ buf.length) :
    (overwrite buf (chunk ++ left)).take chunk.length = chunk := by
  rw [overwrite, List.take_append_of_le_length, List.take_take, Nat.min_eq_left h, List.take_left]
  rw [List.length_take, List.length_append]
  omega

theorem readExact_empty (answers : List ReadAnswer) : readExact filled [] answers = some (.ok filled) := by
  cases answers with
  | nil => rfl
  | cons answer answers => rfl

theorem readExact_serveReads : readExact filled buf (serveReads file pos buf.length calls) = some (.ok bytes) ↔
    buf.length ≤ file.length - pos ∧ fills buf.length calls = true ∧
      bytes = filled ++ (file.drop pos).take buf.length := by
  induction calls generalizing filled buf pos with
  | nil =>
      cases buf with
      | nil => simp [readExact_empty, fills, eq_comm]
      | cons b buf => simp [serveReads, readExact, fills]
  | cons call calls ih =>
      by_cases hempty : buf = []
      · subst hempty
        simp [readExact_empty, fills, eq_comm]
      have hroom : buf.length ≠ 0 := fun hzero => hempty (List.length_eq_zero_iff.mp hzero)
      have hfull : ¬buf.isEmpty = true := fun h => hempty (List.isEmpty_iff.mp h)
      cases call with
      | interrupted message left =>
          rw [serveReads, readExact, if_neg hfull, fills_cons_interrupted hroom]
          simp only [↓reduceIte]
          have hlength := length_overwrite buf left
          have hrest := @ih filled (overwrite buf left) pos
          rw [hlength] at hrest
          exact hrest
      | bytes most left =>
          have hchunk : ((file.drop pos).take (min most buf.length)).length =
              min (min most buf.length) (file.length - pos) := by rw [List.length_take, List.length_drop]
          rw [serveReads, readExact, if_neg hfull, fills_cons_bytes hroom]
          generalize hc : (file.drop pos).take (min most buf.length) = chunk at hchunk
          simp only
          cases hcount : chunk.length with
          | zero =>
              -- An empty call is the end of the file, or a call that asked for nothing.
              refine iff_of_false (by simp [fail]) ?_
              rintro ⟨hle, hfills, -⟩
              obtain ⟨hmost, -⟩ := Bool.and_eq_true_iff.mp hfills
              rw [bne_iff_ne] at hmost
              omega
          | succ n =>
              have hle : chunk.length ≤ buf.length := by omega
              have hnew : ((overwrite buf (chunk ++ left)).drop chunk.length).length = buf.length - chunk.length := by
                rw [List.length_drop, length_overwrite]
              have hrest := @ih (filled ++ chunk) ((overwrite buf (chunk ++ left)).drop chunk.length) (pos + chunk.length)
              rw [hnew] at hrest
              simp only
              rw [← hcount, if_pos (by rwa [length_overwrite]), take_overwrite hle, hrest]
              have hmost : (most != 0) = true := by
                rw [bne_iff_ne]
                omega
              rw [hmost, Bool.true_and]
              have hwhole : buf.length ≤ file.length - pos ↔
                  buf.length - chunk.length ≤ file.length - (pos + chunk.length) := by omega
              rw [← hwhole, List.append_assoc]
              apply and_congr_right
              intro hfile
              have hmin : chunk.length = min most buf.length := by omega
              have hbytes : chunk ++ (file.drop (pos + chunk.length)).take (buf.length - chunk.length) =
                  (file.drop pos).take buf.length := by
                have hfront : chunk = (file.drop pos).take chunk.length := by rw [hmin, hc]
                conv_lhs => rw [hfront, ← List.drop_drop]
                rw [List.length_take_of_le (by rw [List.length_drop]; omega), ← List.take_add,
                  Nat.add_sub_of_le hle]
              rw [hbytes, show buf.length - chunk.length = buf.length - most by omega]

end Reads

section Snapshots

variable {allocates : Bool} {file : Bytes} {size final : Nat} {calls : List ReadCall} {bytes : Bytes}

theorem snapshotBuffer_fileReader (hle : pageSize ≤ size) (haligned : pageSize ∣ size) (hfits : size < 2 ^ 63) :
    snapshotBuffer true (fileReader file size final calls) = .ok (List.replicate size 0) := by
  have hvalid : validated size = .ok () := validated_eq_ok_iff.mpr ⟨hle, haligned⟩
  have hreserved : tryReserveExact true size = .ok () := tryReserveExact_eq_ok_iff.mpr ⟨hfits, rfl⟩
  rw [snapshotBuffer, fileReader]
  simp only [seek, ok_bind, hvalid, hreserved]
  rfl

theorem snapshot_fileReader (hle : pageSize ≤ size) (haligned : pageSize ∣ size) (hfits : size < 2 ^ 63)
    (hfile : size ≤ file.length) (hfills : fills size calls = true) :
    readSizeStableSnapshot true (fileReader file size size calls) = some (.ok (file.take size)) := by
  have hvalid : validated size = .ok () := validated_eq_ok_iff.mpr ⟨hle, haligned⟩
  have hread : readExact [] (List.replicate size 0) (fileReader file size size calls).reads = some (.ok (file.take size)) := by
    have h := @readExact_serveReads file [] (List.replicate size 0) (file.take size) calls 0
    rw [List.length_replicate] at h
    exact h.mpr ⟨hfile, hfills, rfl⟩
  rw [readSizeStableSnapshot, snapshotBuffer_fileReader hle haligned hfits]
  simp only [hread, Option.map_some, mapErr, ok_bind, List.length_replicate]
  rw [settleSnapshot, fileReader]
  simp only [seek, ok_bind, ne_eq, not_true_eq_false, ↓reduceIte, hvalid]
  rfl

theorem allocates_of_snapshotBuffer {reader : Reader} (h : snapshotBuffer allocates reader = .ok bytes) :
    allocates = true := by
  obtain ⟨size, -, h⟩ := bind_eq_ok_iff.mp h
  obtain ⟨_, -, h⟩ := bind_eq_ok_iff.mp h
  obtain ⟨_, -, h⟩ := bind_eq_ok_iff.mp h
  obtain ⟨_, hreserved, -⟩ := bind_eq_ok_iff.mp h
  exact (tryReserveExact_eq_ok_iff.mp hreserved).2

end Snapshots

/-- A file is opened exactly when it says a size of whole pages, that size again after the reads, and has that
many bytes for the reads to fill the buffer with; the store then holds these bytes, however the calls cut them
up and whatever they left behind. -/
theorem openStore_file (allocates : Bool) (file : Bytes) (size final : Nat) (calls : List ReadCall) :
    ((∃ store, openStore allocates (.ok (fileReader file size final calls)) = some (.ok store)) ↔
      pageSize ≤ size ∧ pageSize ∣ size ∧ size < 2 ^ 63 ∧ allocates = true ∧ final = size ∧ size ≤ file.length ∧
        fills size calls = true) ∧
    ∀ store, openStore allocates (.ok (fileReader file size final calls)) = some (.ok store) →
      store.bytes = file.take size := by
  have hopened (store : PageStore) (h : openStore allocates (.ok (fileReader file size final calls)) = some (.ok store)) :
      (allocates = true ∧ final = size ∧ size ≤ file.length ∧ fills size calls = true) ∧ size = store.bytes.length ∧
        store.bytes = file.take size := by
    rw [openStore_eq_ok_iff] at h
    obtain ⟨buf, hbuf, hread, hfinal⟩ := readSizeStableSnapshot_eq_ok h
    obtain ⟨hsize, -⟩ := snapshotBuffer_eq_ok hbuf
    obtain rfl : size = buf.length := Except.ok.inj hsize
    obtain ⟨hfile, hfills, hbytes⟩ := readExact_serveReads.mp hread
    obtain rfl : final = buf.length := Except.ok.inj hfinal
    refine ⟨⟨allocates_of_snapshotBuffer hbuf, rfl, hfile, hfills⟩, ?_, hbytes⟩
    rw [hbytes, List.nil_append, List.drop_zero, List.length_take_of_le hfile]
  refine ⟨⟨?_, ?_⟩, fun store h => (hopened store h).2.2⟩
  · rintro ⟨store, h⟩
    obtain ⟨hmet, rfl, -⟩ := hopened store h
    exact ⟨store.pageSize_le, store.aligned, store.fits, hmet⟩
  · rintro ⟨hle, haligned, hfits, rfl, rfl, hfile, hfills⟩
    have hlength : (file.take final).length = final := List.length_take_of_le hfile
    refine ⟨⟨file.take final, hlength.symm ▸ hle, hlength.symm ▸ haligned, hlength.symm ▸ hfits⟩, ?_⟩
    rw [openStore_eq_ok_iff]
    exact snapshot_fileReader hle haligned hfits hfile hfills

end OpenSqlAny.SnapshotReads
