import OpenSqlAny.DatabaseReading
import OpenSqlAny.SegmentHeaps

namespace OpenSqlAny.DatabaseValues

open Library.Faults Library.HashEntries Library.LittleEndian PageStores StoreSnapshots SnapshotReads ApFill ApPages
open StoreDecoding DatabaseReading RowSegments SegmentReading SegmentWriting MaterializedWriting SegmentHeaps

/-- The pages of a context over a store. Where the page of a resolver key lies is the caller's to say; it is
read without its fill. -/
def openedPages (model : ApModel) (orders : Nat → HashOrder UInt8 Nat) (store : PageStore)
    (locate : UInt32 → Option Nat) (key : UInt32) : Option Bytes := do
  let pn ← locate key
  let page ← (store.page pn).toOption
  let plain ← peelPage model orders store page
  pure plain.bytes

/-- A value whose segments are records of table pages, each on a page that its resolver key locates. -/
structure StoredValue (database : Database) (locate : UInt32 → Option Nat) where
  first : Piece
  rest : List Piece
  distinct : ((first :: rest).map (·.target)).Nodup
  fits : FitsSegment (first :: rest)
  held : ∀ entry ∈ writeSegments (first :: rest), ∃ pn, ∃ plan : PagePlan,
    locate entry.1.resolverKey = some pn ∧ pn < database.count ∧ (database.page pn).bytes = plan.bytes ∧
      plan.slots[entry.1.recordId.toNat]? = some (some entry.2)

namespace StoredValue

variable {database : Database} {locate : UInt32 → Option Nat} (value : StoredValue database locate)

def pieces : List Piece := value.first :: value.rest

def payload : Bytes := value.pieces.flatMap (·.payload)

end StoredValue

section Opened

variable {database : Database} {keys : PageKeys} {model : ApModel} {orders : Nat → HashOrder UInt8 Nat}
  {locate : UInt32 → Option Nat} {pages : UInt32 → Option Bytes} {target : ContinuationTarget} {row : Bytes} {pn : Nat}

theorem openedPages_stored {key : UInt32} (hlocate : locate key = some pn) (hpn : pn < database.count) :
    openedPages model orders (database.storedUnder keys) locate key = some (database.page pn).bytes := by
  obtain ⟨page, plain, hpage, hplain, hbytes⟩ := @peelPage_page database keys pn model orders hpn
  rw [openedPages, hlocate, ← hbytes]
  change (Except.toOption ((database.storedUnder keys).page pn) >>= _) = _
  rw [hpage]
  change (peelPage model orders (database.storedUnder keys) page >>= _) = _
  rw [hplain]
  rfl

theorem heapResolve_of_page {plan : PagePlan} (hpage : pages target.resolverKey = some plan.bytes)
    (hslot : plan.slots[target.recordId.toNat]? = some (some row)) : heapResolve pages target = .ok row := by
  have hwritten := (@heapResolve_written (fun _ => some plan) target row).mpr ⟨plan, rfl, hslot⟩
  rw [heapResolve, written, Option.map_some] at hwritten
  rw [heapResolve, hpage]
  exact hwritten

end Opened

/-- The values of a stored database are read from its file, in whatever pieces the file is read: a walk whose
context peels the pages, with whatever has been learned, joins the segments of each value that it has room for. -/
theorem database_values_read (database : Database) (keys : PageKeys) (locate : UInt32 → Option Nat)
    (calls : List ReadCall) (hfills : fills (database.count * pageSize) calls = true) :
    ∃ store, openStore true (.ok (fileReader (database.storedUnder keys).bytes (database.count * pageSize)
        (database.count * pageSize) calls)) = some (.ok store) ∧
      ∀ (model : ApModel) (orders : Nat → HashOrder UInt8 Nat) (value : StoredValue database locate)
        (limits : RowSegmentChainLimits), value.pieces.length ≤ limits.maxSegments →
          value.payload.length ≤ limits.maxTotalPayloadBytes →
            ∃ row, heapResolve (openedPages model orders store locate) value.first.target = .ok row ∧
              ∃ chain, walkRowSegmentChain value.first.target row limits
                  (heapCalls (openedPages model orders store locate)) [] =
                  (.ok chain, value.rest.map (·.target)) ∧
                chain.segments.flatMap (·.payload) = value.payload ∧
                chain.segments.map (·.target) = value.pieces.map (·.target) := by
  refine ⟨database.storedUnder keys, openStore_stored database keys hfills, ?_⟩
  intro model orders value limits hsegments hpayload
  have hresolved : ∀ entry ∈ writeSegments (value.first :: value.rest),
      heapResolve (openedPages model orders (database.storedUnder keys) locate) entry.1 = .ok entry.2 := by
    intro entry hentry
    obtain ⟨pn, plan, hlocate, hpn, hbytes, hslot⟩ := value.held entry hentry
    apply heapResolve_of_page _ hslot
    rw [openedPages_stored hlocate hpn, hbytes]
  rw [StoredValue.payload, List.length_flatMap] at hpayload
  obtain ⟨row, hrow, chain, hchain, hbytes, htargets, -⟩ :=
    walk_held value.first value.rest limits value.distinct value.fits hresolved hsegments hpayload
  exact ⟨row, hrow, chain, hchain, hbytes, htargets⟩

section TwoRecords

def firstPiece : Piece := ⟨⟨7, 0⟩, 0x80, [1, 2, 3]⟩

def lastPiece : Piece := ⟨⟨9, 2⟩, 0, [4]⟩

def twoRecords : PagePlan :=
  .blank 5 [some (writePiece firstPiece (some lastPiece)), none, some (writePiece lastPiece none)]
    (by simp; decide) (by decide)

theorem sparsePage_twoRecords : SparsePage (twoRecords.bytes.take trailerStart) := by
  change ∀ si < 8, 3 * (sectorOf _ si).length < 4 * (sectorOf _ si).count 0
  decide +kernel

def twoRecordsPage : PlainPage := .ofBytes twoRecords.bytes twoRecords.length_bytes sparsePage_twoRecords

theorem bytes_twoRecordsPage : twoRecordsPage.bytes = twoRecords.bytes :=
  PlainPage.bytes_ofBytes twoRecords.length_bytes sparsePage_twoRecords

def twoRecordsDatabase : Database := ⟨fun _ => twoRecordsPage, 1, Nat.one_pos, smallInt_fits⟩

def twoRecordsValue : StoredValue twoRecordsDatabase (fun _ => some 0) where
  first := firstPiece
  rest := [lastPiece]
  distinct := by decide
  fits := ⟨by decide, by decide, trivial⟩
  held := by
    simp only [writeSegments, List.forall_mem_cons, List.not_mem_nil, false_implies, implies_true, and_true]
    exact ⟨⟨0, twoRecords, rfl, Nat.one_pos, bytes_twoRecordsPage, rfl⟩,
      ⟨0, twoRecords, rfl, Nat.one_pos, bytes_twoRecordsPage, rfl⟩⟩

theorem database_values_read_twoRecords :
    ∃ store row, heapResolve (openedPages ⟨[], 0⟩ (fun _ => insertionOrder) store (fun _ => some 0)) ⟨7, 0⟩ = .ok row ∧
      ∃ chain, walkRowSegmentChain ⟨7, 0⟩ row ⟨2, 4⟩
          (heapCalls (openedPages ⟨[], 0⟩ (fun _ => insertionOrder) store (fun _ => some 0))) [] =
          (.ok chain, [⟨9, 2⟩]) ∧
        chain.segments.flatMap (·.payload) = [1, 2, 3, 4] := by
  obtain ⟨store, -, hvalues⟩ := database_values_read twoRecordsDatabase ⟨fun _ => 1, fun _ _ => 2⟩ (fun _ => some 0)
    [.interrupted "EINTR" [], .bytes 4000 [], .bytes 96 []] (by decide)
  obtain ⟨row, hrow, chain, hchain, hpayload, -⟩ :=
    hvalues ⟨[], 0⟩ (fun _ => insertionOrder) twoRecordsValue ⟨2, 4⟩ (by decide) (by decide)
  exact ⟨store, row, hrow, chain, hchain, hpayload⟩

end TwoRecords

end OpenSqlAny.DatabaseValues
