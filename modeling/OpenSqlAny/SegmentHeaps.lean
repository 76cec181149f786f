import OpenSqlAny.MaterializedWriting
import OpenSqlAny.SegmentResolving
import OpenSqlAny.SegmentWriting

namespace OpenSqlAny.SegmentHeaps

open Library.Faults Library.LittleEndian Library.Rounds RowSegments SegmentReading SegmentChains SegmentResolving
open SegmentWriting MaterializedPages MaterializedReading MaterializedWriting

inductive HeapError
  | noPage (resolverKey : UInt32)
  | page (fault : Fault MaterializedPageError)
  deriving DecidableEq, Repr

/-- A context of the kind that a walk asks of its caller: the resolver key selects
a materialized page, and the record identifier is looked up in its directory. -/
def heapResolve (pages : UInt32 → Option Bytes) (target : ContinuationTarget) : Except HeapError Bytes :=
  match pages target.resolverKey with
  | none => .error (.noPage target.resolverKey)
  | some bytes =>
      match MaterializedTablePage.parse bytes >>= fun page => page.record target.recordId with
      | .ok record => .ok record.bytes
      | .error fault => .error (.page fault)

def written (plans : UInt32 → Option PagePlan) (key : UInt32) : Option Bytes := (plans key).map PagePlan.bytes

/-- Some page has this row under the target. -/
def Holds (plans : UInt32 → Option PagePlan) (target : ContinuationTarget) (row : Bytes) : Prop :=
  ∃ plan, plans target.resolverKey = some plan ∧ plan.slots[target.recordId.toNat]? = some (some row)

section Written

variable {plans : UInt32 → Option PagePlan} {target : ContinuationTarget} {row : Bytes}

theorem heapResolve_written : heapResolve (written plans) target = .ok row ↔ Holds plans target row := by
  rw [heapResolve, written, Holds]
  cases hplan : plans target.resolverKey with
  | none => simp
  | some plan =>
      have hparse : MaterializedTablePage.parse plan.bytes = .ok (pageOf plan.bytes) :=
        parse_eq_ok_iff.mpr ⟨plan.wellFormed_bytes, rfl⟩
      have hrecord := record_written plan target.recordId
      simp only [Option.map_some, Option.some.injEq, exists_eq_left', hparse, ok_bind]
      rw [← lookup_eq_ok_iff, ← hrecord]
      cases (pageOf plan.bytes).record target.recordId with
      | ok record => simp [Except.map]
      | error fault => simp [Except.map]

end Written

def heapCalls (pages : UInt32 → Option Bytes) (log : List ContinuationTarget) (target : ContinuationTarget) :
    Except HeapError Bytes × List ContinuationTarget :=
  (heapResolve pages target, log ++ [target])

theorem walk_held {pages : UInt32 → Option Bytes} (piece : Piece) (rest : List Piece)
    (limits : RowSegmentChainLimits) (hdistinct : ((piece :: rest).map (·.target)).Nodup)
    (hfits : FitsSegment (piece :: rest))
    (hresolved : ∀ entry ∈ writeSegments (piece :: rest), heapResolve pages entry.1 = .ok entry.2)
    (hsegments : (piece :: rest).length ≤ limits.maxSegments)
    (hpayload : ((piece :: rest).map (·.payload.length)).sum ≤ limits.maxTotalPayloadBytes) :
    ∃ row, heapResolve pages piece.target = .ok row ∧
      ∃ chain, walkRowSegmentChain piece.target row limits (heapCalls pages) [] =
          (.ok chain, rest.map (·.target)) ∧
        chain.segments.flatMap (·.payload) = (piece :: rest).flatMap (·.payload) ∧
        chain.segments.map (·.target) = (piece :: rest).map (·.target) ∧
        chain.totalPayloadBytes = ((piece :: rest).map (·.payload.length)).sum := by
  rw [writeSegments, List.forall_mem_cons] at hresolved
  obtain ⟨hfirst, hrest⟩ := hresolved
  refine ⟨_, hfirst, ⟨recordsOf (piece :: rest), payloadBytes (recordsOf (piece :: rest))⟩, ?_, ?_,
    targets_recordsOf _, payloadBytes_recordsOf _⟩
  · apply walkRowSegmentChain_eq_ok_iff.mpr
    refine ⟨_, ⟨recordsOf_path piece rest hfits hrest, ?_, ?_, ?_⟩, rfl, ?_⟩
    · rwa [targets_recordsOf]
    · rwa [length_recordsOf]
    · rwa [payloadBytes_recordsOf]
    · rw [recordsOf, List.tail_cons, targets_recordsOf, foldl_append_singleton, List.nil_append]
  · rw [List.flatMap_def, payloads_recordsOf, ← List.flatMap_def]

/-- A value whose segments are rows of materialized pages, in any order and beside any other
rows, is read back by a walk from its first row, under all limits that the value fits in. -/
theorem walk_written (plans : UInt32 → Option PagePlan) (piece : Piece) (rest : List Piece)
    (limits : RowSegmentChainLimits) (hdistinct : ((piece :: rest).map (·.target)).Nodup)
    (hfits : FitsSegment (piece :: rest))
    (hheld : ∀ entry ∈ writeSegments (piece :: rest), Holds plans entry.1 entry.2)
    (hsegments : (piece :: rest).length ≤ limits.maxSegments)
    (hpayload : ((piece :: rest).map (·.payload.length)).sum ≤ limits.maxTotalPayloadBytes) :
    ∃ row, heapResolve (written plans) piece.target = .ok row ∧
      ∃ chain, walkRowSegmentChain piece.target row limits (heapCalls (written plans)) [] =
          (.ok chain, rest.map (·.target)) ∧
        chain.segments.flatMap (·.payload) = (piece :: rest).flatMap (·.payload) ∧
        chain.segments.map (·.target) = (piece :: rest).map (·.target) ∧
        chain.totalPayloadBytes = ((piece :: rest).map (·.payload.length)).sum := by
  apply walk_held piece rest limits hdistinct hfits _ hsegments hpayload
  intro entry hentry
  exact heapResolve_written.mpr (hheld entry hentry)

def twoPages : UInt32 → Option PagePlan
  | 7 => some (.blank 7 [some (writePiece ⟨⟨7, 0⟩, 0x80, [1, 2, 3]⟩ (some ⟨⟨9, 1⟩, 0, [4]⟩))]
      (by simp; decide) (by decide))
  | 9 => some (.blank 9 [none, some (writePiece ⟨⟨9, 1⟩, 0, [4]⟩ none)] (by simp; decide) (by decide))
  | _ => none

theorem walk_written_two :
    ∃ row, heapResolve (written twoPages) ⟨7, 0⟩ = .ok row ∧
      ∃ chain, walkRowSegmentChain ⟨7, 0⟩ row ⟨5, 100⟩ (heapCalls (written twoPages)) [] = (.ok chain, [⟨9, 1⟩]) ∧
        chain.segments.flatMap (·.payload) = [1, 2, 3, 4] := by
  obtain ⟨row, hrow, chain, hchain, hpayload, -⟩ :=
    walk_written twoPages ⟨⟨7, 0⟩, 0x80, [1, 2, 3]⟩ [⟨⟨9, 1⟩, 0, [4]⟩] ⟨5, 100⟩ (by decide)
      ⟨by decide, by decide, trivial⟩
      (by
        simp only [writeSegments, List.forall_mem_cons, List.not_mem_nil, false_implies, implies_true, and_true]
        exact ⟨⟨_, rfl, rfl⟩, ⟨_, rfl, rfl⟩⟩)
      (by decide) (by decide)
  exact ⟨row, hrow, chain, hchain, hpayload⟩

end OpenSqlAny.SegmentHeaps
