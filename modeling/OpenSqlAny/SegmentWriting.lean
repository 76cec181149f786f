import OpenSqlAny.Library.PackedBits
import OpenSqlAny.SegmentChains

namespace OpenSqlAny.SegmentWriting

open Library.Faults Library.LittleEndian Library.PackedBits RowSegments SegmentReading SegmentChains

/-- A fragment of a value, where it is written, and the flag bits of its segment. -/
structure Piece where
  target : ContinuationTarget
  flags : UInt8
  payload : Bytes
  deriving DecidableEq, Repr

def continuedFlags (flags : UInt8) : UInt8 := flags ||| rowSegmentContinued

def lastFlags (flags : UInt8) : UInt8 := flags &&& 0xfb

def segmentFlags (piece : Piece) : Option Piece → UInt8
  | none => lastFlags piece.flags
  | some _ => continuedFlags piece.flags

def writePiece (piece : Piece) (next : Option Piece) : Bytes :=
  segmentBytes (segmentFlags piece next) (next.map (·.target)) piece.payload

def writeSegments : List Piece → List (ContinuationTarget × Bytes)
  | [] => []
  | piece :: rest => (piece.target, writePiece piece rest.head?) :: writeSegments rest

/-- The largest payloads whose segment lengths fit the length word. -/
def FitsSegment : List Piece → Prop
  | [] => True
  | piece :: rest => piece.payload.length ≤ (if rest = [] then 65532 else 65526) ∧ FitsSegment rest

def recordsOf : List Piece → List RowSegmentChainSegment
  | [] => []
  | piece :: rest =>
      ⟨piece.target, segmentFlags piece rest.head?, (writePiece piece rest.head?).length, piece.payload⟩ ::
        recordsOf rest

theorem saysContinued_eq_testBit (flags : UInt8) : saysContinued flags = flags.toNat.testBit 2 := by
  rw [Bool.eq_iff_iff, saysContinued, bne_iff_ne]
  exact and_shifted_one_ne_zero flags rfl

theorem saysContinued_continuedFlags (flags : UInt8) : saysContinued (continuedFlags flags) = true := by
  rw [saysContinued_eq_testBit, continuedFlags, UInt8.toNat_or, Nat.testBit_or,
    show rowSegmentContinued.toNat.testBit 2 = true by decide, Bool.or_true]

theorem saysContinued_lastFlags (flags : UInt8) : saysContinued (lastFlags flags) = false := by
  rw [saysContinued_eq_testBit, lastFlags, UInt8.toNat_and, Nat.testBit_and,
    show (0xfb : UInt8).toNat.testBit 2 = false by decide, Bool.and_false]

theorem saysContinued_segmentFlags (piece : Piece) (next : Option Piece) :
    saysContinued (segmentFlags piece next) = (next.map (·.target)).isSome := by
  cases next with
  | none => exact saysContinued_lastFlags piece.flags
  | some _ => exact saysContinued_continuedFlags piece.flags

theorem writePiece_parses {piece : Piece} {rest : List Piece} (h : FitsSegment (piece :: rest)) :
    ParsesAs (writePiece piece rest.head?)
      (segmentOf (segmentFlags piece rest.head?) (rest.head?.map (·.target)) piece.payload) piece.payload := by
  refine ⟨parseRowSegment_eq_ok_iff.mpr ⟨_, _, _, saysContinued_segmentFlags piece rest.head?, ?_,
    List.prefix_refl _, rfl⟩, (length_segmentBytes _ _ _).symm, payload_segmentOf _ _ _⟩
  have hfits := h.1
  rw [segmentLen]
  cases rest with
  | nil =>
      rw [if_pos rfl] at hfits
      simp only [List.head?_nil, Option.map_none, linkBytes, List.length_nil]
      omega
  | cons next rest =>
      rw [if_neg (by simp)] at hfits
      simp only [List.head?_cons, Option.map_some, linkBytes, length_targetBytes]
      omega

variable {E : Type}

theorem recordOf_writePiece (piece : Piece) (next : Option Piece) :
    recordOf piece.target (segmentOf (segmentFlags piece next) (next.map (·.target)) piece.payload) piece.payload =
      ⟨piece.target, segmentFlags piece next, (writePiece piece next).length, piece.payload⟩ := by
  rw [writePiece, length_segmentBytes]
  rfl

theorem recordsOf_path {f : ContinuationTarget → Except E Bytes} (piece : Piece) (rest : List Piece)
    (hfits : FitsSegment (piece :: rest)) (hf : ∀ entry ∈ writeSegments rest, f entry.1 = .ok entry.2) :
    ChainPath f piece.target (writePiece piece rest.head?) (recordsOf (piece :: rest)) := by
  induction rest generalizing piece with
  | nil =>
      rw [recordsOf, recordsOf, ← recordOf_writePiece]
      exact .last (writePiece_parses hfits) rfl
  | cons next rest ih =>
      obtain ⟨hnext, hrest⟩ := List.forall_mem_cons.mp hf
      have path := ih next hfits.2 hrest
      rw [recordsOf, ← recordOf_writePiece]
      exact .link (writePiece_parses hfits) rfl hnext path

theorem targets_recordsOf (pieces : List Piece) : targets (recordsOf pieces) = pieces.map (·.target) := by
  induction pieces with
  | nil => rfl
  | cons piece rest ih => rw [recordsOf, targets_cons, ih, List.map_cons]

theorem payloads_recordsOf (pieces : List Piece) : (recordsOf pieces).map (·.payload) = pieces.map (·.payload) := by
  induction pieces with
  | nil => rfl
  | cons piece rest ih => rw [recordsOf, List.map_cons, ih, List.map_cons]

theorem length_recordsOf (pieces : List Piece) : (recordsOf pieces).length = pieces.length := by
  simpa using congrArg List.length (payloads_recordsOf pieces)

theorem payloadBytes_recordsOf (pieces : List Piece) :
    payloadBytes (recordsOf pieces) = (pieces.map (·.payload.length)).sum := by
  have h := congrArg (List.map List.length) (payloads_recordsOf pieces)
  rw [List.map_map, List.map_map] at h
  exact congrArg List.sum h

theorem foldl_append_singleton {α : Type} (xs ys : List α) :
    xs.foldl (fun log x => log ++ [x]) ys = ys ++ xs := by
  induction xs generalizing ys with
  | nil => simp
  | cons x xs ih => rw [List.foldl_cons, ih, List.append_assoc, List.singleton_append]

/-- Walking the segments of a split value gives its fragments back in order, and
asks the resolver for each further segment once, in order. -/
theorem walk_writeSegments (f : ContinuationTarget → Except E Bytes) (piece : Piece) (rest : List Piece)
    (hdistinct : ((piece :: rest).map (·.target)).Nodup) (hfits : FitsSegment (piece :: rest))
    (hf : ∀ entry ∈ writeSegments rest, f entry.1 = .ok entry.2) :
    ∃ chain, walkRowSegmentChain piece.target (writePiece piece rest.head?)
        ⟨(piece :: rest).length, ((piece :: rest).map (·.payload.length)).sum⟩
        (fun log target => (f target, log ++ [target])) [] = (.ok chain, rest.map (·.target)) ∧
      chain.segments.map (·.payload) = (piece :: rest).map (·.payload) ∧
      chain.segments.map (·.target) = (piece :: rest).map (·.target) ∧
      chain.totalPayloadBytes = ((piece :: rest).map (·.payload.length)).sum := by
  refine ⟨⟨recordsOf (piece :: rest), payloadBytes (recordsOf (piece :: rest))⟩, ?_,
    payloads_recordsOf _, targets_recordsOf _, payloadBytes_recordsOf _⟩
  apply walkRowSegmentChain_eq_ok_iff.mpr
  refine ⟨_, ⟨recordsOf_path piece rest hfits hf, ?_, (length_recordsOf _).le, (payloadBytes_recordsOf _).le⟩, rfl, ?_⟩
  · rwa [targets_recordsOf]
  · rw [recordsOf, List.tail_cons, targets_recordsOf, foldl_append_singleton, List.nil_append]

theorem walk_writeSegments_two :
    ∃ chain, walkRowSegmentChain ⟨7, 1⟩ (writePiece ⟨⟨7, 1⟩, 0x80, [1, 2, 3]⟩ (some ⟨⟨7, 2⟩, 0x04, [4]⟩)) ⟨2, 4⟩
        (fun log target => (Except.ok (ε := Unit) (writePiece ⟨⟨7, 2⟩, 0x04, [4]⟩ none), log ++ [target])) [] =
          (.ok chain, [⟨7, 2⟩]) ∧
      chain.segments.map (·.payload) = [[1, 2, 3], [4]] := by
  obtain ⟨chain, hchain, hpayloads, -⟩ :=
    walk_writeSegments (fun _ => Except.ok (ε := Unit) (writePiece ⟨⟨7, 2⟩, 0x04, [4]⟩ none))
      ⟨⟨7, 1⟩, 0x80, [1, 2, 3]⟩ [⟨⟨7, 2⟩, 0x04, [4]⟩] (by decide) ⟨by decide, by decide, trivial⟩
      (by simp [writeSegments])
  exact ⟨chain, hchain, hpayloads⟩

end OpenSqlAny.SegmentWriting
