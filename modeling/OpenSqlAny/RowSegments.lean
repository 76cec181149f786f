import OpenSqlAny.Library.Faults
import OpenSqlAny.Library.LittleEndian

namespace OpenSqlAny.RowSegments

open Library.Faults Library.LittleEndian

def rowSegmentContinued : UInt8 := 0x04

def rowSegmentHeaderLen : Nat := 3

def continuedRowSegmentHeaderLen : Nat := 9

structure ContinuationTarget where
  resolverKey : UInt32
  recordId : UInt16
  deriving DecidableEq, Repr

/-- The source asserts that the slice has six bytes. -/
def ContinuationTarget.fromLeBytes {ε : Type} (bytes : Bytes) : Outcome ε ContinuationTarget :=
  match bytes with
  | [b₀, b₁, b₂, b₃, b₄, b₅] =>
      .ok ⟨UInt32.ofNat (Library.LittleEndian.fromLeBytes [b₀, b₁, b₂, b₃]),
        UInt16.ofNat (Library.LittleEndian.fromLeBytes [b₄, b₅])⟩
  | _ => panicked

structure RowSegment where
  declaredLen : Nat
  flags : UInt8
  nextTarget : Option ContinuationTarget
  bytes : Bytes
  deriving DecidableEq, Repr

def RowSegment.isContinued (segment : RowSegment) : Bool := segment.nextTarget.isSome

def RowSegment.headerLen (segment : RowSegment) : Nat :=
  if segment.isContinued then continuedRowSegmentHeaderLen else rowSegmentHeaderLen

def RowSegment.payload {ε : Type} (segment : RowSegment) : Outcome ε Bytes :=
  slice segment.bytes segment.headerLen segment.bytes.length

inductive RowSegmentError
  | missingHeader (available : Nat)
  | invalidLength (declared headerLen available : Nat)
  deriving DecidableEq, Repr

def parseRowSegment (input : Bytes) : Outcome RowSegmentError RowSegment :=
  if input.length < rowSegmentHeaderLen then fail (.missingHeader input.length)
  else do
    let declaredLen := Library.LittleEndian.fromLeBytes [← index input 0, ← index input 1]
    let flags ← index input 2
    let continued := flags &&& rowSegmentContinued != 0
    let headerLen := if continued then continuedRowSegmentHeaderLen else rowSegmentHeaderLen
    if declaredLen < headerLen ∨ declaredLen > input.length then
      fail (.invalidLength declaredLen headerLen input.length)
    else do
      let nextTarget ← if continued then do
          let target ← ContinuationTarget.fromLeBytes (← slice input 3 9)
          pure (some target)
        else pure none
      pure ⟨declaredLen, flags, nextTarget, ← slice input 0 declaredLen⟩

structure RowSegmentChainLimits where
  maxSegments : Nat
  maxTotalPayloadBytes : Nat
  deriving DecidableEq, Repr

structure RowSegmentChainSegment where
  target : ContinuationTarget
  flags : UInt8
  declaredLen : Nat
  payload : Bytes
  deriving DecidableEq, Repr

structure RowSegmentChain where
  segments : List RowSegmentChainSegment
  totalPayloadBytes : Nat
  deriving DecidableEq, Repr

inductive RowSegmentChainError (E : Type)
  | invalidSegment (target : ContinuationTarget) (segmentIndex : Nat) (source : RowSegmentError)
  | trailingBytes (target : ContinuationTarget) (segmentIndex declaredLen available : Nat)
  | resolver (target : ContinuationTarget) (source : E)
  | segmentLimit (maxSegments attemptedSegments : Nat)
  | payloadLimit (maxTotalPayloadBytes attemptedTotalPayloadBytes : Nat)
  | cycle (target : ContinuationTarget)
  deriving DecidableEq, Repr

def usizeMax : Nat := 2 ^ 64 - 1

def saturatingAdd (a b : Nat) : Nat := min (a + b) usizeMax

structure WalkState where
  visited : List ContinuationTarget
  segments : List RowSegmentChainSegment
  totalPayloadBytes : Nat
  target : ContinuationTarget
  bytes : Bytes
  deriving DecidableEq, Repr

variable {E σ : Type}

/-- The checks on the current bytes, up to the payload limit: the segment that
is recorded and the target it names. -/
def checkSegment (limits : RowSegmentChainLimits) (st : WalkState) :
    Outcome (RowSegmentChainError E) (RowSegmentChainSegment × Option ContinuationTarget) := do
  let segmentIndex := st.segments.length
  let segment ← mapErr (.invalidSegment st.target segmentIndex) (parseRowSegment st.bytes)
  if segment.declaredLen ≠ st.bytes.length then
    fail (.trailingBytes st.target segmentIndex segment.declaredLen st.bytes.length)
  else do
    let payload ← segment.payload
    let attempted := saturatingAdd st.totalPayloadBytes payload.length
    if payload.length > limits.maxTotalPayloadBytes - st.totalPayloadBytes then
      fail (.payloadLimit limits.maxTotalPayloadBytes attempted)
    else pure (⟨st.target, segment.flags, segment.declaredLen, payload⟩, segment.nextTarget)

/-- The resolver is a closure with a state of its own, so the walk returns that state too. -/
def walkLoop (limits : RowSegmentChainLimits)
    (resolve : σ → ContinuationTarget → Except E Bytes × σ) (st : WalkState) (s : σ) :
    Outcome (RowSegmentChainError E) RowSegmentChain × σ :=
  if st.segments.length ≥ limits.maxSegments then
    (fail (.segmentLimit limits.maxSegments (saturatingAdd st.segments.length 1)), s)
  else
    match checkSegment limits st with
    | .error e => (.error e, s)
    | .ok (segment, nextTarget) =>
        let segments := st.segments ++ [segment]
        let total := st.totalPayloadBytes + segment.payload.length
        match nextTarget with
        | none => (.ok ⟨segments, total⟩, s)
        | some next =>
            if next ∈ st.visited then (fail (.cycle next), s)
            else if segments.length ≥ limits.maxSegments then
              (fail (.segmentLimit limits.maxSegments (saturatingAdd segments.length 1)), s)
            else
              match resolve s next with
              | (.error source, s') => (fail (.resolver next source), s')
              | (.ok resolved, s') =>
                  walkLoop limits resolve ⟨next :: st.visited, segments, total, next, resolved⟩ s'
  termination_by limits.maxSegments - st.segments.length
  decreasing_by simp only [List.length_append, List.length_singleton]; omega

def walkRowSegmentChain (initialTarget : ContinuationTarget) (initialBytes : Bytes)
    (limits : RowSegmentChainLimits) (resolve : σ → ContinuationTarget → Except E Bytes × σ) (s : σ) :
    Outcome (RowSegmentChainError E) RowSegmentChain × σ :=
  walkLoop limits resolve ⟨[initialTarget], [], 0, initialTarget, initialBytes⟩ s

end OpenSqlAny.RowSegments
