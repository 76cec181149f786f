import OpenSqlAny.CarrierReading
import OpenSqlAny.MaterializedWriting
import OpenSqlAny.SegmentResolving

namespace OpenSqlAny.RecordBoundaries

open Library.Faults Library.CursorReader Library.ErrorClasses Library.LittleEndian Library.Rounds
open RowTypes RowDecoder RowHeader RowSoundness RowErrors RowSegments SegmentReading SegmentChains SegmentResolving
open CarrierReading MaterializedPages MaterializedReading MaterializedWriting

variable {schema : RowSchema} {b : Bytes} {E σ : Type}

def IsRecord (b : Bytes) : Prop :=
  ∃ bytes page recordId record, MaterializedTablePage.parse bytes = .ok page ∧
    page.record recordId = .ok record ∧ record.bytes = b

theorem IsRecord.spanned (h : IsRecord b) : Spanned b := by
  obtain ⟨bytes, page, recordId, record, hparse, hrecord, rfl⟩ := h
  obtain ⟨hpage, hinside⟩ := recordInside_of_record hparse hrecord
  have hafter := hinside.afterDirectory
  have hend := hinside.insidePage
  rw [directoryStop, directoryOffset] at hafter
  rw [hpage.length] at hend
  exact ⟨hinside.ownLength, hinside.atLeastTwo, by omega⟩

/-- The errors of a row header that is not the one its record was cut out with. -/
def HeaderError : DecodeError → Prop
  | .missingRowHeader | .invalidRowSize _ _ | .unsupportedRowFlags _ => True
  | _ => False

theorem not_headerError {e : DecodeError} (h : BodyError e) : ¬HeaderError e := by
  cases h with
  | column column names =>
      cases e with
      | missingRowHeader | invalidRowSize | unsupportedRowFlags => cases names
      | _ => exact id
  | tail needed remaining => exact id

variable (schema) in
theorem decodeRow_raises (h : Spanned b) :
    Raises (fun e => ¬HeaderError e) (decodeRow b schema) := by
  rw [h.decodeRow_eq]
  apply Raises.ite
  · intro _
    exact .fail id
  · intro _
    exact (decodeFrom_raises _).mono fun e he => not_headerError he

/-- The errors of a carrier that ends short of its record, and of a wrong row header. -/
def CarrierBoundaryError : DecodeError → Prop
  | .trailingMaterializedRowCarrier _ | .invalidRowSize _ _ | .unsupportedRowFlags _ => True
  | _ => False

theorem not_boundary {e : DecodeError} (h : ExactError e) : ¬CarrierBoundaryError e := by
  cases h with
  | body h =>
      cases h with
      | column column names =>
          cases e with
          | trailingMaterializedRowCarrier | invalidRowSize | unsupportedRowFlags => cases names
          | _ => exact id
      | tail needed remaining => exact id
  | trailing remaining => exact id

variable (schema) in
theorem decodeMaterialized_raises (h : Spanned b) :
    Raises (fun e => ¬CarrierBoundaryError e) (decodeMaterializedRowRecordExact b schema) := by
  by_cases hcarrier : ZeroFlagCarrier b
  · have hsize := h.size
    have hheader := hcarrier.header
    rw [decodeMaterialized_of_carrier hcarrier]
    refine (decodeRowExact_raises schema (spanned_envelope ?_)).mono fun e he => not_boundary he
    rw [List.length_drop]
    omega
  · obtain ⟨e, he, hclass⟩ := decodeMaterialized_of_not schema hcarrier
    rw [he]
    apply Raises.fail
    cases hclass with
    | trailing shorter remaining => exact absurd h.word shorter
    | header | continued | flags => exact id

def selectedHeaderLen (b : Bytes) : Nat := headerLenOf (b.getD 2 0)

theorem declaredLen_eq (h : Spanned b) {segment : RowSegment} (hparse : parseRowSegment b = .ok segment) :
    segment.declaredLen = b.length := by
  obtain ⟨flags, next, payload, -, hlen, hbegins, rfl⟩ := parseRowSegment_eq_ok_iff.mp hparse
  exact (rawSize_of_begins hlen hbegins).symm.trans h.word

theorem fromLeBytes_target_ne_error {ε : Type} {bytes : Bytes} (hlen : bytes.length = 6) (fault : Fault ε) :
    ContinuationTarget.fromLeBytes bytes ≠ .error fault := by
  match bytes, hlen with
  | [_, _, _, _, _, _], _ => simp [ContinuationTarget.fromLeBytes]

theorem parse_fails (h : Spanned b) {fault : Fault RowSegmentError}
    (hparse : parseRowSegment b = .error fault) : b.length < selectedHeaderLen b := by
  have hzero : headerLenOf 0 = 3 := by decide
  match b, h with
  | [], h => exact absurd h.header (by decide)
  | [x], h => exact absurd h.header (Nat.not_le.mpr (Nat.lt_add_one 1))
  | [x, y], _ =>
      change 2 < headerLenOf 0
      rw [hzero]
      decide
  | x :: y :: flags :: rest, h =>
      by_contra hfits
      have hheader : headerLenOf flags ≤ (x :: y :: flags :: rest).length := Nat.le_of_not_lt hfits
      have hword : Library.LittleEndian.fromLeBytes [x, y] = (x :: y :: flags :: rest).length := h.word
      rw [parseRowSegment_cons, hword] at hparse
      simp only [gt_iff_lt, lt_self_iff_false, or_false, Nat.not_lt.mpr hheader, ↓reduceIte] at hparse
      split at hparse
      next hcontinued =>
        rw [headerLenOf, if_pos hcontinued, continuedRowSegmentHeaderLen] at hheader
        cases htarget : ContinuationTarget.fromLeBytes (ε := RowSegmentError) (rest.take 6) with
        | error fault =>
            refine fromLeBytes_target_ne_error ?_ fault htarget
            simp only [List.length_cons] at hheader
            rw [List.length_take]
            omega
        | ok target =>
            rw [htarget] at hparse
            cases hparse
      next => cases hparse

def IsTrailing : RowSegmentChainError E → Prop
  | .trailingBytes _ _ _ _ => True
  | _ => False

theorem checkSegment_raises {st : WalkState} (h : Spanned st.bytes) (limits : RowSegmentChainLimits) :
    Raises (fun e => ¬IsTrailing e) (checkSegment (E := E) limits st) := by
  apply Raises.bind (.mapErr (fun _ => id) _)
  intro segment hparse
  apply Raises.ite
  · intro hlen
    exact absurd (declaredLen_eq h (mapErr_eq_ok_iff.mp hparse)) hlen
  · intro _
    apply Raises.bind (.slice segment.bytes _ _)
    intro payload _
    exact .ite (fun _ => .fail id) fun _ => .ok _

theorem round_not_trailing {limits : RowSegmentChainLimits}
    {resolve : σ → ContinuationTarget → Except E Bytes × σ} {st : WalkState} (h : Spanned st.bytes) {s s' : σ}
    {outcome : WalkOutcome E} (hround : walkRound limits resolve (st, s) = .returns (outcome, s')) :
    Raises (fun e => ¬IsTrailing e) outcome := by
  rw [walkRound] at hround
  split at hround
  · cases hround
    exact .fail id
  split at hround
  next e hcheck =>
    cases hround
    refine ⟨fun source hsource => ?_⟩
    cases hsource
    exact (checkSegment_raises h limits).error source hcheck
  · cases hround
    exact .ok _
  split at hround
  · cases hround
    exact .fail id
  split at hround
  · cases hround
    exact .fail id
  split at hround
  · cases hround
    exact .fail id
  · cases hround

theorem walk_not_trailing (initialTarget : ContinuationTarget) {initialBytes : Bytes} (limits : RowSegmentChainLimits)
    (resolve : σ → ContinuationTarget → Except E Bytes × σ) (s : σ) (hinitial : IsRecord initialBytes)
    (hresolve : ∀ s target rest, (resolve s target).1 = .ok rest → IsRecord rest) :
    Raises (fun e => ¬IsTrailing e) (walkRowSegmentChain initialTarget initialBytes limits resolve s).1 := by
  rw [← (walkRowSegmentChain_logged initialTarget initialBytes limits resolve s).1]
  obtain ⟨n, -, ⟨st, s', calls⟩, reached, round⟩ := walk_returns initialTarget initialBytes limits resolve s
  have hrecord : IsRecord st.bytes := by
    refine reached.invariant (fun _ head => IsRecord head.1.bytes) hinitial ?_
    rintro n ⟨st, s, calls⟩ head' - hround
    obtain ⟨record, next, resolved, s', -, hresolved, rfl⟩ := walkRound_goesOn_iff.mp hround
    exact hresolve s next resolved (congrArg Prod.fst hresolved)
  exact round_not_trailing hrecord.spanned round

theorem ne_of_not_headerError {e : DecodeError} (h : ¬HeaderError e) :
    e ≠ .missingRowHeader ∧ (∀ declared available, e ≠ .invalidRowSize declared available) ∧
      ∀ flags, e ≠ .unsupportedRowFlags flags := by
  refine ⟨?_, ?_, ?_⟩
  · rintro rfl
    exact h trivial
  · rintro declared available rfl
    exact h trivial
  · rintro flags rfl
    exact h trivial

theorem ne_of_not_carrierBoundaryError {e : DecodeError} (h : ¬CarrierBoundaryError e) :
    (∀ remaining, e ≠ .trailingMaterializedRowCarrier remaining) ∧
      (∀ declared available, e ≠ .invalidRowSize declared available) ∧ ∀ flags, e ≠ .unsupportedRowFlags flags := by
  refine ⟨?_, ?_, ?_⟩
  · rintro remaining rfl
    exact h trivial
  · rintro declared available rfl
    exact h trivial
  · rintro flags rfl
    exact h trivial

/-- Rows, segments, carriers and chains all end a record where its page ends it. -/
theorem materializedRecord_boundaries :
    (∀ b, IsRecord b →
      (∀ schema : RowSchema,
        (∀ e, decodeRow b schema = fail e →
          e ≠ .missingRowHeader ∧ (∀ declared available, e ≠ .invalidRowSize declared available) ∧
            ∀ flags, e ≠ .unsupportedRowFlags flags) ∧
        (∀ r, decodeRow b schema = .ok r → r.declaredSize = b.length) ∧
        ∀ e, decodeMaterializedRowRecordExact b schema = fail e →
          (∀ remaining, e ≠ .trailingMaterializedRowCarrier remaining) ∧
            (∀ declared available, e ≠ .invalidRowSize declared available) ∧
            ∀ flags, e ≠ .unsupportedRowFlags flags) ∧
      (∀ segment, parseRowSegment b = .ok segment → segment.declaredLen = b.length) ∧
      ∀ fault, parseRowSegment b = .error fault → b.length < selectedHeaderLen b) ∧
    ∀ {E σ : Type} (initialTarget : ContinuationTarget) (initialBytes : Bytes) (limits : RowSegmentChainLimits)
      (resolve : σ → ContinuationTarget → Except E Bytes × σ) (s : σ), IsRecord initialBytes →
      (∀ s target rest, (resolve s target).1 = .ok rest → IsRecord rest) →
      ∀ target segmentIndex declaredLen available,
        (walkRowSegmentChain initialTarget initialBytes limits resolve s).1 ≠
          fail (.trailingBytes target segmentIndex declaredLen available) := by
  constructor
  · intro b hb
    have hspanned := hb.spanned
    refine ⟨fun schema => ⟨fun e he => ?_, fun r hr => hspanned.declaredSize hr, fun e he => ?_⟩,
      fun segment hparse => declaredLen_eq hspanned hparse, fun fault hparse => parse_fails hspanned hparse⟩
    · exact ne_of_not_headerError ((decodeRow_raises schema hspanned).error e he)
    · exact ne_of_not_carrierBoundaryError ((decodeMaterialized_raises schema hspanned).error e he)
  · intro E σ initialTarget initialBytes limits resolve s hinitial hresolve target segmentIndex declaredLen available h
    exact (walk_not_trailing initialTarget limits resolve s hinitial hresolve).error _ h trivial

theorem isRecord_written {plan : PagePlan} {row : Bytes} (recordId : UInt16)
    (h : plan.slots[recordId.toNat]? = some (some row)) : IsRecord row := by
  have hrecord := record_written plan recordId
  rw [lookup_eq_ok_iff.mpr h] at hrecord
  cases hfound : (pageOf plan.bytes).record recordId with
  | error fault =>
      rw [hfound] at hrecord
      cases hrecord
  | ok record =>
      rw [hfound] at hrecord
      refine ⟨plan.bytes, pageOf plan.bytes, recordId, record, parse_eq_ok_iff.mpr ⟨plan.wellFormed_bytes, rfl⟩, hfound, ?_⟩
      exact Except.ok.inj hrecord

def mixedRow : Bytes := [9, 0, 0x40, 2, 0x41, 0x42, 2, 1, 1]

def linkedPiece : Bytes := [10, 0, 4, 7, 0, 0, 0, 2, 0, 0xAA]

/-- A row, both segments of a value, a missing record and one that is its own length word. -/
def mixedPage : PagePlan :=
  .blank 7 [some mixedRow, some linkedPiece, some [4, 0, 0, 0xBB], none, some [2, 0]] (by simp; decide) (by decide)

theorem materializedRecord_boundaries_mixed :
    (∃ r, decodeRow mixedRow mixedSchema = .ok r ∧ r.declaredSize = 9) ∧
    (∃ segment, parseRowSegment linkedPiece = .ok segment ∧ segment.declaredLen = 10) ∧
    [2, 0].length < selectedHeaderLen [2, 0] ∧
    ∀ target segmentIndex declaredLen available,
      (walkRowSegmentChain ⟨7, 1⟩ linkedPiece ⟨2, 8⟩ (fun _ _ => (Except.ok (ε := Unit) [4, 0, 0, 0xBB], ())) ()).1 ≠
        fail (.trailingBytes target segmentIndex declaredLen available) := by
  have hrow : IsRecord mixedRow := @isRecord_written mixedPage _ 0 rfl
  have hpiece : IsRecord linkedPiece := @isRecord_written mixedPage _ 1 rfl
  have hlast : IsRecord [4, 0, 0, 0xBB] := @isRecord_written mixedPage _ 2 rfl
  have hshort : IsRecord [2, 0] := @isRecord_written mixedPage _ 4 rfl
  obtain ⟨hrecords, hchains⟩ := materializedRecord_boundaries
  have hdecoded : decodeRow mixedRow mixedSchema =
      .ok ⟨9, 9, 0, [.null, .bytes [0x41, 0x42], .boolean true, .integer 258]⟩ := by decide
  have hparsed : parseRowSegment linkedPiece = .ok ⟨10, 4, some ⟨7, 2⟩, linkedPiece⟩ := by decide
  refine ⟨⟨_, hdecoded, ((hrecords _ hrow).1 mixedSchema).2.1 _ hdecoded⟩,
    ⟨_, hparsed, (hrecords _ hpiece).2.1 _ hparsed⟩, ?_, ?_⟩
  · exact (hrecords _ hshort).2.2 (.err (.missingHeader 2)) (by decide)
  · refine hchains ⟨7, 1⟩ linkedPiece ⟨2, 8⟩ _ () hpiece ?_
    intro _ target rest hrest
    rwa [← Except.ok.inj hrest]

end OpenSqlAny.RecordBoundaries
