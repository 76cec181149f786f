import OpenSqlAny.SegmentResolving

namespace OpenSqlAny.SegmentErrors

open Library.Faults Library.LittleEndian Library.Rounds RowSegments SegmentReading SegmentChains SegmentResolving

variable {E σ : Type} {limits : RowSegmentChainLimits}

/-- What is wrong with the bytes that a target stands for, after the segments recorded before. -/
inductive Unfit (limits : RowSegmentChainLimits) (records : List RowSegmentChainSegment)
    (target : ContinuationTarget) (bytes : Bytes) : RowSegmentChainError E → Prop
  | invalid {source : RowSegmentError} (parses : parseRowSegment bytes = fail source) :
      Unfit limits records target bytes (.invalidSegment target records.length source)
  | trailing {segment : RowSegment} (parses : parseRowSegment bytes = .ok segment)
      (beyond : segment.declaredLen ≠ bytes.length) :
      Unfit limits records target bytes (.trailingBytes target records.length segment.declaredLen bytes.length)
  | payload {segment : RowSegment} {payload : Bytes} (parses : ParsesAs bytes segment payload)
      (exceeds : limits.maxTotalPayloadBytes < payloadBytes records + payload.length) :
      Unfit limits records target bytes (.payloadLimit limits.maxTotalPayloadBytes
        (saturatingAdd (payloadBytes records) payload.length))

/-- What ends the walk at a target without a chain. -/
inductive Stuck (f : ContinuationTarget → Except E Bytes) (limits : RowSegmentChainLimits)
    (records : List RowSegmentChainSegment) (target : ContinuationTarget) (bytes : Bytes) :
    RowSegmentChainError E → Prop
  | closed (none : limits.maxSegments = 0) : Stuck f limits records target bytes (.segmentLimit 0 1)
  | unfit {error : RowSegmentChainError E} (room : records.length < limits.maxSegments)
      (unfit : Unfit limits records target bytes error) : Stuck f limits records target bytes error
  | cycle {segment : RowSegment} {payload : Bytes} {next : ContinuationTarget}
      (room : records.length < limits.maxSegments) (parses : ParsesAs bytes segment payload)
      (fits : payloadBytes records + payload.length ≤ limits.maxTotalPayloadBytes)
      (continues : segment.nextTarget = some next) (seen : next ∈ targets records ++ [target]) :
      Stuck f limits records target bytes (.cycle next)
  | segments {segment : RowSegment} {payload : Bytes} {next : ContinuationTarget}
      (last : records.length + 1 = limits.maxSegments) (parses : ParsesAs bytes segment payload)
      (fits : payloadBytes records + payload.length ≤ limits.maxTotalPayloadBytes)
      (continues : segment.nextTarget = some next) (fresh : next ∉ targets records ++ [target]) :
      Stuck f limits records target bytes
        (.segmentLimit limits.maxSegments (saturatingAdd limits.maxSegments 1))
  | resolver {segment : RowSegment} {payload : Bytes} {next : ContinuationTarget} {source : E}
      (room : records.length + 1 < limits.maxSegments) (parses : ParsesAs bytes segment payload)
      (fits : payloadBytes records + payload.length ≤ limits.maxTotalPayloadBytes)
      (continues : segment.nextTarget = some next) (fresh : next ∉ targets records ++ [target])
      (resolves : f next = .error source) : Stuck f limits records target bytes (.resolver next source)

def stateAt (records : List RowSegmentChainSegment) (target : ContinuationTarget) (bytes : Bytes) : WalkState :=
  ⟨(targets records ++ [target]).reverse, records, payloadBytes records, target, bytes⟩

section Rounds

variable {f : ContinuationTarget → Except E Bytes} {records : List RowSegmentChainSegment}
  {target next : ContinuationTarget} {bytes : Bytes} {error : RowSegmentChainError E}

theorem payload_cases (segment : RowSegment) :
    (∃ payload, ∀ ε, segment.payload (ε := ε) = .ok payload) ∨ ∀ ε, segment.payload (ε := ε) = panicked := by
  by_cases h : segment.headerLen ≤ segment.bytes.length ∧ segment.bytes.length ≤ segment.bytes.length
  · exact .inl ⟨_, fun _ => if_pos h⟩
  · exact .inr fun _ => if_neg h

theorem checkSegment_eq_fail_iff (htotal : payloadBytes records ≤ limits.maxTotalPayloadBytes) :
    checkSegment limits (stateAt records target bytes) = fail error ↔ Unfit limits records target bytes error := by
  constructor
  · intro h
    rw [checkSegment] at h
    cases hparse : parseRowSegment bytes with
    | error fault =>
        rw [show (stateAt records target bytes).bytes = bytes from rfl, hparse] at h
        cases fault with
        | err source =>
            cases h
            exact .invalid hparse
        | panic => cases h
    | ok segment =>
        rw [show (stateAt records target bytes).bytes = bytes from rfl, hparse] at h
        change (if segment.declaredLen ≠ bytes.length then _ else _) = _ at h
        by_cases hwhole : segment.declaredLen ≠ bytes.length
        · rw [if_pos hwhole] at h
          cases h
          exact .trailing hparse hwhole
        rw [if_neg hwhole] at h
        rcases payload_cases segment with ⟨payload, hpayload⟩ | hpanics
        · rw [hpayload, ok_bind] at h
          split at h
          next hover =>
            cases h
            have hover : payload.length > limits.maxTotalPayloadBytes - payloadBytes records := hover
            exact .payload ⟨hparse, not_not.mp hwhole, hpayload _⟩ (by omega)
          next => cases h
        · rw [hpanics] at h
          cases h
  · intro h
    rw [checkSegment]
    cases h with
    | invalid parses =>
        rw [show (stateAt records target bytes).bytes = bytes from rfl, parses]
        rfl
    | trailing parses beyond =>
        rw [show (stateAt records target bytes).bytes = bytes from rfl, parses]
        exact if_pos beyond
    | payload parses exceeds =>
        rw [show (stateAt records target bytes).bytes = bytes from rfl, parses.1]
        change (if _ then _ else _) = _
        rw [if_neg (not_not.mpr parses.2.1), payload_eq_ok_iff.mp parses.2.2, ok_bind]
        refine if_pos ?_
        change _ > limits.maxTotalPayloadBytes - payloadBytes records
        omega

def stateless (f : ContinuationTarget → Except E Bytes) (s : Unit) (target : ContinuationTarget) :
    Except E Bytes × Unit := (f target, s)

theorem mem_visited_stateAt : next ∈ (stateAt records target bytes).visited ↔ next ∈ targets records ++ [target] :=
  List.mem_reverse

theorem movedTo_stateAt {segment : RowSegment} {payload rest : Bytes} :
    movedTo (stateAt records target bytes) (recordOf target segment payload) next rest =
      stateAt (records ++ [recordOf target segment payload]) next rest := by
  rw [movedTo, stateAt, stateAt, WalkState.mk.injEq]
  refine ⟨?_, rfl, ?_, rfl, rfl⟩
  · rw [targets, targets, List.map_append]
    exact (List.reverse_concat (a := next)).symm
  · rw [payloadBytes, payloadBytes, List.map_append, List.sum_append]
    rfl

theorem checkSegment_stateAt {segment : RowSegment} {payload : Bytes} (parses : ParsesAs bytes segment payload)
    (fits : payloadBytes records + payload.length ≤ limits.maxTotalPayloadBytes) :
    checkSegment (E := E) limits (stateAt records target bytes) =
      .ok (recordOf target segment payload, segment.nextTarget) := by
  refine checkSegment_eq_ok_iff.mpr ⟨segment, payload, parses, ?_, rfl, rfl⟩
  change payload.length ≤ limits.maxTotalPayloadBytes - payloadBytes records
  omega

theorem walkRound_full (hfull : limits.maxSegments ≤ records.length) :
    walkRound limits (stateless f) (stateAt records target bytes, ()) =
      .returns (fail (.segmentLimit limits.maxSegments (saturatingAdd records.length 1)), ()) := if_pos hfull

theorem walkRound_unfit {fault : Fault (RowSegmentChainError E)} (room : records.length < limits.maxSegments)
    (hcheck : checkSegment limits (stateAt records target bytes) = .error fault) :
    walkRound limits (stateless f) (stateAt records target bytes, ()) = .returns (.error fault, ()) := by
  refine (if_neg (Nat.not_le.mpr room)).trans ?_
  simp only [hcheck]

theorem walkRound_last {record : RowSegmentChainSegment} (room : records.length < limits.maxSegments)
    (hcheck : checkSegment (E := E) limits (stateAt records target bytes) = .ok (record, none)) :
    walkRound limits (stateless f) (stateAt records target bytes, ()) =
      .returns (.ok ⟨records ++ [record], payloadBytes records + record.payload.length⟩, ()) := by
  refine (if_neg (Nat.not_le.mpr room)).trans ?_
  simp only [hcheck]
  rfl

theorem walkRound_stateAt {segment : RowSegment} {payload : Bytes} (room : records.length < limits.maxSegments)
    (parses : ParsesAs bytes segment payload)
    (fits : payloadBytes records + payload.length ≤ limits.maxTotalPayloadBytes)
    (continues : segment.nextTarget = some next) :
    walkRound limits (stateless f) (stateAt records target bytes, ()) =
      if next ∈ targets records ++ [target] then .returns (fail (.cycle next), ())
      else if records.length + 1 ≥ limits.maxSegments then
        .returns (fail (.segmentLimit limits.maxSegments (saturatingAdd (records.length + 1) 1)), ())
      else match f next with
        | .error source => .returns (fail (.resolver next source), ())
        | .ok rest => .goesOn (stateAt (records ++ [recordOf target segment payload]) next rest, ()) := by
  refine (if_neg (Nat.not_le.mpr room)).trans ?_
  simp only [checkSegment_stateAt parses fits, continues, mem_visited_stateAt, movedTo_stateAt, stateless]
  cases f next with
  | error source => rfl
  | ok rest => rfl

theorem Stuck.of_round (htotal : payloadBytes records ≤ limits.maxTotalPayloadBytes)
    (hroom : records = [] ∨ records.length < limits.maxSegments)
    (h : walkRound limits (stateless f) (stateAt records target bytes, ()) = .returns (fail error, ())) :
    Stuck f limits records target bytes error := by
  by_cases hfull : records.length ≥ limits.maxSegments
  · obtain rfl : records = [] := by
      rcases hroom with hroom | hroom
      · exact hroom
      · omega
    obtain hmax : limits.maxSegments = 0 := Nat.le_zero.mp hfull
    rw [walkRound_full hfull, hmax] at h
    cases h
    exact .closed hmax
  have hroom : records.length < limits.maxSegments := Nat.not_le.mp hfull
  cases hcheck : checkSegment (E := E) limits (stateAt records target bytes) with
  | error fault =>
      rw [walkRound_unfit hroom hcheck] at h
      cases h
      exact .unfit hroom ((checkSegment_eq_fail_iff htotal).mp hcheck)
  | ok entry =>
      obtain ⟨record, next⟩ := entry
      obtain ⟨segment, payload, parses, fits, rfl, rfl⟩ := checkSegment_eq_ok_iff.mp hcheck
      have parses : ParsesAs bytes segment payload := parses
      have fits : payloadBytes records + payload.length ≤ limits.maxTotalPayloadBytes := by
        have fits : payload.length ≤ limits.maxTotalPayloadBytes - payloadBytes records := fits
        omega
      cases hnext : segment.nextTarget with
      | none =>
          rw [hnext] at hcheck
          rw [walkRound_last hroom hcheck] at h
          cases h
      | some next =>
          rw [walkRound_stateAt hroom parses fits hnext] at h
          split at h
          next hseen =>
            cases h
            exact .cycle hroom parses fits hnext hseen
          next hfresh =>
            split at h
            next hlast =>
              obtain hlast : records.length + 1 = limits.maxSegments := by omega
              rw [hlast] at h
              cases h
              exact .segments hlast parses fits hnext hfresh
            next hleft =>
              cases hresolve : f next with
              | error source =>
                  rw [hresolve] at h
                  cases h
                  exact .resolver (Nat.not_le.mp hleft) parses fits hnext hfresh hresolve
              | ok rest =>
                  rw [hresolve] at h
                  cases h

theorem Stuck.round (htotal : payloadBytes records ≤ limits.maxTotalPayloadBytes)
    (hroom : records = [] ∨ records.length < limits.maxSegments) (h : Stuck f limits records target bytes error) :
    walkRound limits (stateless f) (stateAt records target bytes, ()) = .returns (fail error, ()) := by
  cases h with
  | closed none =>
      obtain rfl : records = [] := by
        rcases hroom with hroom | hroom
        · exact hroom
        · omega
      rw [walkRound_full (none ▸ Nat.zero_le _), none]
      rfl
  | unfit room unfit =>
      exact walkRound_unfit room ((checkSegment_eq_fail_iff htotal).mpr unfit)
  | cycle room parses fits continues seen =>
      rw [walkRound_stateAt room parses fits continues, if_pos seen]
  | segments last parses fits continues fresh =>
      rw [walkRound_stateAt (last ▸ Nat.lt_succ_self _) parses fits continues, if_neg fresh, if_pos last.ge, last]
  | resolver room parses fits continues fresh resolves =>
      rw [walkRound_stateAt (Nat.lt_of_succ_lt room) parses fits continues, if_neg fresh,
        if_neg (Nat.not_le.mpr room), resolves]

end Rounds

/-- From a first target and its bytes, whole continued segments lead to a target and its bytes. -/
inductive Leads (f : ContinuationTarget → Except E Bytes) (initialTarget : ContinuationTarget)
    (initialBytes : Bytes) : List RowSegmentChainSegment → ContinuationTarget → Bytes → Prop
  | start : Leads f initialTarget initialBytes [] initialTarget initialBytes
  | next {records : List RowSegmentChainSegment} {target next : ContinuationTarget} {bytes payload rest : Bytes}
      {segment : RowSegment} (leads : Leads f initialTarget initialBytes records target bytes)
      (parses : ParsesAs bytes segment payload) (continues : segment.nextTarget = some next)
      (resolves : f next = .ok rest) :
      Leads f initialTarget initialBytes (records ++ [recordOf target segment payload]) next rest

/-- They lead there without a repetition and inside the limits. -/
structure Comes (f : ContinuationTarget → Except E Bytes) (limits : RowSegmentChainLimits)
    (initialTarget : ContinuationTarget) (initialBytes : Bytes) (records : List RowSegmentChainSegment)
    (target : ContinuationTarget) (bytes : Bytes) : Prop where
  leads : Leads f initialTarget initialBytes records target bytes
  distinct : (targets records ++ [target]).Nodup
  room : records = [] ∨ records.length < limits.maxSegments
  payload : payloadBytes records ≤ limits.maxTotalPayloadBytes

section Coming

variable {f : ContinuationTarget → Except E Bytes} {initialTarget : ContinuationTarget} {initialBytes : Bytes}

theorem targets_append (records records' : List RowSegmentChainSegment) :
    targets (records ++ records') = targets records ++ targets records' := List.map_append

theorem payloadBytes_append (records records' : List RowSegmentChainSegment) :
    payloadBytes (records ++ records') = payloadBytes records + payloadBytes records' := by
  rw [payloadBytes, List.map_append, List.sum_append]
  rfl

theorem Comes.start (limits : RowSegmentChainLimits) :
    Comes f limits initialTarget initialBytes [] initialTarget initialBytes :=
  ⟨.start, List.nodup_singleton _, .inl rfl, Nat.zero_le _⟩

theorem Comes.reaches {records : List RowSegmentChainSegment} {target : ContinuationTarget} {bytes : Bytes}
    (h : Comes f limits initialTarget initialBytes records target bytes) :
    Reaches (walkRound limits (stateless f)) (walkStart initialTarget initialBytes, ()) records.length
      (stateAt records target bytes, ()) := by
  obtain ⟨leads, distinct, room, payload⟩ := h
  induction leads with
  | start => exact .start
  | @next records target next bytes payload' rest segment leads parses continues resolves ih =>
      have room : records.length + 1 < limits.maxSegments := by
        rcases room with room | room
        · simp at room
        · rwa [List.length_append, List.length_singleton] at room
      rw [payloadBytes_append] at payload
      have fits : payloadBytes records + payload'.length ≤ limits.maxTotalPayloadBytes := payload
      rw [targets_append, List.nodup_append_comm, List.singleton_append, List.nodup_cons] at distinct
      have fresh : next ∉ targets records ++ [target] := distinct.1
      have reached := ih distinct.2 (.inr (Nat.lt_of_succ_lt room)) (by omega)
      rw [List.length_append, List.length_singleton]
      refine .next reached ?_
      rw [walkRound_stateAt (Nat.lt_of_succ_lt room) parses fits continues, if_neg fresh,
        if_neg (Nat.not_le.mpr room), resolves]

theorem comes_of_reaches {n : Nat} {head : WalkState × Unit}
    (h : Reaches (walkRound limits (stateless f)) (walkStart initialTarget initialBytes, ()) n head) :
    ∃ records target bytes, Comes f limits initialTarget initialBytes records target bytes ∧
      head = (stateAt records target bytes, ()) ∧ records.length = n := by
  refine h.invariant (fun n head => ∃ records target bytes,
    Comes f limits initialTarget initialBytes records target bytes ∧
      head = (stateAt records target bytes, ()) ∧ records.length = n) ?_ ?_
  · exact ⟨_, _, _, .start limits, rfl, rfl⟩
  rintro n head head' ⟨records, target, bytes, hcomes, rfl, rfl⟩ hround
  obtain ⟨record, next, rest, s', passed, hresolve, rfl⟩ := walkRound_goesOn_iff.mp hround
  obtain ⟨segment, payload, parses, fits, rfl, continues⟩ := checkSegment_eq_ok_iff.mp passed.segment
  have fits : payload.length ≤ limits.maxTotalPayloadBytes - payloadBytes records := fits
  have htotal := hcomes.payload
  have fresh := mt mem_visited_stateAt.mpr passed.fresh
  rw [stateless, Prod.mk.injEq] at hresolve
  refine ⟨_, _, _, ⟨.next hcomes.leads parses continues.symm hresolve.1, ?_, .inr ?_, ?_⟩,
    Prod.ext movedTo_stateAt rfl, by rw [List.length_append, List.length_singleton]⟩
  · rw [targets_append, List.nodup_append_comm, List.singleton_append, List.nodup_cons]
    exact ⟨fresh, hcomes.distinct⟩
  · rw [List.length_append, List.length_singleton]
    exact passed.left
  · rw [payloadBytes_append]
    change payloadBytes records + payload.length ≤ _
    omega

variable (limits f initialTarget initialBytes) in
theorem walk_ends : ∃ n, ReturnsAfter (walkRound limits (stateless f)) (walkStart initialTarget initialBytes, ()) n
    (walkRowSegmentChain initialTarget initialBytes limits (stateless f) ()) := by
  obtain ⟨n, result, -, hreturns⟩ := returnsAfter_of_bound (walkRound limits (stateless f))
    (walkStart initialTarget initialBytes, ()) (max 1 limits.maxSegments) (by
      intro n head reached
      obtain ⟨records, target, bytes, hcomes, -, rfl⟩ := comes_of_reaches reached
      rcases hcomes.room with rfl | hroom
      · exact lt_max_of_lt_left Nat.zero_lt_one
      · exact lt_max_of_lt_right hroom)
  have hresult := ReturnsAfter.loop_eq (walkLoop_rounds limits (stateless f)) hreturns
  obtain rfl : walkRowSegmentChain initialTarget initialBytes limits (stateless f) () = result := hresult
  exact ⟨n, hreturns⟩

end Coming

/-- The walk fails with an error just when whole segments within the limits lead to a target
where that error is the first thing wrong. -/
theorem walkRowSegmentChain_eq_fail_iff (f : ContinuationTarget → Except E Bytes)
    (initialTarget : ContinuationTarget) (initialBytes : Bytes) (limits : RowSegmentChainLimits)
    (error : RowSegmentChainError E) :
    (walkRowSegmentChain initialTarget initialBytes limits (fun s target => (f target, s)) ()).1 = fail error ↔
      ∃ records target bytes, Comes f limits initialTarget initialBytes records target bytes ∧
        Stuck f limits records target bytes error := by
  change (walkRowSegmentChain initialTarget initialBytes limits (stateless f) ()).1 = _ ↔ _
  constructor
  · intro h
    obtain ⟨n, head, reached, hround⟩ := walk_ends limits f initialTarget initialBytes
    obtain ⟨records, target, bytes, hcomes, rfl, -⟩ := comes_of_reaches reached
    refine ⟨records, target, bytes, hcomes, .of_round hcomes.payload hcomes.room ?_⟩
    rw [hround, ← h]
  · rintro ⟨records, target, bytes, hcomes, hstuck⟩
    have hreturns : ReturnsAfter (walkRound limits (stateless f)) (walkStart initialTarget initialBytes, ())
        records.length (fail error, ()) := ⟨_, hcomes.reaches, hstuck.round hcomes.payload hcomes.room⟩
    exact congrArg Prod.fst (ReturnsAfter.loop_eq (walkLoop_rounds limits (stateless f)) hreturns)

end OpenSqlAny.SegmentErrors
