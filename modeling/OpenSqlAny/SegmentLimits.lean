import OpenSqlAny.Library.ErrorClasses
import OpenSqlAny.SegmentResolving

namespace OpenSqlAny.SegmentLimits

open Library.ErrorClasses Library.Faults Library.LittleEndian Library.Rounds RowSegments SegmentChains SegmentResolving

variable {E σ : Type} {limits limits' : RowSegmentChainLimits} {st : WalkState} {s : σ}
  {resolve : σ → ContinuationTarget → Except E Bytes × σ}

/-- The outcome says that a limit has been met. -/
inductive MeetsLimit (limits : RowSegmentChainLimits) : WalkOutcome E → Prop
  | segments (attempted : Nat) : MeetsLimit limits (fail (.segmentLimit limits.maxSegments attempted))
  | payload (attempted : Nat) : MeetsLimit limits (fail (.payloadLimit limits.maxTotalPayloadBytes attempted))

variable (st) in
theorem checkSegment_more (hpayload : limits.maxTotalPayloadBytes ≤ limits'.maxTotalPayloadBytes) :
    checkSegment (E := E) limits st = checkSegment limits' st ∨
      ∃ attempted, checkSegment (E := E) limits st = fail (.payloadLimit limits.maxTotalPayloadBytes attempted) := by
  rw [checkSegment, checkSegment]
  cases mapErr (RowSegmentChainError.invalidSegment (E := E) st.target st.segments.length)
      (parseRowSegment st.bytes) with
  | error fault => exact .inl rfl
  | ok segment =>
      rw [ok_bind, ok_bind]
      by_cases hwhole : segment.declaredLen ≠ st.bytes.length
      case pos => exact .inl (by rw [if_pos hwhole, if_pos hwhole])
      rw [if_neg hwhole, if_neg hwhole]
      cases segment.payload (ε := RowSegmentChainError E) with
      | error fault => exact .inl rfl
      | ok payload =>
          rw [ok_bind, ok_bind]
          by_cases hover : payload.length > limits.maxTotalPayloadBytes - st.totalPayloadBytes
          case pos => exact .inr ⟨_, if_pos hover⟩
          exact .inl (by rw [if_neg hover, if_neg (by omega)])

theorem walkRound_more (hsegments : limits.maxSegments ≤ limits'.maxSegments)
    (hpayload : limits.maxTotalPayloadBytes ≤ limits'.maxTotalPayloadBytes) (head : WalkState × σ) :
    walkRound limits resolve head = walkRound limits' resolve head ∨
      ∃ result, walkRound limits resolve head = .returns result ∧ MeetsLimit limits result.1 ∧ result.2 = head.2 := by
  obtain ⟨st, s⟩ := head
  rw [walkRound, walkRound]
  simp only
  by_cases hfull : st.segments.length ≥ limits.maxSegments
  case pos => exact .inr ⟨_, if_pos hfull, .segments _, rfl⟩
  rw [if_neg hfull, if_neg (show ¬st.segments.length ≥ limits'.maxSegments by omega)]
  rcases checkSegment_more (E := E) st hpayload with hcheck | ⟨attempted, hcheck⟩
  case inr => exact .inr ⟨_, by rw [hcheck]; rfl, .payload attempted, rfl⟩
  rw [← hcheck]
  rcases checkSegment (E := E) limits st with fault | ⟨record, _ | next⟩
  · exact .inl rfl
  · exact .inl rfl
  · simp only
    by_cases hseen : next ∈ st.visited
    case pos => exact .inl (by rw [if_pos hseen, if_pos hseen])
    rw [if_neg hseen, if_neg hseen]
    by_cases hlast : st.segments.length + 1 ≥ limits.maxSegments
    case pos => exact .inr ⟨_, if_pos hlast, .segments _, rfl⟩
    rw [if_neg hlast, if_neg (show ¬st.segments.length + 1 ≥ limits'.maxSegments by omega)]
    exact .inl rfl

theorem walkRound_calls {head head' : WalkState × σ × List ContinuationTarget}
    (h : walkRound limits (logged resolve) head = .goesOn head') : head.2.2 <+: head'.2.2 := by
  obtain ⟨st, s, calls⟩ := head
  obtain ⟨record, next, resolved, s', -, hresolve, rfl⟩ := walkRound_goesOn_iff.mp h
  obtain rfl : s' = ((resolve s next).2, calls ++ [next]) := (congrArg Prod.snd hresolve).symm
  exact List.prefix_append calls [next]

theorem walkRound_returned {head : WalkState × σ × List ContinuationTarget}
    {result : WalkOutcome E × σ × List ContinuationTarget}
    (h : walkRound limits (logged resolve) head = .returns result) : head.2.2 <+: result.2.2 := by
  obtain ⟨st, s, calls⟩ := head
  by_cases hpassed : ∃ record next, Passed E limits st record next
  case neg =>
    obtain ⟨outcome, hreturns⟩ := walkRound_stopped hpassed
    rw [hreturns] at h
    cases h
    exact List.prefix_refl calls
  obtain ⟨record, next, hpassed⟩ := hpassed
  rw [walkRound_passed hpassed, logged] at h
  rcases hresolve : resolve s next with ⟨source | resolved, s'⟩
  · rw [hresolve] at h
    cases h
    exact List.prefix_append calls [next]
  · rw [hresolve] at h
    cases h

theorem calls_of_reaches {start head : WalkState × σ × List ContinuationTarget} {n k : Nat}
    {result : WalkOutcome E × σ × List ContinuationTarget}
    (reached : Reaches (walkRound limits (logged resolve)) start n head)
    (hreturns : ReturnsAfter (walkRound limits (logged resolve)) start k result) : head.2.2 <+: result.2.2 := by
  obtain ⟨j, last, hlast, hround⟩ := ReturnsAfter.of_reaches reached hreturns
  have hmade : head.2.2 <+: last.2.2 := by
    refine hlast.invariant (fun _ head' => head.2.2 <+: head'.2.2) (List.prefix_refl _) ?_
    intro n s s' hmade hgoes
    exact hmade.trans (walkRound_calls hgoes)
  exact hmade.trans (walkRound_returned hround)

/-- Higher limits change nothing about a walk that has not met a limit, neither its outcome nor
what the resolver is left with; where it has met one, the same calls are made first. -/
theorem walk_higher_limits (initialTarget : ContinuationTarget) (initialBytes : Bytes)
    (limits limits' : RowSegmentChainLimits) (hsegments : limits.maxSegments ≤ limits'.maxSegments)
    (hpayload : limits.maxTotalPayloadBytes ≤ limits'.maxTotalPayloadBytes)
    (resolve : σ → ContinuationTarget → Except E Bytes × σ) (s : σ) :
    callsOf initialTarget initialBytes limits resolve s <+: callsOf initialTarget initialBytes limits' resolve s ∧
      (walkRowSegmentChain initialTarget initialBytes limits' resolve s =
          walkRowSegmentChain initialTarget initialBytes limits resolve s ∨
        MeetsLimit limits (walkRowSegmentChain initialTarget initialBytes limits resolve s).1) := by
  obtain ⟨n, -, hreturns⟩ := walk_returns initialTarget initialBytes limits resolve s
  obtain ⟨n', -, hreturns'⟩ := walk_returns initialTarget initialBytes limits' resolve s
  obtain ⟨houtcome, hstate⟩ := walkRowSegmentChain_logged initialTarget initialBytes limits resolve s
  obtain ⟨houtcome', hstate'⟩ := walkRowSegmentChain_logged initialTarget initialBytes limits' resolve s
  have hagree := hreturns.of_agree
    (fun head result => MeetsLimit limits result.1 ∧ result.2 = head.2)
    (walkLoop_rounds limits' (logged resolve)) (walkRound_more hsegments hpayload)
  rw [callsOf, callsOf]
  rcases hagree with hsame | ⟨head, reached, hlimit, hleft⟩
  · have hsame : walkRowSegmentChain initialTarget initialBytes limits' (logged resolve) (s, []) =
        walkRowSegmentChain initialTarget initialBytes limits (logged resolve) (s, []) := hsame
    refine ⟨by rw [hsame], .inl (Prod.ext ?_ ?_)⟩
    · rw [← houtcome, ← houtcome', hsame]
    · rw [← hstate, ← hstate', hsame]
  · rw [hleft, ← houtcome]
    exact ⟨calls_of_reaches reached hreturns', .inr hlimit⟩

theorem walk_higher_limits_two :
    callsOf ⟨7, 1⟩ [9, 0, 4, 7, 0, 0, 0, 2, 0] ⟨1, 4⟩ (fun _ _ => (Except.ok (ε := Unit) [3, 0, 0], ())) () <+:
        callsOf ⟨7, 1⟩ [9, 0, 4, 7, 0, 0, 0, 2, 0] ⟨2, 4⟩ (fun _ _ => (Except.ok (ε := Unit) [3, 0, 0], ())) () :=
  (walk_higher_limits ⟨7, 1⟩ [9, 0, 4, 7, 0, 0, 0, 2, 0] ⟨1, 4⟩ ⟨2, 4⟩ (by decide) (by decide) _ ()).1

def targetIndex (target : ContinuationTarget) : Nat := target.resolverKey.toNat * 2 ^ 16 + target.recordId.toNat

theorem targetIndex_lt (target : ContinuationTarget) : targetIndex target < 2 ^ 48 := by
  have hkey := target.resolverKey.toNat_lt
  have hid := target.recordId.toNat_lt
  rw [targetIndex]
  omega

theorem targetIndex_inj {target target' : ContinuationTarget} (h : targetIndex target = targetIndex target') :
    target = target' := by
  have hid := target.recordId.toNat_lt
  have hid' := target'.recordId.toNat_lt
  rw [targetIndex, targetIndex] at h
  obtain ⟨key, id⟩ := target
  obtain ⟨key', id'⟩ := target'
  obtain rfl : key = key' := UInt32.toNat_inj.mp (by simp only at h hid hid'; omega)
  obtain rfl : id = id' := UInt16.toNat_inj.mp (by simp only at h; omega)
  rfl

/-- There are no more different targets than six bytes tell apart. -/
theorem length_le_of_nodup {targets : List ContinuationTarget} (h : targets.Nodup) : targets.length ≤ 2 ^ 48 := by
  have hindices : (targets.map targetIndex).Nodup := h.map fun _ _ => targetIndex_inj
  have hsubset : targets.map targetIndex ⊆ List.range (2 ^ 48) := by
    intro index hindex
    obtain ⟨target, -, rfl⟩ := List.mem_map.mp hindex
    exact List.mem_range.mpr (targetIndex_lt target)
  have hle := (List.subperm_of_subset hindices hsubset).length_le
  rwa [List.length_map, List.length_range] at hle

theorem checkSegment_raises (limits : RowSegmentChainLimits) (st : WalkState) :
    Raises (fun error => ∀ max attempted, error ≠ .segmentLimit max attempted) (checkSegment (E := E) limits st) := by
  rw [checkSegment]
  apply Raises.bind (.mapErr (by simp) _)
  intro segment _
  refine .ite (fun _ => .fail (by simp)) fun _ => ?_
  apply Raises.bind (.slice _ _ _)
  intro payload _
  exact .ite (fun _ => .fail (by simp)) fun _ => .ok _

def answered (resolve : σ → ContinuationTarget → Except E Bytes × σ) (read : Bytes × σ) (target : ContinuationTarget) :
    Bytes × σ :=
  match resolve read.2 target with
  | (.ok resolved, s') => (resolved, s')
  | (.error _, s') => (read.1, s')

/-- The bytes that have been read last, at the start or by one of the calls. -/
def lastRead (resolve : σ → ContinuationTarget → Except E Bytes × σ) (initialBytes : Bytes) (s : σ)
    (calls : List ContinuationTarget) : Bytes := (calls.foldl (answered resolve) (initialBytes, s)).1

theorem walk_read {initialTarget : ContinuationTarget} {initialBytes : Bytes} {s₀ : σ} {n : Nat}
    {calls : List ContinuationTarget}
    (h : Reaches (walkRound limits (logged resolve)) (walkStart initialTarget initialBytes, s₀, []) n (st, s, calls)) :
    calls.foldl (answered resolve) (initialBytes, s₀) = (st.bytes, s) := by
  refine h.invariant
    (fun _ head => head.2.2.foldl (answered resolve) (initialBytes, s₀) = (head.1.bytes, head.2.1)) rfl ?_
  rintro n ⟨st, s, calls⟩ head' hread hround
  obtain ⟨record, next, resolved, s', hpassed, hresolve, rfl⟩ := walkRound_goesOn_iff.mp hround
  obtain ⟨hanswer, rfl⟩ := Prod.mk.inj hresolve
  simp only at hread ⊢
  rw [List.foldl_append, hread, List.foldl_cons, List.foldl_nil, answered]
  rcases hcall : resolve s next with ⟨source | bytes, s''⟩
  · rw [hcall] at hanswer
    cases hanswer
  · rw [hcall] at hanswer
    cases hanswer
    rfl

theorem standing_segmentLimit {initialTarget : ContinuationTarget} {n : Nat} {calls : List ContinuationTarget}
    {max attempted : Nat} {s' : σ × List ContinuationTarget} (h : Standing limits initialTarget n st calls)
    (hround : walkRound limits (logged resolve) (st, s, calls) = .returns (fail (.segmentLimit max attempted), s')) :
    max = limits.maxSegments ∧ attempted = saturatingAdd max 1 ∧ s' = (s, calls) ∧
      (max ≠ 0 → calls.length + 1 = max ∧ ∃ segment payload next, ParsesAs st.bytes segment payload ∧
        segment.nextTarget = some next ∧ next ∉ initialTarget :: calls) := by
  rw [walkRound] at hround
  simp only at hround
  have hcalled := h.called
  have hrecorded := h.recorded
  split at hround
  next hfull =>
    cases hround
    have hnone : st.segments.length = 0 := by
      rcases h.bounded with hn | hn
      · omega
      · omega
    have hzero : limits.maxSegments = 0 := by omega
    refine ⟨rfl, ?_, rfl, fun hne => absurd hzero hne⟩
    rw [hzero, hnone]
  next hroom =>
    rcases hcheck : checkSegment (E := E) limits st with fault | ⟨record, _ | next⟩
    · rw [hcheck] at hround
      cases hround
      exact absurd rfl ((checkSegment_raises limits st).error _ hcheck _ _)
    · rw [hcheck] at hround
      cases hround
    · rw [hcheck] at hround
      simp only at hround
      obtain ⟨segment, payload, hparses, -, -, hnext⟩ := checkSegment_eq_ok_iff.mp hcheck
      split at hround
      · cases hround
      next hseen =>
        split at hround
        next hlast =>
          cases hround
          have hmax : st.segments.length + 1 = limits.maxSegments := by omega
          refine ⟨rfl, by rw [hmax], rfl, fun _ => ⟨by omega, segment, payload, next, hparses, hnext.symm, ?_⟩⟩
          rwa [← List.mem_reverse, List.reverse_cons, ← h.visited]
        next hleft =>
          rcases hresolve : logged resolve (s, calls) next with ⟨source | resolved, s''⟩
          · rw [hresolve] at hround
            cases hround
          · rw [hresolve] at hround
            cases hround

/-- A walk that returns the segment limit has refused the link of the last bytes it read, which it has not
come upon before: with it there is one more target than the limit. So under a limit of the number of targets
there are, a walk ends in its chain or in another error. -/
theorem walk_segmentLimit (initialTarget : ContinuationTarget) (initialBytes : Bytes)
    (limits : RowSegmentChainLimits) (resolve : σ → ContinuationTarget → Except E Bytes × σ) (s : σ)
    (max attempted : Nat)
    (h : (walkRowSegmentChain initialTarget initialBytes limits resolve s).1 = fail (.segmentLimit max attempted)) :
    max = limits.maxSegments ∧ max < 2 ^ 48 ∧ attempted = saturatingAdd max 1 ∧
      (max ≠ 0 → ∃ segment payload next,
        ParsesAs (lastRead resolve initialBytes s (callsOf initialTarget initialBytes limits resolve s)) segment payload ∧
        segment.nextTarget = some next ∧
        (initialTarget :: callsOf initialTarget initialBytes limits resolve s ++ [next]).Nodup ∧
        (initialTarget :: callsOf initialTarget initialBytes limits resolve s ++ [next]).length = max + 1) := by
  obtain ⟨n, -, ⟨st, s₁, calls⟩, reached, round⟩ := walk_returns initialTarget initialBytes limits resolve s
  obtain ⟨houtcome, -⟩ := walkRowSegmentChain_logged initialTarget initialBytes limits resolve s
  have hstanding := walk_standing reached
  have hround : walkRound limits (logged resolve) (st, s₁, calls) = .returns (fail (.segmentLimit max attempted),
      (walkRowSegmentChain initialTarget initialBytes limits (logged resolve) (s, [])).2) := by
    rw [round, ← h, ← houtcome]
  obtain ⟨hmax, hattempted, hleft, hnamed⟩ := standing_segmentLimit hstanding hround
  have hcalls : callsOf initialTarget initialBytes limits resolve s = calls := congrArg Prod.snd hleft
  have hread : lastRead resolve initialBytes s calls = st.bytes := congrArg Prod.fst (walk_read reached)
  have hnodup : (initialTarget :: calls).Nodup := by
    have h := hstanding.nodup
    rw [hstanding.visited, ← List.reverse_cons, List.nodup_reverse] at h
    exact h
  have hmore (hne : max ≠ 0) : ∃ segment payload next, ParsesAs (lastRead resolve initialBytes s calls) segment payload ∧
      segment.nextTarget = some next ∧ (initialTarget :: calls ++ [next]).Nodup ∧
      (initialTarget :: calls ++ [next]).length = max + 1 := by
    obtain ⟨hlength, segment, payload, next, hparses, hnext, hfresh⟩ := hnamed hne
    refine ⟨segment, payload, next, by rwa [hread], hnext, ?_, ?_⟩
    · rw [← List.concat_eq_append]
      exact hnodup.concat hfresh
    · rw [List.length_append, List.length_cons, List.length_singleton, hlength]
  refine ⟨hmax, ?_, hattempted, hcalls ▸ hmore⟩
  by_cases hne : max = 0
  · rw [hne]
    exact Nat.two_pow_pos 48
  obtain ⟨_, _, next, -, -, hnodup, hlength⟩ := hmore hne
  have hle := length_le_of_nodup hnodup
  omega

def counting (n : UInt8) (_ : ContinuationTarget) : Except Unit Bytes × UInt8 := (.ok [9, 0, 4, 7, 0, 0, 0, n, 0], n + 1)

theorem walk_counting : walkRowSegmentChain ⟨7, 1⟩ [9, 0, 4, 7, 0, 0, 0, 2, 0] ⟨2, 4⟩ (logged counting) (3, []) =
    (fail (.segmentLimit 2 3), 4, [⟨7, 2⟩]) := by
  rw [walkRowSegmentChain, walkLoop]
  change walkLoop ⟨2, 4⟩ (logged counting)
    ⟨[⟨7, 2⟩, ⟨7, 1⟩], [⟨⟨7, 1⟩, 4, 9, []⟩], 0, ⟨7, 2⟩, [9, 0, 4, 7, 0, 0, 0, 3, 0]⟩ (4, [⟨7, 2⟩]) = _
  rw [walkLoop]
  rfl

theorem walk_segmentLimit_counting : ∃ segment payload next,
    ParsesAs [9, 0, 4, 7, 0, 0, 0, 3, 0] segment payload ∧ segment.nextTarget = some next ∧
      ([⟨7, 1⟩, ⟨7, 2⟩, next] : List ContinuationTarget).Nodup := by
  obtain ⟨houtcome, -⟩ := walkRowSegmentChain_logged ⟨7, 1⟩ [9, 0, 4, 7, 0, 0, 0, 2, 0] ⟨2, 4⟩ counting 3
  have hcalls : callsOf ⟨7, 1⟩ [9, 0, 4, 7, 0, 0, 0, 2, 0] ⟨2, 4⟩ counting 3 = [⟨7, 2⟩] := by
    rw [callsOf, walk_counting]
  obtain ⟨-, -, -, h⟩ := walk_segmentLimit ⟨7, 1⟩ [9, 0, 4, 7, 0, 0, 0, 2, 0] ⟨2, 4⟩ counting 3 2 3
    (by rw [← houtcome, walk_counting])
  obtain ⟨segment, payload, next, hparses, hnext, hnodup, -⟩ := h (by decide)
  rw [hcalls] at hparses hnodup
  exact ⟨segment, payload, next, hparses, hnext, hnodup⟩

end OpenSqlAny.SegmentLimits
