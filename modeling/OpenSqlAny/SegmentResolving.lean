import Mathlib.Data.List.Nodup
import OpenSqlAny.Library.Rounds
import OpenSqlAny.SegmentChains

namespace OpenSqlAny.SegmentResolving

open Library.Faults Library.LittleEndian Library.Rounds RowSegments SegmentChains

variable {E σ : Type}

abbrev WalkOutcome (E : Type) := Outcome (RowSegmentChainError E) RowSegmentChain

def walkRound (limits : RowSegmentChainLimits) (resolve : σ → ContinuationTarget → Except E Bytes × σ)
    (head : WalkState × σ) : Round (WalkState × σ) (WalkOutcome E × σ) :=
  if head.1.segments.length ≥ limits.maxSegments then
    .returns (fail (.segmentLimit limits.maxSegments (saturatingAdd head.1.segments.length 1)), head.2)
  else
    match checkSegment limits head.1 with
    | .error e => .returns (.error e, head.2)
    | .ok (segment, none) =>
        .returns (.ok ⟨head.1.segments ++ [segment], head.1.totalPayloadBytes + segment.payload.length⟩, head.2)
    | .ok (segment, some next) =>
        if next ∈ head.1.visited then .returns (fail (.cycle next), head.2)
        else if head.1.segments.length + 1 ≥ limits.maxSegments then
          .returns (fail (.segmentLimit limits.maxSegments (saturatingAdd (head.1.segments.length + 1) 1)), head.2)
        else
          match resolve head.2 next with
          | (.error source, s') => .returns (fail (.resolver next source), s')
          | (.ok resolved, s') => .goesOn (movedTo head.1 segment next resolved, s')

def walkStart (initialTarget : ContinuationTarget) (initialBytes : Bytes) : WalkState :=
  ⟨[initialTarget], [], 0, initialTarget, initialBytes⟩

variable {limits : RowSegmentChainLimits} {resolve : σ → ContinuationTarget → Except E Bytes × σ}
  {st : WalkState} {s : σ} {record : RowSegmentChainSegment} {next : ContinuationTarget}

theorem walkLoop_rounds (limits : RowSegmentChainLimits) (resolve : σ → ContinuationTarget → Except E Bytes × σ) :
    Loops (walkRound limits resolve) fun head => walkLoop limits resolve head.1 head.2 := by
  rintro ⟨st, s⟩
  change walkLoop limits resolve st s = _
  rw [walkLoop, walkRound]
  by_cases hfull : st.segments.length ≥ limits.maxSegments
  case pos => rw [if_pos hfull, if_pos hfull]
  rw [if_neg hfull, if_neg hfull]
  cases hcheck : checkSegment (E := E) limits st with
  | error e => rfl
  | ok entry =>
      obtain ⟨record, next⟩ := entry
      cases next with
      | none => rfl
      | some next =>
          simp only [List.length_append, List.length_singleton]
          by_cases hseen : next ∈ st.visited
          case pos => rw [if_pos hseen, if_pos hseen]
          by_cases hlast : st.segments.length + 1 ≥ limits.maxSegments
          case pos => rw [if_neg hseen, if_neg hseen, if_pos hlast, if_pos hlast]
          rw [if_neg hseen, if_neg hseen, if_neg hlast, if_neg hlast]
          rcases resolve s next with ⟨_ | resolved, s'⟩
          · rfl
          · rfl

/-- Every check of a round has passed, and its segment names a further target. -/
structure Passed (E : Type) (limits : RowSegmentChainLimits) (st : WalkState) (record : RowSegmentChainSegment)
    (next : ContinuationTarget) : Prop where
  room : st.segments.length < limits.maxSegments
  segment : checkSegment (E := E) limits st = .ok (record, some next)
  fresh : next ∉ st.visited
  left : st.segments.length + 1 < limits.maxSegments

theorem walkRound_passed (h : Passed E limits st record next) :
    walkRound limits resolve (st, s) = match resolve s next with
      | (.error source, s') => .returns (fail (.resolver next source), s')
      | (.ok resolved, s') => .goesOn (movedTo st record next resolved, s') := by
  rw [walkRound, if_neg (Nat.not_le.mpr h.room), h.segment]
  simp only
  rw [if_neg h.fresh, if_neg (Nat.not_le.mpr h.left)]

theorem walkRound_stopped (h : ¬∃ record next, Passed E limits st record next) :
    ∃ outcome, ∀ {τ : Type} (resolve : τ → ContinuationTarget → Except E Bytes × τ) (s : τ),
      walkRound limits resolve (st, s) = .returns (outcome, s) := by
  by_cases hfull : st.segments.length ≥ limits.maxSegments
  case pos =>
    exact ⟨fail (.segmentLimit limits.maxSegments (saturatingAdd st.segments.length 1)),
      fun resolve s => if_pos hfull⟩
  cases hcheck : checkSegment (E := E) limits st with
  | error e => exact ⟨.error e, fun resolve s => by rw [walkRound, if_neg hfull, hcheck]⟩
  | ok entry =>
      obtain ⟨record, next⟩ := entry
      cases next with
      | none =>
          exact ⟨.ok ⟨st.segments ++ [record], st.totalPayloadBytes + record.payload.length⟩,
            fun resolve s => by rw [walkRound, if_neg hfull, hcheck]⟩
      | some next =>
          by_cases hseen : next ∈ st.visited
          case pos =>
            exact ⟨fail (.cycle next), fun resolve s => by rw [walkRound, if_neg hfull, hcheck]; exact if_pos hseen⟩
          by_cases hlast : st.segments.length + 1 ≥ limits.maxSegments
          case pos =>
            refine ⟨fail (.segmentLimit limits.maxSegments (saturatingAdd (st.segments.length + 1) 1)),
              fun resolve s => ?_⟩
            rw [walkRound, if_neg hfull, hcheck]
            exact (if_neg hseen).trans (if_pos hlast)
          exact absurd ⟨record, next, Nat.not_le.mp hfull, hcheck, hseen, Nat.not_le.mp hlast⟩ h

theorem walkRound_goesOn_iff {head' : WalkState × σ} :
    walkRound limits resolve (st, s) = .goesOn head' ↔ ∃ record next resolved s', Passed E limits st record next ∧
      resolve s next = (.ok resolved, s') ∧ head' = (movedTo st record next resolved, s') := by
  constructor
  · intro h
    by_cases hpassed : ∃ record next, Passed E limits st record next
    case neg =>
      obtain ⟨outcome, hreturns⟩ := walkRound_stopped hpassed
      rw [hreturns] at h
      cases h
    obtain ⟨record, next, hpassed⟩ := hpassed
    rw [walkRound_passed hpassed] at h
    rcases hresolve : resolve s next with ⟨source | resolved, s'⟩
    · rw [hresolve] at h
      cases h
    · rw [hresolve] at h
      cases h
      exact ⟨record, next, resolved, s', hpassed, hresolve, rfl⟩
  · rintro ⟨record, next, resolved, s', hpassed, hresolve, rfl⟩
    rw [walkRound_passed hpassed, hresolve]

/-- The resolver, with the targets it has been asked for kept beside its own state. -/
def logged (resolve : σ → ContinuationTarget → Except E Bytes × σ) :
    σ × List ContinuationTarget → ContinuationTarget → Except E Bytes × (σ × List ContinuationTarget) :=
  fun s target => ((resolve s.1 target).1, (resolve s.1 target).2, s.2 ++ [target])

theorem walkLoop_logged (calls : List ContinuationTarget) (n : Nat)
    (hn : limits.maxSegments - st.segments.length ≤ n) :
    (walkLoop limits (logged resolve) st (s, calls)).1 = (walkLoop limits resolve st s).1 ∧
      (walkLoop limits (logged resolve) st (s, calls)).2.1 = (walkLoop limits resolve st s).2 := by
  induction n generalizing st s calls with
  | zero =>
      have hfull : st.segments.length ≥ limits.maxSegments := by omega
      rw [walkLoop, walkLoop, if_pos hfull, if_pos hfull]
      exact ⟨rfl, rfl⟩
  | succ n ih =>
      have hlogged := walkLoop_rounds limits (logged resolve) (st, s, calls)
      have hplain := walkLoop_rounds limits resolve (st, s)
      simp only at hlogged hplain
      by_cases hpassed : ∃ record next, Passed E limits st record next
      case neg =>
        -- No call is made, so both walks end with one outcome.
        obtain ⟨outcome, hreturns⟩ := walkRound_stopped hpassed
        rw [hreturns] at hlogged hplain
        rw [hlogged, hplain]
        exact ⟨rfl, rfl⟩
      obtain ⟨record, next, hpassed⟩ := hpassed
      rw [walkRound_passed hpassed] at hlogged hplain
      rw [hlogged, hplain, logged]
      rcases resolve s next with ⟨source | resolved, s'⟩
      · exact ⟨rfl, rfl⟩
      · apply ih
        rw [movedTo, List.length_append, List.length_singleton]
        omega

theorem walkRowSegmentChain_logged (initialTarget : ContinuationTarget) (initialBytes : Bytes)
    (limits : RowSegmentChainLimits) (resolve : σ → ContinuationTarget → Except E Bytes × σ) (s : σ) :
    (walkRowSegmentChain initialTarget initialBytes limits (logged resolve) (s, [])).1 =
        (walkRowSegmentChain initialTarget initialBytes limits resolve s).1 ∧
      (walkRowSegmentChain initialTarget initialBytes limits (logged resolve) (s, [])).2.1 =
        (walkRowSegmentChain initialTarget initialBytes limits resolve s).2 :=
  walkLoop_logged [] limits.maxSegments (Nat.sub_le _ _)

/-- What holds at the head of each round: one segment is recorded and one call
made for each round before, and the visited targets are the initial one and the calls. -/
structure Standing (limits : RowSegmentChainLimits) (initialTarget : ContinuationTarget) (n : Nat)
    (st : WalkState) (calls : List ContinuationTarget) : Prop where
  recorded : st.segments.length = n
  called : calls.length = n
  visited : st.visited = calls.reverse ++ [initialTarget]
  nodup : st.visited.Nodup
  bounded : n = 0 ∨ n < limits.maxSegments
  payload : st.totalPayloadBytes ≤ limits.maxTotalPayloadBytes

theorem Standing.start (limits : RowSegmentChainLimits) (initialTarget : ContinuationTarget)
    (initialBytes : Bytes) : Standing limits initialTarget 0 (walkStart initialTarget initialBytes) [] :=
  ⟨rfl, rfl, rfl, List.nodup_singleton initialTarget, .inl rfl, Nat.zero_le _⟩

theorem checked_payload_le (htotal : st.totalPayloadBytes ≤ limits.maxTotalPayloadBytes)
    {next : Option ContinuationTarget} (h : checkSegment (E := E) limits st = .ok (record, next)) :
    st.totalPayloadBytes + record.payload.length ≤ limits.maxTotalPayloadBytes := by
  obtain ⟨segment, payload, -, hfits, rfl, -⟩ := checkSegment_eq_ok_iff.mp h
  simp only [recordOf]
  omega

theorem Standing.moved {initialTarget : ContinuationTarget} {n : Nat} {calls : List ContinuationTarget}
    (h : Standing limits initialTarget n st calls) (hpassed : Passed E limits st record next) (rest : Bytes) :
    Standing limits initialTarget (n + 1) (movedTo st record next rest) (calls ++ [next]) where
  recorded := by rw [movedTo, List.length_append, List.length_singleton, h.recorded]
  called := by rw [List.length_append, List.length_singleton, h.called]
  visited := by
    rw [List.reverse_append, List.reverse_singleton]
    exact congrArg (next :: ·) h.visited
  nodup := List.nodup_cons.mpr ⟨hpassed.fresh, h.nodup⟩
  bounded := .inr (h.recorded ▸ hpassed.left)
  payload := checked_payload_le h.payload hpassed.segment

theorem walk_standing {initialTarget : ContinuationTarget} {initialBytes : Bytes} {s₀ s : σ} {n : Nat}
    {calls : List ContinuationTarget}
    (h : Reaches (walkRound limits (logged resolve)) (walkStart initialTarget initialBytes, s₀, []) n
      (st, s, calls)) : Standing limits initialTarget n st calls := by
  refine h.invariant (fun n head => Standing limits initialTarget n head.1 head.2.2) ?_ ?_
  · exact .start limits initialTarget initialBytes
  · rintro n ⟨st, s, calls⟩ head' hstanding hround
    obtain ⟨record, next, resolved, s', hpassed, hresolve, rfl⟩ := walkRound_goesOn_iff.mp hround
    obtain rfl : s' = ((resolve s next).2, calls ++ [next]) := (congrArg Prod.snd hresolve).symm
    exact hstanding.moved hpassed resolved

theorem Standing.lt_max {initialTarget : ContinuationTarget} {n : Nat} {calls : List ContinuationTarget}
    (h : Standing limits initialTarget n st calls) : n < max 1 limits.maxSegments := by
  rcases h.bounded with h | h
  · omega
  · omega

/-- What a round may do with the resolver: it asks for one target, and only once
every check has passed, or it ends the walk without a call. -/
inductive RoundCalls (limits : RowSegmentChainLimits) (resolve : σ → ContinuationTarget → Except E Bytes × σ)
    (initialTarget : ContinuationTarget) (st : WalkState) (s : σ) (calls : List ContinuationTarget) : Prop
  | asks (record : RowSegmentChainSegment) (next : ContinuationTarget) (passed : Passed E limits st record next)
      (fresh : next ∉ initialTarget :: calls)
      (round : walkRound limits (logged resolve) (st, s, calls) = match resolve s next with
        | (.error source, s') => .returns (fail (.resolver next source), s', calls ++ [next])
        | (.ok resolved, s') => .goesOn (movedTo st record next resolved, s', calls ++ [next]))
  | ends (failed : ¬∃ record next, Passed E limits st record next) (outcome : WalkOutcome E)
      (round : walkRound limits (logged resolve) (st, s, calls) = .returns (outcome, s, calls))

theorem Standing.roundCalls {initialTarget : ContinuationTarget} {n : Nat} {calls : List ContinuationTarget}
    (h : Standing limits initialTarget n st calls) : RoundCalls limits resolve initialTarget st s calls := by
  by_cases hpassed : ∃ record next, Passed E limits st record next
  case neg =>
    obtain ⟨outcome, hreturns⟩ := walkRound_stopped hpassed
    exact .ends hpassed outcome (hreturns _ _)
  obtain ⟨record, next, hpassed⟩ := hpassed
  refine .asks record next hpassed ?_ ?_
  · have hfresh := hpassed.fresh
    rw [h.visited, List.mem_append, List.mem_reverse, List.mem_singleton, not_or] at hfresh
    rw [List.mem_cons, not_or]
    exact hfresh.symm
  · rw [walkRound_passed hpassed, logged]
    rcases resolve s next with ⟨_ | resolved, s'⟩
    · rfl
    · rfl

def callsOf (initialTarget : ContinuationTarget) (initialBytes : Bytes) (limits : RowSegmentChainLimits)
    (resolve : σ → ContinuationTarget → Except E Bytes × σ) (s : σ) : List ContinuationTarget :=
  (walkRowSegmentChain initialTarget initialBytes limits (logged resolve) (s, [])).2.2

theorem RoundCalls.of_returns {initialTarget : ContinuationTarget} {n : Nat}
    {calls calls' : List ContinuationTarget} {outcome : WalkOutcome E} {s' : σ}
    (hstanding : Standing limits initialTarget n st calls)
    (h : RoundCalls limits resolve initialTarget st s calls)
    (hreturns : walkRound limits (logged resolve) (st, s, calls) = .returns (outcome, s', calls')) :
    calls'.length ≤ limits.maxSegments - 1 ∧ (initialTarget :: calls').Nodup := by
  have hnodup : (initialTarget :: calls).Nodup := by
    have h := hstanding.nodup
    rw [hstanding.visited, ← List.reverse_cons, List.nodup_reverse] at h
    exact h
  cases h with
  | asks record next passed fresh round =>
      have hleft := passed.left
      rw [hstanding.recorded] at hleft
      have hcalls : calls' = calls ++ [next] := by
        rw [round] at hreturns
        rcases hresolve : resolve s next with ⟨source | resolved, s''⟩
        · rw [hresolve] at hreturns
          cases hreturns
          rfl
        · rw [hresolve] at hreturns
          cases hreturns
      rw [hcalls]
      constructor
      · rw [List.length_append, List.length_singleton, hstanding.called]
        omega
      · rw [← List.cons_append, ← List.concat_eq_append]
        exact hnodup.concat fresh
  | ends failed outcome round =>
      rw [round] at hreturns
      cases hreturns
      refine ⟨?_, hnodup⟩
      have := hstanding.called
      rcases hstanding.bounded with h | h
      · omega
      · omega

theorem walk_returns (initialTarget : ContinuationTarget) (initialBytes : Bytes) (limits : RowSegmentChainLimits)
    (resolve : σ → ContinuationTarget → Except E Bytes × σ) (s : σ) :
    ∃ n, n < max 1 limits.maxSegments ∧ ReturnsAfter (walkRound limits (logged resolve))
      (walkStart initialTarget initialBytes, s, []) n
      (walkRowSegmentChain initialTarget initialBytes limits (logged resolve) (s, [])) := by
  obtain ⟨n, result, hn, hreturns⟩ := returnsAfter_of_bound (walkRound limits (logged resolve))
    (walkStart initialTarget initialBytes, s, []) (max 1 limits.maxSegments) (by
      rintro n ⟨st, s', calls⟩ reached
      exact (walk_standing reached).lt_max)
  have hresult := ReturnsAfter.loop_eq (walkLoop_rounds limits (logged resolve)) hreturns
  obtain rfl : walkRowSegmentChain initialTarget initialBytes limits (logged resolve) (s, []) = result := hresult
  exact ⟨n, hn, hreturns⟩

/-- Under every resolver the walk ends within its number of segments, asks for
each target once at most and only when every check before has passed, and keeps
its sum of payloads inside the limit. -/
theorem walkRowSegmentChain_resolver (initialTarget : ContinuationTarget) (initialBytes : Bytes)
    (limits : RowSegmentChainLimits) (resolve : σ → ContinuationTarget → Except E Bytes × σ) (s : σ) :
    (walkRowSegmentChain initialTarget initialBytes limits (logged resolve) (s, [])).1 =
        (walkRowSegmentChain initialTarget initialBytes limits resolve s).1 ∧
    (walkRowSegmentChain initialTarget initialBytes limits (logged resolve) (s, [])).2.1 =
        (walkRowSegmentChain initialTarget initialBytes limits resolve s).2 ∧
    (∃ n, n + 1 ≤ max 1 limits.maxSegments ∧ ReturnsAfter (walkRound limits (logged resolve))
      (walkStart initialTarget initialBytes, s, []) n
      (walkRowSegmentChain initialTarget initialBytes limits (logged resolve) (s, []))) ∧
    (callsOf initialTarget initialBytes limits resolve s).length ≤ limits.maxSegments - 1 ∧
    initialTarget ∉ callsOf initialTarget initialBytes limits resolve s ∧
    (callsOf initialTarget initialBytes limits resolve s).Nodup ∧
    ∀ n st s' calls, Reaches (walkRound limits (logged resolve)) (walkStart initialTarget initialBytes, s, []) n
        (st, s', calls) →
      RoundCalls limits resolve initialTarget st s' calls ∧
      st.totalPayloadBytes ≤ limits.maxTotalPayloadBytes ∧
      ∀ record next, checkSegment (E := E) limits st = .ok (record, next) →
        st.totalPayloadBytes + record.payload.length ≤ limits.maxTotalPayloadBytes ∧
        (limits.maxTotalPayloadBytes ≤ usizeMax → st.totalPayloadBytes + record.payload.length ≤ usizeMax) := by
  obtain ⟨hlogged, hstate⟩ := walkRowSegmentChain_logged initialTarget initialBytes limits resolve s
  obtain ⟨n, hn, hreturns⟩ := walk_returns initialTarget initialBytes limits resolve s
  obtain ⟨⟨st, s', calls⟩, reached, round⟩ := hreturns
  have hstanding := walk_standing reached
  obtain ⟨hlength, hnodup⟩ := RoundCalls.of_returns hstanding hstanding.roundCalls round
  obtain ⟨hinitial, hnodup⟩ := List.nodup_cons.mp hnodup
  refine ⟨hlogged, hstate, ⟨n, hn, _, reached, round⟩, hlength, hinitial, hnodup, ?_⟩
  intro n st s' calls reached
  have hstanding := walk_standing reached
  refine ⟨hstanding.roundCalls, hstanding.payload, ?_⟩
  intro record next hcheck
  have hsum := checked_payload_le hstanding.payload hcheck
  exact ⟨hsum, hsum.trans⟩

end OpenSqlAny.SegmentResolving
