import OpenSqlAny.SegmentReading

namespace OpenSqlAny.SegmentChains

open Library.Faults Library.LittleEndian RowSegments SegmentReading

variable {E σ : Type}

def ParsesAs (bytes : Bytes) (segment : RowSegment) (payload : Bytes) : Prop :=
  parseRowSegment bytes = .ok segment ∧ segment.declaredLen = bytes.length ∧
    segment.payload (ε := RowSegmentError) = .ok payload

def recordOf (target : ContinuationTarget) (segment : RowSegment) (payload : Bytes) : RowSegmentChainSegment :=
  ⟨target, segment.flags, segment.declaredLen, payload⟩

/-- The path of segments from a target and its bytes on, up to the first one
that is not continued. There are no limits on it. -/
inductive ChainPath (f : ContinuationTarget → Except E Bytes) :
    ContinuationTarget → Bytes → List RowSegmentChainSegment → Prop
  | last {target : ContinuationTarget} {bytes payload : Bytes} {segment : RowSegment}
      (parses : ParsesAs bytes segment payload) (ends : segment.nextTarget = none) :
      ChainPath f target bytes [recordOf target segment payload]
  | link {target next : ContinuationTarget} {bytes payload rest : Bytes} {segment : RowSegment}
      {records : List RowSegmentChainSegment} (parses : ParsesAs bytes segment payload)
      (continues : segment.nextTarget = some next) (resolves : f next = .ok rest)
      (path : ChainPath f next rest records) :
      ChainPath f target bytes (recordOf target segment payload :: records)

def targets (records : List RowSegmentChainSegment) : List ContinuationTarget := records.map (·.target)

def payloadBytes (records : List RowSegmentChainSegment) : Nat := (records.map (·.payload.length)).sum

theorem chainPath_iff {f : ContinuationTarget → Except E Bytes} {target : ContinuationTarget} {bytes : Bytes}
    {segment : RowSegment} {payload : Bytes} (h : ParsesAs bytes segment payload)
    {records : List RowSegmentChainSegment} : ChainPath f target bytes records ↔
      match segment.nextTarget with
      | none => records = [recordOf target segment payload]
      | some next => ∃ rest tail, f next = .ok rest ∧ ChainPath f next rest tail ∧
          records = recordOf target segment payload :: tail := by
  have unique {segment' : RowSegment} {payload' : Bytes} (h' : ParsesAs bytes segment' payload') :
      segment' = segment ∧ payload' = payload := by
    obtain rfl : segment' = segment := Except.ok.inj (h'.1.symm.trans h.1)
    exact ⟨rfl, Except.ok.inj (h'.2.2.symm.trans h.2.2)⟩
  constructor
  · intro hp
    cases hp with
    | last parses ends =>
        obtain ⟨rfl, rfl⟩ := unique parses
        rw [ends]
    | link parses continues resolves path =>
        obtain ⟨rfl, rfl⟩ := unique parses
        rw [continues]
        exact ⟨_, _, resolves, path, rfl⟩
  · intro hp
    cases hnext : segment.nextTarget with
    | none =>
        rw [hnext] at hp
        exact hp ▸ .last h hnext
    | some next =>
        rw [hnext] at hp
        obtain ⟨rest, tail, hf, path, rfl⟩ := hp
        exact .link h hnext hf path

theorem ChainPath.parses {f : ContinuationTarget → Except E Bytes} {target : ContinuationTarget} {bytes : Bytes}
    {records : List RowSegmentChainSegment} (h : ChainPath f target bytes records) :
    ∃ segment payload tail, ParsesAs bytes segment payload ∧ records = recordOf target segment payload :: tail := by
  cases h with
  | last parses _ => exact ⟨_, _, [], parses, rfl⟩
  | link parses _ _ _ => exact ⟨_, _, _, parses, rfl⟩

theorem payload_eq_ok_iff {ε δ : Type} {segment : RowSegment} {payload : Bytes} :
    segment.payload (ε := ε) = .ok payload ↔ segment.payload (ε := δ) = .ok payload := by
  rw [RowSegment.payload, RowSegment.payload, slice, slice]
  split
  · simp
  · simp [panicked]

theorem checkSegment_eq_ok_iff {limits : RowSegmentChainLimits} {st : WalkState}
    {record : RowSegmentChainSegment} {next : Option ContinuationTarget} :
    checkSegment (E := E) limits st = .ok (record, next) ↔ ∃ segment payload, ParsesAs st.bytes segment payload ∧
      payload.length ≤ limits.maxTotalPayloadBytes - st.totalPayloadBytes ∧
      record = recordOf st.target segment payload ∧ next = segment.nextTarget := by
  rw [checkSegment, Library.Faults.bind_eq_ok_iff]
  constructor
  · rintro ⟨segment, hparse, h⟩
    split at h
    · cases h
    next hlen =>
      obtain ⟨payload, hpayload, h⟩ := Library.Faults.bind_eq_ok_iff.mp h
      split at h
      · cases h
      next hfits =>
        cases h
        exact ⟨segment, payload, ⟨mapErr_eq_ok_iff.mp hparse, not_not.mp hlen, payload_eq_ok_iff.mp hpayload⟩,
          by omega, rfl, rfl⟩
  · rintro ⟨segment, payload, ⟨hparse, hlen, hpayload⟩, hfits, rfl, rfl⟩
    refine ⟨segment, mapErr_eq_ok_iff.mpr hparse, ?_⟩
    rw [if_neg (not_not.mpr hlen), payload_eq_ok_iff.mp hpayload]
    exact if_neg (by omega)

/-- What a state of the walk has before it: a path whose further targets are new
and which stays inside both limits. -/
structure Continues (f : ContinuationTarget → Except E Bytes) (limits : RowSegmentChainLimits) (st : WalkState)
    (records : List RowSegmentChainSegment) : Prop where
  path : ChainPath f st.target st.bytes records
  nodup : (targets records.tail).Nodup
  fresh : ∀ target ∈ targets records.tail, target ∉ st.visited
  segments : st.segments.length + records.length ≤ limits.maxSegments
  payload : st.totalPayloadBytes + payloadBytes records ≤ limits.maxTotalPayloadBytes

@[simp] theorem targets_cons (record : RowSegmentChainSegment) (records : List RowSegmentChainSegment) :
    targets (record :: records) = record.target :: targets records := rfl

@[simp] theorem payloadBytes_cons (record : RowSegmentChainSegment) (records : List RowSegmentChainSegment) :
    payloadBytes (record :: records) = record.payload.length + payloadBytes records := by
  simp [payloadBytes]

theorem ChainPath.tail_targets {f : ContinuationTarget → Except E Bytes} {target : ContinuationTarget}
    {bytes : Bytes} {records : List RowSegmentChainSegment} (h : ChainPath f target bytes records) :
    targets records = target :: targets records.tail := by
  obtain ⟨segment, payload, tail, -, rfl⟩ := h.parses
  rfl

section Rounds

variable {f : ContinuationTarget → Except E Bytes} {limits : RowSegmentChainLimits} {st : WalkState}
  {segment : RowSegment} {payload : Bytes} {records : List RowSegmentChainSegment}

theorem continues_last_iff (h : ParsesAs st.bytes segment payload) (ends : segment.nextTarget = none)
    (hfits : payload.length ≤ limits.maxTotalPayloadBytes - st.totalPayloadBytes)
    (htotal : st.totalPayloadBytes ≤ limits.maxTotalPayloadBytes)
    (hroom : st.segments.length < limits.maxSegments) :
    Continues f limits st records ↔ records = [recordOf st.target segment payload] := by
  constructor
  · intro hc
    have hpath := (chainPath_iff h).mp hc.path
    rw [ends] at hpath
    exact hpath
  · rintro rfl
    refine ⟨.last h ends, by simp [targets], by simp [targets], hroom, ?_⟩
    simp only [payloadBytes, recordOf, List.map_cons, List.map_nil, List.sum_cons, List.sum_nil]
    omega

def movedTo (st : WalkState) (record : RowSegmentChainSegment) (next : ContinuationTarget) (rest : Bytes) :
    WalkState :=
  ⟨next :: st.visited, st.segments ++ [record], st.totalPayloadBytes + record.payload.length, next, rest⟩

theorem Continues.moved (h : ParsesAs st.bytes segment payload) {next : ContinuationTarget}
    (continues : segment.nextTarget = some next) (hc : Continues f limits st records) :
    next ∉ st.visited ∧ st.segments.length + 1 < limits.maxSegments ∧ ∃ rest tail, f next = .ok rest ∧
      records = recordOf st.target segment payload :: tail ∧
      Continues f limits (movedTo st (recordOf st.target segment payload) next rest) tail := by
  have hpath := (chainPath_iff h).mp hc.path
  rw [continues] at hpath
  obtain ⟨rest, tail, hf, path, rfl⟩ := hpath
  have hnodup := hc.nodup
  have hfresh := hc.fresh
  have hsegments := hc.segments
  have hpayload := hc.payload
  rw [List.tail_cons, path.tail_targets] at hnodup hfresh
  obtain ⟨hnew, hnodup⟩ := List.nodup_cons.mp hnodup
  obtain ⟨hvisited, hfresh⟩ := List.forall_mem_cons.mp hfresh
  obtain ⟨segment', payload', tail', -, htail⟩ := path.parses
  have hlen : 1 ≤ tail.length := by rw [htail, List.length_cons]; omega
  rw [List.length_cons] at hsegments
  rw [payloadBytes_cons] at hpayload
  refine ⟨hvisited, by omega, rest, tail, hf, rfl, path, hnodup, ?_, ?_, ?_⟩
  · intro target ht
    rw [movedTo, List.mem_cons, not_or]
    refine ⟨?_, hfresh target ht⟩
    rintro rfl
    exact hnew ht
  · rw [movedTo, List.length_append, List.length_singleton]
    omega
  · simp only [movedTo]
    omega

theorem Continues.of_moved (h : ParsesAs st.bytes segment payload) {next : ContinuationTarget}
    (continues : segment.nextTarget = some next) (hvisited : next ∉ st.visited) {rest : Bytes}
    (hf : f next = .ok rest)
    (htail : Continues f limits (movedTo st (recordOf st.target segment payload) next rest) records) :
    Continues f limits st (recordOf st.target segment payload :: records) := by
  have hsegments := htail.segments
  have hpayload := htail.payload
  rw [movedTo, List.length_append, List.length_singleton] at hsegments
  simp only [movedTo] at hpayload
  refine ⟨.link h continues hf htail.path, ?_, ?_, ?_, ?_⟩
  · rw [List.tail_cons, htail.path.tail_targets, List.nodup_cons]
    exact ⟨fun hmem => htail.fresh next hmem (List.mem_cons_self ..), htail.nodup⟩
  · rw [List.tail_cons, htail.path.tail_targets, List.forall_mem_cons]
    exact ⟨hvisited, fun target ht hmem => htail.fresh target ht (List.mem_cons_of_mem _ hmem)⟩
  · rw [List.length_cons]
    omega
  · rw [payloadBytes_cons]
    omega

theorem Continues.room (h : Continues f limits st records) : st.segments.length < limits.maxSegments := by
  obtain ⟨segment, payload, tail, -, rfl⟩ := h.path.parses
  have := h.segments
  rw [List.length_cons] at this
  omega

theorem Continues.check (h : Continues f limits st records) :
    ∃ entry, checkSegment (E := E) limits st = .ok entry := by
  obtain ⟨segment, payload, tail, hparse, rfl⟩ := h.path.parses
  have hpayload := h.payload
  rw [payloadBytes_cons] at hpayload
  simp only [recordOf] at hpayload
  exact ⟨_, checkSegment_eq_ok_iff.mpr ⟨segment, payload, hparse, by omega, rfl, rfl⟩⟩

end Rounds

section Walking

variable {f : ContinuationTarget → Except E Bytes} {note : σ → ContinuationTarget → σ}
  {limits : RowSegmentChainLimits} {st : WalkState} {s s' : σ} {chain : RowSegmentChain}

def Walked (f : ContinuationTarget → Except E Bytes) (note : σ → ContinuationTarget → σ)
    (limits : RowSegmentChainLimits) (st : WalkState) (s : σ) (chain : RowSegmentChain) (s' : σ) : Prop :=
  ∃ records, Continues f limits st records ∧
    chain = ⟨st.segments ++ records, st.totalPayloadBytes + payloadBytes records⟩ ∧
    s' = (targets records.tail).foldl note s

theorem walked_last_iff {segment : RowSegment} {payload : Bytes} (h : ParsesAs st.bytes segment payload)
    (ends : segment.nextTarget = none)
    (hfits : payload.length ≤ limits.maxTotalPayloadBytes - st.totalPayloadBytes)
    (htotal : st.totalPayloadBytes ≤ limits.maxTotalPayloadBytes)
    (hroom : st.segments.length < limits.maxSegments) :
    Walked f note limits st s chain s' ↔
      chain = ⟨st.segments ++ [recordOf st.target segment payload], st.totalPayloadBytes + payload.length⟩ ∧
        s' = s := by
  simp only [Walked, continues_last_iff h ends hfits htotal hroom, exists_eq_left]
  simp only [payloadBytes, recordOf, List.map_cons, List.map_nil, List.sum_cons, List.sum_nil, Nat.add_zero,
    targets, List.tail_cons, List.foldl_nil]

theorem Walked.moves {segment : RowSegment} {payload : Bytes} (hw : Walked f note limits st s chain s')
    (h : ParsesAs st.bytes segment payload) {next : ContinuationTarget} (continues : segment.nextTarget = some next) :
    next ∉ st.visited ∧ st.segments.length + 1 < limits.maxSegments ∧ ∃ rest, f next = .ok rest := by
  obtain ⟨records, hc, -⟩ := hw
  obtain ⟨hnew, hroom, rest, tail, hrest, -⟩ := hc.moved h continues
  exact ⟨hnew, hroom, rest, hrest⟩

theorem walked_moved_iff {segment : RowSegment} {payload rest : Bytes} (h : ParsesAs st.bytes segment payload)
    {next : ContinuationTarget} (continues : segment.nextTarget = some next) (hnew : next ∉ st.visited)
    (hf : f next = .ok rest) :
    Walked f note limits st s chain s' ↔
      Walked f note limits (movedTo st (recordOf st.target segment payload) next rest) (note s next) chain s' := by
  constructor
  · rintro ⟨records, hc, rfl, rfl⟩
    obtain ⟨-, -, rest', tail, hrest, rfl, htail⟩ := hc.moved h continues
    obtain rfl : rest = rest' := Except.ok.inj (hf.symm.trans hrest)
    refine ⟨tail, htail, ?_, ?_⟩
    · simp [movedTo, Nat.add_assoc]
    · rw [List.tail_cons, htail.path.tail_targets, List.foldl_cons, movedTo]
  · rintro ⟨tail, htail, rfl, rfl⟩
    refine ⟨_, .of_moved h continues hnew hf htail, ?_, ?_⟩
    · simp [movedTo, Nat.add_assoc]
    · rw [List.tail_cons, htail.path.tail_targets, List.foldl_cons, movedTo]

theorem walkLoop_full (hfull : limits.maxSegments ≤ st.segments.length) :
    walkLoop limits (fun s target => (f target, note s target)) st s = (.ok chain, s') ↔
      Walked f note limits st s chain s' := by
  rw [walkLoop, if_pos hfull]
  apply iff_of_false
  · simp [fail]
  · rintro ⟨records, hc, -⟩
    have := hc.room
    omega

theorem walkLoop_eq_ok_iff (n : Nat) (hn : limits.maxSegments - st.segments.length ≤ n)
    (htotal : st.totalPayloadBytes ≤ limits.maxTotalPayloadBytes) :
    walkLoop limits (fun s target => (f target, note s target)) st s = (.ok chain, s') ↔
      Walked f note limits st s chain s' := by
  induction n generalizing st s with
  | zero => exact walkLoop_full (by omega)
  | succ n ih =>
      by_cases hfull : limits.maxSegments ≤ st.segments.length
      case pos => exact walkLoop_full hfull
      rw [walkLoop, if_neg hfull]
      cases hcheck : checkSegment (E := E) limits st with
      | error e =>
          apply iff_of_false
          · simp
          · rintro ⟨records, hc, -⟩
            obtain ⟨entry, hentry⟩ := hc.check
            rw [hcheck] at hentry
            cases hentry
      | ok entry =>
          obtain ⟨record, next⟩ := entry
          obtain ⟨segment, payload, hparse, hfits, rfl, rfl⟩ := checkSegment_eq_ok_iff.mp hcheck
          cases hnext : segment.nextTarget with
          | none =>
              rw [walked_last_iff hparse hnext hfits htotal (by omega), Prod.mk.injEq, Except.ok.injEq]
              exact and_congr eq_comm eq_comm
          | some next =>
              simp only [List.length_append, List.length_singleton]
              split
              next hseen =>
                apply iff_of_false
                · simp [fail]
                · intro hw
                  exact (hw.moves hparse hnext).1 hseen
              next hnew =>
                split
                next hlast =>
                  apply iff_of_false
                  · simp [fail]
                  · intro hw
                    have hroom := (hw.moves hparse hnext).2.1
                    omega
                next hleft =>
                  cases hresolve : f next with
                  | error source =>
                      apply iff_of_false
                      · simp [fail]
                      · intro hw
                        obtain ⟨rest, hrest⟩ := (hw.moves hparse hnext).2.2
                        rw [hresolve] at hrest
                        cases hrest
                  | ok rest =>
                      rw [walked_moved_iff hparse hnext hnew hresolve]
                      apply ih
                      · rw [List.length_append, List.length_singleton]
                        omega
                      · simp only [recordOf]
                        omega

end Walking

/-- A path without repeated targets that stays inside the limits. -/
structure ChainWithin (f : ContinuationTarget → Except E Bytes) (limits : RowSegmentChainLimits)
    (initialTarget : ContinuationTarget) (initialBytes : Bytes) (records : List RowSegmentChainSegment) : Prop where
  path : ChainPath f initialTarget initialBytes records
  distinct : (targets records).Nodup
  segments : records.length ≤ limits.maxSegments
  payload : payloadBytes records ≤ limits.maxTotalPayloadBytes

theorem continues_start_iff {f : ContinuationTarget → Except E Bytes} {limits : RowSegmentChainLimits}
    {initialTarget : ContinuationTarget} {initialBytes : Bytes} {records : List RowSegmentChainSegment} :
    Continues f limits ⟨[initialTarget], [], 0, initialTarget, initialBytes⟩ records ↔
      ChainWithin f limits initialTarget initialBytes records := by
  constructor
  · intro h
    refine ⟨h.path, ?_, by simpa using h.segments, by simpa using h.payload⟩
    rw [h.path.tail_targets, List.nodup_cons]
    exact ⟨fun hmem => h.fresh _ hmem (List.mem_cons_self ..), h.nodup⟩
  · intro h
    have hdistinct := h.distinct
    rw [h.path.tail_targets, List.nodup_cons] at hdistinct
    refine ⟨h.path, hdistinct.2, ?_, by simpa using h.segments, by simpa using h.payload⟩
    intro target ht
    rw [List.mem_singleton]
    rintro rfl
    exact hdistinct.1 ht

theorem walkRowSegmentChain_eq_ok_iff {f : ContinuationTarget → Except E Bytes}
    {note : σ → ContinuationTarget → σ} {limits : RowSegmentChainLimits} {initialTarget : ContinuationTarget}
    {initialBytes : Bytes} {s s' : σ} {chain : RowSegmentChain} :
    walkRowSegmentChain initialTarget initialBytes limits (fun s target => (f target, note s target)) s =
        (.ok chain, s') ↔
      ∃ records, ChainWithin f limits initialTarget initialBytes records ∧
        chain = ⟨records, payloadBytes records⟩ ∧ s' = (targets records.tail).foldl note s := by
  rw [walkRowSegmentChain, walkLoop_eq_ok_iff _ le_rfl (Nat.zero_le _)]
  simp only [Walked, continues_start_iff, List.nil_append, Nat.zero_add]

/-- The walk with a pure resolver finds exactly the paths inside its limits, so
higher limits never change a result. -/
theorem walkRowSegmentChain_reference (f : ContinuationTarget → Except E Bytes)
    (initialTarget : ContinuationTarget) (initialBytes : Bytes) :
    (∀ limits chain, (walkRowSegmentChain initialTarget initialBytes limits (fun _ target => (f target, ())) ()).1 =
        .ok chain ↔
      ∃ records, ChainWithin f limits initialTarget initialBytes records ∧
        chain = ⟨records, payloadBytes records⟩) ∧
    ∀ limits limits' chain, limits.maxSegments ≤ limits'.maxSegments →
      limits.maxTotalPayloadBytes ≤ limits'.maxTotalPayloadBytes →
      (walkRowSegmentChain initialTarget initialBytes limits (fun _ target => (f target, ())) ()).1 = .ok chain →
      (walkRowSegmentChain initialTarget initialBytes limits' (fun _ target => (f target, ())) ()).1 = .ok chain := by
  have hiff (limits : RowSegmentChainLimits) (chain : RowSegmentChain) :
      (walkRowSegmentChain initialTarget initialBytes limits (fun _ target => (f target, ())) ()).1 = .ok chain ↔
        ∃ records, ChainWithin f limits initialTarget initialBytes records ∧
          chain = ⟨records, payloadBytes records⟩ := by
    have h := @walkRowSegmentChain_eq_ok_iff E Unit f (fun _ _ => ()) limits initialTarget initialBytes () () chain
    simp only [and_true] at h
    rw [← h, Prod.ext_iff]
    simp
  refine ⟨hiff, fun limits limits' chain hsegments hpayload h => ?_⟩
  obtain ⟨records, hrecords, rfl⟩ := (hiff limits chain).mp h
  exact (hiff limits' _).mpr ⟨records, ⟨hrecords.path, hrecords.distinct, hrecords.segments.trans hsegments,
    hrecords.payload.trans hpayload⟩, rfl⟩

theorem walkRowSegmentChain_reference_two :
    (walkRowSegmentChain ⟨7, 1⟩ [10, 0, 4, 7, 0, 0, 0, 2, 0, 0xaa] ⟨5, 10⟩
      (fun (_ : Unit) _ => (Except.ok (ε := Unit) [4, 0, 0, 0xbb], ())) ()).1 =
        .ok ⟨[⟨⟨7, 1⟩, 4, 10, [0xaa]⟩, ⟨⟨7, 2⟩, 0, 4, [0xbb]⟩], 2⟩ :=
  (walkRowSegmentChain_reference (fun _ => .ok [4, 0, 0, 0xbb]) ⟨7, 1⟩ [10, 0, 4, 7, 0, 0, 0, 2, 0, 0xaa]).2
    ⟨2, 2⟩ ⟨5, 10⟩ _ (by decide) (by decide)
    (((walkRowSegmentChain_reference (fun _ => .ok [4, 0, 0, 0xbb]) ⟨7, 1⟩
      [10, 0, 4, 7, 0, 0, 0, 2, 0, 0xaa]).1 ⟨2, 2⟩ _).mpr
        ⟨[⟨⟨7, 1⟩, 4, 10, [0xaa]⟩, ⟨⟨7, 2⟩, 0, 4, [0xbb]⟩],
          ⟨.link (show ParsesAs _ ⟨10, 4, some ⟨7, 2⟩, [10, 0, 4, 7, 0, 0, 0, 2, 0, 0xaa]⟩ [0xaa] from
              ⟨rfl, rfl, rfl⟩) rfl rfl
              (.last (show ParsesAs _ ⟨4, 0, none, [4, 0, 0, 0xbb]⟩ [0xbb] from ⟨rfl, rfl, rfl⟩) rfl),
            by decide, by decide, by decide⟩, rfl⟩)

end OpenSqlAny.SegmentChains
