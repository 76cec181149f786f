import Mathlib.Data.List.Infix
import Mathlib.Data.Nat.Basic
import Mathlib.Order.Basic
import OpenSqlAny.RowSegments

namespace OpenSqlAny.SegmentReading

open Library.Faults Library.LittleEndian RowSegments

def targetBytes (target : ContinuationTarget) : Bytes :=
  toLeBytes 4 target.resolverKey.toNat ++ toLeBytes 2 target.recordId.toNat

def linkBytes : Option ContinuationTarget → Bytes
  | none => []
  | some target => targetBytes target

def segmentLen (next : Option ContinuationTarget) (payload : Bytes) : Nat :=
  3 + (linkBytes next).length + payload.length

/-- A segment as it stands in a file: total length, flags, the next target of
a continued segment, payload. -/
def segmentBytes (flags : UInt8) (next : Option ContinuationTarget) (payload : Bytes) : Bytes :=
  toLeBytes 2 (segmentLen next payload) ++ flags :: (linkBytes next ++ payload)

def saysContinued (flags : UInt8) : Bool := flags &&& rowSegmentContinued != 0

def segmentOf (flags : UInt8) (next : Option ContinuationTarget) (payload : Bytes) : RowSegment :=
  ⟨segmentLen next payload, flags, next, segmentBytes flags next payload⟩

@[simp] theorem length_targetBytes (target : ContinuationTarget) : (targetBytes target).length = 6 := by
  simp [targetBytes]

@[simp] theorem length_segmentBytes (flags : UInt8) (next : Option ContinuationTarget) (payload : Bytes) :
    (segmentBytes flags next payload).length = segmentLen next payload := by
  simp only [segmentBytes, segmentLen, List.length_append, List.length_cons, length_toLeBytes]
  omega

theorem headerLen_segmentOf (flags : UInt8) (next : Option ContinuationTarget) (payload : Bytes) :
    (segmentOf flags next payload).headerLen = 3 + (linkBytes next).length := by
  cases next with
  | none => rfl
  | some target => simp [segmentOf, RowSegment.headerLen, RowSegment.isContinued, linkBytes,
      continuedRowSegmentHeaderLen]

theorem payload_segmentOf {ε : Type} (flags : UInt8) (next : Option ContinuationTarget) (payload : Bytes) :
    (segmentOf flags next payload).payload (ε := ε) = .ok payload := by
  have hlen : (segmentOf flags next payload).bytes.length = segmentLen next payload :=
    length_segmentBytes flags next payload
  have hle : 3 + (linkBytes next).length ≤ segmentLen next payload := by
    simp only [segmentLen]; omega
  rw [RowSegment.payload, headerLen_segmentOf, slice_of_le (hlen ▸ hle) le_rfl, List.take_length]
  have hsplit : (segmentOf flags next payload).bytes =
      (toLeBytes 2 (segmentLen next payload) ++ flags :: linkBytes next) ++ payload := by
    simp [segmentOf, segmentBytes]
  rw [hsplit, List.drop_left']
  simp only [List.length_append, List.length_cons, length_toLeBytes]
  omega

theorem fromLeBytes_target_eq_ok_iff {ε : Type} {bytes : Bytes} {target : ContinuationTarget} :
    ContinuationTarget.fromLeBytes (ε := ε) bytes = .ok target ↔ bytes = targetBytes target := by
  constructor
  · intro h
    rw [ContinuationTarget.fromLeBytes.eq_def] at h
    split at h
    next b₀ b₁ b₂ b₃ b₄ b₅ =>
      obtain rfl := Except.ok.inj h
      have hkey : Library.LittleEndian.fromLeBytes [b₀, b₁, b₂, b₃] < 2 ^ 32 := fromLeBytes_lt _
      have hid : Library.LittleEndian.fromLeBytes [b₄, b₅] < 2 ^ 16 := fromLeBytes_lt _
      simp only [targetBytes, UInt32.toNat_ofNat', UInt16.toNat_ofNat', Nat.mod_eq_of_lt hkey,
        Nat.mod_eq_of_lt hid]
      have h₁ := toLeBytes_fromLeBytes [b₀, b₁, b₂, b₃]
      have h₂ := toLeBytes_fromLeBytes [b₄, b₅]
      simp only [List.length_cons, List.length_nil] at h₁ h₂
      rw [h₁, h₂]
      rfl
    next => cases h
  · rintro rfl
    have hkey : Library.LittleEndian.fromLeBytes (toLeBytes 4 target.resolverKey.toNat) =
        target.resolverKey.toNat := fromLeBytes_toLeBytes target.resolverKey.toNat_lt
    have hid : Library.LittleEndian.fromLeBytes (toLeBytes 2 target.recordId.toNat) =
        target.recordId.toNat := fromLeBytes_toLeBytes target.recordId.toNat_lt
    change Except.ok (ContinuationTarget.mk
      (UInt32.ofNat (Library.LittleEndian.fromLeBytes (toLeBytes 4 target.resolverKey.toNat)))
      (UInt16.ofNat (Library.LittleEndian.fromLeBytes (toLeBytes 2 target.recordId.toNat)))) = _
    rw [hkey, hid, UInt32.ofNat_toNat, UInt16.ofNat_toNat]

theorem fromLeBytes_target_ne_panic {ε : Type} {bytes : Bytes} (hlen : bytes.length = 6) :
    ContinuationTarget.fromLeBytes (ε := ε) bytes ≠ .error .panic := by
  match bytes, hlen with
  | [_, _, _, _, _, _], _ => simp [ContinuationTarget.fromLeBytes]

def headerLenOf (flags : UInt8) : Nat :=
  if saysContinued flags then continuedRowSegmentHeaderLen else rowSegmentHeaderLen

theorem parseRowSegment_cons (a b flags : UInt8) (rest : Bytes) :
    parseRowSegment (a :: b :: flags :: rest) =
      let declaredLen := Library.LittleEndian.fromLeBytes [a, b]
      if declaredLen < headerLenOf flags ∨ declaredLen > (a :: b :: flags :: rest).length then
        fail (.invalidLength declaredLen (headerLenOf flags) (a :: b :: flags :: rest).length)
      else if saysContinued flags then
        ContinuationTarget.fromLeBytes (rest.take 6) >>= fun target =>
          .ok ⟨declaredLen, flags, some target, (a :: b :: flags :: rest).take declaredLen⟩
      else .ok ⟨declaredLen, flags, none, (a :: b :: flags :: rest).take declaredLen⟩ := by
  have hlen : ¬ (a :: b :: flags :: rest).length < rowSegmentHeaderLen := by
    simp [rowSegmentHeaderLen]
  rw [parseRowSegment, if_neg hlen]
  change (if Library.LittleEndian.fromLeBytes [a, b] < headerLenOf flags ∨ _ then _ else _) = _
  by_cases hbad : Library.LittleEndian.fromLeBytes [a, b] < headerLenOf flags ∨
      Library.LittleEndian.fromLeBytes [a, b] > (a :: b :: flags :: rest).length
  · exact (if_pos hbad).trans (if_pos hbad).symm
  · refine (if_neg hbad).trans (Eq.trans ?_ (if_neg hbad).symm)
    have hslice : slice (ε := RowSegmentError) (a :: b :: flags :: rest) 0
        (Library.LittleEndian.fromLeBytes [a, b]) =
          .ok ((a :: b :: flags :: rest).take (Library.LittleEndian.fromLeBytes [a, b])) := by
      rw [slice_of_le (Nat.zero_le _) (by omega), List.drop_zero]
    cases hc : saysContinued flags with
    | false =>
        rw [saysContinued] at hc
        simp only [hc, Bool.false_eq_true, ↓reduceIte, hslice]
        rfl
    | true =>
        have hroom : 9 ≤ (a :: b :: flags :: rest).length := by
          simp only [headerLenOf, hc, ↓reduceIte, continuedRowSegmentHeaderLen] at hbad
          omega
        rw [saysContinued] at hc
        simp only [hc, ↓reduceIte, hslice]
        rw [slice_of_le (by decide) hroom]
        simp only [List.take_succ_cons, List.drop_succ_cons, List.drop_zero]
        rfl

theorem parseRowSegment_ne_panic (input : Bytes) : parseRowSegment input ≠ .error .panic := by
  match input with
  | [] | [_] | [_, _] => simp [parseRowSegment, rowSegmentHeaderLen, fail]
  | a :: b :: flags :: rest =>
      rw [parseRowSegment_cons]
      simp only
      split
      · simp [fail]
      next hgood =>
        split
        next hc =>
          have hroom : 6 ≤ rest.length := by
            simp only [headerLenOf, hc, ↓reduceIte, continuedRowSegmentHeaderLen, List.length_cons] at hgood
            omega
          apply bind_ne_panic
          · apply fromLeBytes_target_ne_panic
            rw [List.length_take, Nat.min_eq_left hroom]
          · simp
        next => simp

theorem take_eq_segmentBytes {a b flags : UInt8} {rest payload : Bytes} {next : Option ContinuationTarget} {len : Nat}
    (hword : toLeBytes 2 len = [a, b]) (hlen : segmentLen next payload = len)
    (hrest : linkBytes next ++ payload <+: rest) :
    (a :: b :: flags :: rest).take len = segmentBytes flags next payload := by
  obtain ⟨beyond, rfl⟩ := hrest
  have hsplit : a :: b :: flags :: (linkBytes next ++ payload ++ beyond) =
      segmentBytes flags next payload ++ beyond := by
    rw [segmentBytes, hlen, hword]
    simp
  rw [hsplit, ← hlen]
  exact List.take_left' (length_segmentBytes flags next payload)

theorem segmentBytes_of_parse {input : Bytes} {segment : RowSegment} (h : parseRowSegment input = .ok segment) :
    ∃ flags next payload, saysContinued flags = next.isSome ∧ segmentLen next payload < 2 ^ 16 ∧
      segmentBytes flags next payload <+: input ∧ segment = segmentOf flags next payload := by
  match input with
  | [] | [_] | [_, _] => simp [parseRowSegment, rowSegmentHeaderLen, fail] at h
  | a :: b :: flags :: rest =>
      rw [parseRowSegment_cons] at h
      simp only at h
      split at h
      · cases h
      next hgood =>
        have hword : Library.LittleEndian.fromLeBytes [a, b] < 2 ^ 16 := fromLeBytes_lt _
        have hbytes : toLeBytes 2 (Library.LittleEndian.fromLeBytes [a, b]) = [a, b] :=
          toLeBytes_fromLeBytes [a, b]
        generalize Library.LittleEndian.fromLeBytes [a, b] = len at *
        split at h
        next hc =>
          simp only [headerLenOf, hc, ↓reduceIte, continuedRowSegmentHeaderLen, List.length_cons] at hgood
          obtain ⟨target, ht, h⟩ := Library.Faults.bind_eq_ok_iff.mp h
          rw [fromLeBytes_target_eq_ok_iff] at ht
          have hlen : segmentLen (some target) ((rest.drop 6).take (len - 9)) = len := by
            simp only [segmentLen, linkBytes, length_targetBytes, List.length_take, List.length_drop]
            omega
          have hrest : linkBytes (some target) ++ (rest.drop 6).take (len - 9) <+: rest := by
            rw [linkBytes, ← ht, ← List.take_add]
            exact List.take_prefix _ _
          have htake := @take_eq_segmentBytes a b flags _ _ _ _ hbytes hlen hrest
          refine ⟨flags, some target, _, hc, hlen.trans_lt hword, htake ▸ List.take_prefix _ _, ?_⟩
          rw [← Except.ok.inj h, segmentOf, hlen, htake]
        next hc =>
          simp only [headerLenOf, hc, Bool.false_eq_true, ↓reduceIte, rowSegmentHeaderLen,
            List.length_cons] at hgood
          have hlen : segmentLen none (rest.take (len - 3)) = len := by
            simp only [segmentLen, linkBytes, List.length_nil, List.length_take]
            omega
          have htake := @take_eq_segmentBytes a b flags _ _ none _ hbytes hlen (List.take_prefix _ _)
          refine ⟨flags, none, _, by simpa using hc, hlen.trans_lt hword, htake ▸ List.take_prefix _ _, ?_⟩
          rw [← Except.ok.inj h, segmentOf, hlen, htake]

theorem parse_segmentBytes {flags : UInt8} {next : Option ContinuationTarget} {payload : Bytes}
    (hflags : saysContinued flags = next.isSome) (hlen : segmentLen next payload < 2 ^ 16) (rest : Bytes) :
    parseRowSegment (segmentBytes flags next payload ++ rest) = .ok (segmentOf flags next payload) := by
  obtain ⟨a, b, hword⟩ : ∃ a b, toLeBytes 2 (segmentLen next payload) = [a, b] := ⟨_, _, rfl⟩
  have hdeclared : Library.LittleEndian.fromLeBytes [a, b] = segmentLen next payload := by
    rw [← hword]
    exact fromLeBytes_toLeBytes hlen
  have hinput : segmentBytes flags next payload ++ rest =
      a :: b :: flags :: (linkBytes next ++ payload ++ rest) := by
    rw [segmentBytes, hword]
    simp
  have htake := @take_eq_segmentBytes a b flags _ payload next _ hword rfl (List.prefix_append _ rest)
  have hroom : ¬ (segmentLen next payload < headerLenOf flags ∨ segmentLen next payload >
      (a :: b :: flags :: (linkBytes next ++ payload ++ rest)).length) := by
    rw [← hinput, List.length_append, length_segmentBytes, headerLenOf, hflags]
    cases next with
    | none => simp [segmentLen, linkBytes, rowSegmentHeaderLen]
    | some target => simp [segmentLen, linkBytes, continuedRowSegmentHeaderLen]
  rw [hinput, parseRowSegment_cons, hdeclared]
  simp only [hroom, ↓reduceIte, hflags, htake]
  cases next with
  | none => rfl
  | some target =>
      have ht : (linkBytes (some target) ++ payload ++ rest).take 6 = targetBytes target := by
        rw [linkBytes, List.append_assoc]
        exact List.take_left' (length_targetBytes target)
      rw [ht, fromLeBytes_target_eq_ok_iff.mpr rfl]
      rfl

theorem parseRowSegment_eq_ok_iff {input : Bytes} {segment : RowSegment} :
    parseRowSegment input = .ok segment ↔ ∃ flags next payload,
      saysContinued flags = next.isSome ∧ segmentLen next payload < 2 ^ 16 ∧
      segmentBytes flags next payload <+: input ∧ segment = segmentOf flags next payload := by
  constructor
  · exact segmentBytes_of_parse
  · rintro ⟨flags, next, payload, hflags, hlen, ⟨rest, rfl⟩, rfl⟩
    exact parse_segmentBytes hflags hlen rest

structure SegmentAt (input : Bytes) (len : Nat) (flags : UInt8) (next : Option ContinuationTarget)
    (payload rest : Bytes) : Prop where
  written : input = toLeBytes 2 len ++ [flags] ++ linkBytes next ++ payload ++ rest
  len_lt : len < 2 ^ 16
  announced : next.isSome = true ↔ flags &&& 0x04 ≠ 0
  len_eq : len = (if next.isSome then 9 else 3) + payload.length

/-- What the accessors of an accepted segment give, and what it does not depend on. -/
structure ReadsBack (input : Bytes) (len : Nat) (flags : UInt8) (next : Option ContinuationTarget)
    (payload : Bytes) (segment : RowSegment) : Prop where
  declared_len : segment.declaredLen = len
  flags_read : segment.flags = flags
  target_read : segment.nextTarget = next
  payload_read : segment.payload (ε := Empty) = .ok payload
  bytes_read : segment.bytes = input.take len
  reencoded : toLeBytes 2 segment.declaredLen ++ [segment.flags] ++ linkBytes segment.nextTarget ++ payload =
    segment.bytes
  stable : ∀ other : Bytes, other.take len = input.take len → parseRowSegment other = .ok segment

section Grammar

variable {input payload rest : Bytes} {len : Nat} {flags : UInt8} {next : Option ContinuationTarget}

theorem headerLen_add (next : Option ContinuationTarget) (payload : Bytes) :
    (if next.isSome then 9 else 3) + payload.length = segmentLen next payload := by
  cases next with
  | none => simp [segmentLen, linkBytes]
  | some target => simp [segmentLen, linkBytes]

theorem announced_iff : (next.isSome = true ↔ flags &&& 0x04 ≠ 0) ↔ saysContinued flags = next.isSome := by
  have hcontinued : saysContinued flags = true ↔ flags &&& 0x04 ≠ 0 := bne_iff_ne
  constructor
  · intro h
    exact Bool.eq_iff_iff.mpr (hcontinued.trans h.symm)
  · intro h
    rw [← hcontinued, h]

theorem segmentAt_iff : SegmentAt input len flags next payload rest ↔
    saysContinued flags = next.isSome ∧ segmentLen next payload < 2 ^ 16 ∧ len = segmentLen next payload ∧
      input = segmentBytes flags next payload ++ rest := by
  constructor
  · intro h
    have hlen := h.len_eq.trans (headerLen_add next payload)
    refine ⟨announced_iff.mp h.announced, hlen ▸ h.len_lt, hlen, ?_⟩
    rw [h.written, hlen, segmentBytes]
    simp
  · rintro ⟨hflags, hlt, rfl, rfl⟩
    refine ⟨?_, hlt, announced_iff.mpr hflags, (headerLen_add next payload).symm⟩
    rw [segmentBytes]
    simp

theorem SegmentAt.readsBack (h : SegmentAt input len flags next payload rest) :
    ReadsBack input len flags next payload (segmentOf flags next payload) := by
  obtain ⟨hflags, hlt, rfl, rfl⟩ := segmentAt_iff.mp h
  have hprefix : (segmentBytes flags next payload ++ rest).take (segmentLen next payload) =
      segmentBytes flags next payload := List.take_left' (length_segmentBytes flags next payload)
  refine ⟨rfl, rfl, rfl, payload_segmentOf flags next payload, hprefix.symm, ?_, ?_⟩
  · rw [segmentOf, segmentBytes]
    simp
  · intro other hother
    rw [← List.take_append_drop (segmentLen next payload) other, hother, hprefix]
    exact parse_segmentBytes hflags hlt _

/-- The parser accepts exactly the inputs that begin with a segment, and gives back what is written there. -/
theorem parseRowSegment_grammar (input : Bytes) :
    ((∃ segment, parseRowSegment input = .ok segment) ↔
      ∃ len flags next payload rest, SegmentAt input len flags next payload rest) ∧
    ∀ segment len flags next payload rest, parseRowSegment input = .ok segment →
      SegmentAt input len flags next payload rest → ReadsBack input len flags next payload segment := by
  refine ⟨⟨?_, ?_⟩, ?_⟩
  · intro ⟨segment, hparse⟩
    obtain ⟨flags, next, payload, hflags, hlen, ⟨rest, hrest⟩, -⟩ := parseRowSegment_eq_ok_iff.mp hparse
    exact ⟨_, flags, next, payload, rest, segmentAt_iff.mpr ⟨hflags, hlen, rfl, hrest.symm⟩⟩
  · intro ⟨len, flags, next, payload, rest, hat⟩
    exact ⟨_, hat.readsBack.stable input rfl⟩
  · intro segment len flags next payload rest hparse hat
    have hread := hat.readsBack
    rw [hread.stable input rfl] at hparse
    rw [← Except.ok.inj hparse]
    exact hread

end Grammar

end OpenSqlAny.SegmentReading
