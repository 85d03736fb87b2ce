import ChainRelay.Proofs.Memory.Slices
import ChainRelay.Signal

/-!
A record that was encoded is the record that is decoded (`decodeSignal_encode`): every part is found
at its offset.
-/

namespace ChainRelay

open Bytes

namespace Field

/-- A chain has a head. -/
def WellFormed : Field → Prop
  | overflow head .. => head ≠ .none
  | inline _ | unavailable => True

instance : DecidablePred WellFormed
  | overflow head .. => inferInstanceAs (Decidable (head ≠ .none))
  | inline _ | unavailable => isTrue trivial

namespace Wire

theorem decodeAt_skip {pre : Bytes} {offset : Nat} (bs : Bytes) (h : pre.length ≤ offset) :
    decodeAt (pre ++ bs) offset = decodeAt bs (offset - pre.length) := by
  have hsub (n : Nat) : offset + n - pre.length = offset - pre.length + n := by omega
  unfold decodeAt
  rw [uint8At_skip _ h, uint8At_skip _ (Nat.le_add_right_of_le h),
    uint16At_skip _ (Nat.le_add_right_of_le h), uint32At_skip _ (Nat.le_add_right_of_le h),
    slice_skip _ _ (Nat.le_add_right_of_le h), hsub, hsub, hsub, hsub]

theorem decodeAt_here (w : Wire) (bs : Bytes) :
    decodeAt (w.encode ++ bs) 0 = { w with data := fit inlineCapacity w.data } := by
  obtain ⟨tag, truncated, inlineLength, reserved, data⟩ := w
  have hdata : slice (fit inlineCapacity data ++ bs) 0 inlineCapacity = fit inlineCapacity data :=
    slice_here _ (length_fit _ _)
  simp only [encode, decodeAt, List.cons_append, List.append_assoc, Wire.mk.injEq]
  refine ⟨rfl, rfl, ?_, ?_, ?_⟩
  · exact uint16At_here _ _
  · have hlen : (ofUInt16 inlineLength).length ≤ 2 := by simp
    exact (uint32At_skip _ hlen).trans (by simpa using uint32At_here _ _)
  · rw [Nat.zero_add, slice_cons, slice_cons, slice_skip _ _ (by simp), slice_skip _ _ (by simp)]
    simpa using hdata

end Wire

theorem fit_words (x y : UInt64) :
    fit inlineCapacity (ofUInt64 x ++ ofUInt64 y) = ofUInt64 x ++ (ofUInt64 y ++ zeros 112) := by
  rw [fit, List.take_of_length_le (by simp [inlineCapacity]), List.append_assoc]
  simp [inlineCapacity]

theorem ofWire?_toWire {f : Field} (h : f.WellFormed) :
    ofWire? { f.toWire with data := fit inlineCapacity f.toWire.data } = .ok f := by
  cases f with
  | unavailable => rfl
  | inline s =>
    have hfits : s.bytes.length < inlineCapacity := s.fits
    have hlen : (UInt16.ofNat s.bytes.length).toNat = s.bytes.length := by
      rw [UInt16.toNat_ofNat']
      apply Nat.mod_eq_of_lt
      simp only [inlineCapacity] at hfits
      omega
    have htake : s.bytes.take inlineCapacity = s.bytes :=
      List.take_of_length_le (Nat.le_of_lt hfits)
    have hzero : uint8At (fit inlineCapacity s.bytes) s.bytes.length = 0 := by
      rw [fit, htake, uint8At_skip _ (Nat.le_refl s.bytes.length)]
      simp only [uint8At, zeros, List.getD_eq_getElem?_getD, List.getElem?_replicate]
      split <;> rfl
    have hback : (fit inlineCapacity s.bytes).take s.bytes.length = s.bytes := by
      rw [fit, htake]
      exact List.take_left
    have hs : InlineString.ofBytes? s.bytes = some s := InlineString.ofBytes?_eq_some_iff.mpr rfl
    unfold toWire ofWire? InlineString.length
    dsimp only
    rw [if_neg (by decide), if_pos rfl, hlen, if_neg (Nat.not_le.mpr hfits), hzero,
      if_neg (fun he => he rfl), hback, hs]
  | overflow head len truncated =>
    have hlen : uint64At (ofUInt64 head.raw ++ (ofUInt64 len ++ zeros 112)) 8 = len := by
      rw [uint64At_skip _ (by simp)]
      simpa using uint64At_here _ _
    have hnone : ¬head.isNone = true := fun he => h ((ChunkId.isNone_iff _).mp he)
    have hmark : ((if truncated then 1 else 0 : UInt8) != 0) = truncated := by
      cases truncated <;> rfl
    unfold toWire ofWire?
    dsimp only
    rw [if_neg (by decide), if_neg (by decide), if_pos rfl, fit_words, hlen, uint64At_here,
      if_neg hnone, hmark]

/-- A chain without a head is refused. -/
theorem ofWire?_toWire_of_not {f : Field} (h : ¬f.WellFormed) :
    ofWire? { f.toWire with data := fit inlineCapacity f.toWire.data } =
      .error (.fieldTag overflowTag) := by
  cases f with
  | unavailable | inline => exact absurd trivial h
  | overflow head len truncated =>
    obtain rfl : head = .none := Decidable.not_not.mp h
    unfold toWire ofWire?
    dsimp only
    rw [if_neg (by decide), if_neg (by decide), if_pos rfl, fit_words, uint64At_here]
    exact if_pos rfl

theorem decodeAt_skip {pre : Bytes} {offset : Nat} (bs : Bytes) (h : pre.length ≤ offset) :
    decodeAt (pre ++ bs) offset = decodeAt bs (offset - pre.length) := by
  rw [decodeAt, Wire.decodeAt_skip _ h, decodeAt]

theorem decodeAt_here {f : Field} (h : f.WellFormed) (bs : Bytes) :
    decodeAt (f.encode ++ bs) 0 = .ok f := by
  rw [decodeAt, encode, Wire.decodeAt_here, ofWire?_toWire h]

theorem decodeAt_here_of_not {f : Field} (h : ¬f.WellFormed) (bs : Bytes) :
    decodeAt (f.encode ++ bs) 0 = .error (.fieldTag overflowTag) := by
  rw [decodeAt, encode, Wire.decodeAt_here, ofWire?_toWire_of_not h]

end Field

namespace Task

structure WellFormed (t : Task) : Prop where
  filename : t.filename.WellFormed
  interpreter : t.interpreter.WellFormed

instance (t : Task) : Decidable t.WellFormed :=
  decidable_of_iff (t.filename.WellFormed ∧ t.interpreter.WellFormed)
    ⟨fun h => ⟨h.1, h.2⟩, fun h => ⟨h.filename, h.interpreter⟩⟩

theorem decodeStatus_code (s : CopyStatus) : decodeStatus s.code = .ok s := by
  simp [decodeStatus]

/-- What follows a body is not looked at. -/
theorem decode_encode {t : Task} (h : t.WellFormed) (bs : Bytes) :
    decode (t.encode ++ bs) = .ok t := by
  have hfilename := Field.decodeAt_here h.filename
  have hinterpreter := Field.decodeAt_here h.interpreter
  unfold decode encode encodeIdentities
  simp (disch := simp [Field.wireSize]) [uint8At_skip, uint8At_here, uint8At_cons, uint32At_skip,
    uint32At_here, uint64At_skip, uint64At_here, uint64At_cons, Field.decodeAt_skip, hfilename,
    hinterpreter, decodeStatus_code, Field.wireSize]
  rfl

/-- A body with a chain that has no head is refused, whatever else it holds. -/
theorem decode_encode_of_not {t : Task} (h : ¬t.WellFormed) (bs : Bytes) :
    decode (t.encode ++ bs) = .error (.fieldTag Field.overflowTag) := by
  unfold decode encode encodeIdentities
  by_cases hfilename : t.filename.WellFormed
  · have hinterpreter : ¬t.interpreter.WellFormed := fun hi => h ⟨hfilename, hi⟩
    simp (disch := simp [Field.wireSize]) [Field.decodeAt_skip, Field.decodeAt_here hfilename,
      Field.decodeAt_here_of_not hinterpreter, Field.wireSize]
    rfl
  · simp (disch := simp [Field.wireSize]) [Field.decodeAt_skip,
      Field.decodeAt_here_of_not hfilename]
    rfl

end Task

theorem SignalHeader.decode_encode (h : SignalHeader) (bs : Bytes) :
    decode (h.encode ++ bs) = h := by
  unfold decode encode
  simp (disch := simp) [uint8At_here, uint8At_cons, uint16At_cons, uint16At_here, uint32At_cons,
    uint32At_skip, uint32At_here, uint64At_cons, uint64At_skip, uint64At_here]

def Signal.WellFormed : Signal → Prop
  | taskExec t => t.WellFormed
  | cgroupSnapshot _ => True

instance : DecidablePred Signal.WellFormed
  | .taskExec t => inferInstanceAs (Decidable t.WellFormed)
  | .cgroupSnapshot _ => isTrue trivial

theorem SignalKind.ofTag?_tag (k : SignalKind) : ofTag? k.tag = .ok k := by
  cases k <;> rfl

def SignalKind.decodeBody : SignalKind → Bytes → Except DecodeError Signal
  | taskExec, body => (Task.decode body).map .taskExec
  | cgroupSnapshot, body => .ok (.cgroupSnapshot (body.uint64At 0))

/-- With a usable header and enough bytes behind it, the body decides. -/
theorem decodeSignal_of_header {bs : Bytes} (kind : SignalKind)
    (hversion : (SignalHeader.decode bs).version = signalVersion)
    (htag : (SignalHeader.decode bs).tag = kind.tag)
    (hsize : signalHeaderSize + kind.bodySize ≤ bs.length) :
    decodeSignal bs = (kind.decodeBody (bs.drop signalHeaderSize)).map
      (DecodedSignal.mk (SignalHeader.decode bs)) := by
  have hshort : ¬bs.length < signalHeaderSize :=
    Nat.not_lt.mpr (Nat.le_trans (Nat.le_add_right _ _) hsize)
  have hkind : SignalKind.ofTag? (SignalHeader.decode bs).tag = .ok kind := by
    rw [htag, SignalKind.ofTag?_tag]
  unfold decodeSignal
  simp only [if_neg hshort, hversion, hkind, ne_eq, not_true_eq_false, if_false, bind, Except.bind,
    if_neg (Nat.not_lt.mpr hsize)]
  cases kind with
  | taskExec =>
    simp only [SignalKind.decodeBody]
    cases Task.decode (bs.drop signalHeaderSize) <;> rfl
  | cgroupSnapshot => rfl

/-- A record in front of anything is decoded as its body is. -/
theorem decodeSignal_encode_append (signal : Signal) (shard : UInt16) (timestamp : UInt64)
    (rest : Bytes) :
    decodeSignal (signal.encode shard timestamp ++ rest) =
      (signal.kind.decodeBody (signal.encodeBody ++ rest)).map
        (DecodedSignal.mk { tag := signal.kind.tag, shard, timestamp }) := by
  have hheader : SignalHeader.decode (signal.encode shard timestamp ++ rest) =
      { tag := signal.kind.tag, shard, timestamp } := by
    rw [Signal.encode, List.append_assoc, SignalHeader.decode_encode]
  have hbody : (signal.encode shard timestamp ++ rest).drop signalHeaderSize =
      signal.encodeBody ++ rest := by
    rw [Signal.encode, List.append_assoc]
    exact List.drop_left' (SignalHeader.length_encode _)
  have hsize : signalHeaderSize + signal.kind.bodySize ≤
      (signal.encode shard timestamp ++ rest).length := by
    rw [List.length_append, Signal.length_encode]
    exact Nat.le_add_right _ _
  rw [decodeSignal_of_header signal.kind (by rw [hheader]; rfl) (by rw [hheader]) hsize,
    hheader, hbody]

theorem Signal.decodeBody_encodeBody {signal : Signal} (h : signal.WellFormed) (rest : Bytes) :
    signal.kind.decodeBody (signal.encodeBody ++ rest) = .ok signal := by
  cases signal with
  | taskExec t =>
    simp only [kind, encodeBody, SignalKind.decodeBody, Task.decode_encode (t := t) h, Except.map]
  | cgroupSnapshot id => simp only [kind, encodeBody, SignalKind.decodeBody, uint64At_here]

theorem Signal.decodeBody_encodeBody_of_not {signal : Signal} (h : ¬signal.WellFormed)
    (rest : Bytes) :
    signal.kind.decodeBody (signal.encodeBody ++ rest) = .error (.fieldTag Field.overflowTag) := by
  cases signal with
  | taskExec t =>
    simp only [kind, encodeBody, SignalKind.decodeBody, Task.decode_encode_of_not (t := t) h,
      Except.map]
  | cgroupSnapshot id => exact absurd trivial h

theorem decodeSignal_encode {signal : Signal} (h : signal.WellFormed) (shard : UInt16)
    (timestamp : UInt64) :
    decodeSignal (signal.encode shard timestamp) =
      .ok ⟨{ tag := signal.kind.tag, shard, timestamp }, signal⟩ := by
  have happend := decodeSignal_encode_append signal shard timestamp []
  rwa [Signal.decodeBody_encodeBody h, List.append_nil] at happend

end ChainRelay
