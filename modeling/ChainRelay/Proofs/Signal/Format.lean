import ChainRelay.Proofs.Channel.Traffic
import ChainRelay.Proofs.Signal.Codec

/-!
What a record looks like, said about its bytes alone. Exactly the byte strings of this form are
decoded (`decodeSignal_accepts_its_format`). Everything the decoder does not look at is lost, so
that what was decoded and encoded again stays as it is from then on. A record is written over
whatever its buffer held (`written_record_comes_back`).
-/

namespace ChainRelay

open Bytes

/-- The 136 bytes from `pos` on stand for a string field: unavailable, an inline string with its
terminator, or a chain with a head. -/
def Field.Format (bs : Bytes) (pos : Nat) : Prop :=
  bs.uint8At pos = 0 ∨
    bs.uint8At pos = 1 ∧ (bs.uint16At (pos + 2)).toNat < 128 ∧
      bs.uint8At (pos + 8 + (bs.uint16At (pos + 2)).toNat) = 0 ∨
    bs.uint8At pos = 2 ∧ bs.uint64At (pos + 8) ≠ 0

structure Task.Format (body : Bytes) : Prop where
  filename : Field.Format body 64
  interpreter : Field.Format body 200
  argumentsStatus : body.uint8At 352 ≤ 2
  environmentStatus : body.uint8At 353 ≤ 2

/-- The bytes are those of a record, with or without more behind it. -/
def Signal.Format (bs : Bytes) : Prop :=
  16 ≤ bs.length ∧ bs.uint8At 0 = 1 ∧
    (bs.uint8At 1 = 2 ∧ 24 ≤ bs.length ∨
      bs.uint8At 1 = 1 ∧ 384 ≤ bs.length ∧ Task.Format (bs.drop 16))

instance (bs : Bytes) (pos : Nat) : Decidable (Field.Format bs pos) :=
  inferInstanceAs (Decidable (_ ∨ _))

instance (body : Bytes) : Decidable (Task.Format body) :=
  decidable_of_iff (Field.Format body 64 ∧ Field.Format body 200 ∧ body.uint8At 352 ≤ 2 ∧
      body.uint8At 353 ≤ 2)
    ⟨fun ⟨hf, hi, ha, he⟩ => ⟨hf, hi, ha, he⟩, fun h =>
      ⟨h.filename, h.interpreter, h.argumentsStatus, h.environmentStatus⟩⟩

instance (bs : Bytes) : Decidable (Signal.Format bs) := inferInstanceAs (Decidable (_ ∧ _))

namespace Field

/-- What an inline string needs. -/
theorem ofWire?_inline {w : Wire} (htag : w.tag = inlineTag) :
    (∃ f, ofWire? w = .ok f) ↔
      w.inlineLength.toNat < 128 ∧ w.data.uint8At w.inlineLength.toNat = 0 := by
  unfold ofWire?
  rw [if_neg (by rw [htag]; decide), if_pos htag]
  dsimp only
  constructor
  · rintro ⟨f, h⟩
    split at h
    · cases h
    rename_i hfits
    split at h
    · cases h
    rename_i hzero
    exact ⟨Nat.not_le.mp hfits, Decidable.not_not.mp hzero⟩
  · rintro ⟨hfits, hzero⟩
    have htake : (w.data.take w.inlineLength.toNat).length < inlineCapacity :=
      Nat.lt_of_le_of_lt (List.length_take_le _ _) hfits
    have hroom : ¬inlineCapacity ≤ w.inlineLength.toNat := Nat.not_le.mpr hfits
    rw [if_neg hroom, if_neg (fun hne => hne hzero), InlineString.ofBytes?,
      dif_pos htake]
    exact ⟨_, rfl⟩

/-- What a chain needs. -/
theorem ofWire?_overflow {w : Wire} (htag : w.tag = overflowTag) :
    (∃ f, ofWire? w = .ok f) ↔ w.data.uint64At 0 ≠ 0 := by
  have hnone : (ChunkId.mk (w.data.uint64At 0)).isNone = true ↔ w.data.uint64At 0 = 0 := by
    simp [ChunkId.isNone]
  unfold ofWire?
  rw [if_neg (by rw [htag]; decide), if_neg (by rw [htag]; decide), if_pos htag]
  dsimp only
  by_cases h : w.data.uint64At 0 = 0
  · rw [if_pos (hnone.mpr h)]
    simp [h]
  · rw [if_neg (fun hn => h (hnone.mp hn))]
    simp [h]

theorem decodeAt_ok_iff (bs : Bytes) (pos : Nat) :
    (∃ f, decodeAt bs pos = .ok f) ↔ Format bs pos := by
  have htag : (Wire.decodeAt bs pos).tag = bs.uint8At pos := rfl
  unfold decodeAt Format
  by_cases h0 : bs.uint8At pos = 0
  · have hok : ofWire? (Wire.decodeAt bs pos) = .ok unavailable := if_pos h0
    simp [h0, hok]
  by_cases h1 : bs.uint8At pos = 1
  · rw [ofWire?_inline (htag.trans h1)]
    have hdata {len : Nat} (h : len < 128) :
        (Wire.decodeAt bs pos).data.uint8At len = bs.uint8At (pos + 8 + len) := uint8At_slice bs h
    have hlen : (Wire.decodeAt bs pos).inlineLength = bs.uint16At (pos + 2) := rfl
    simp only [h1, hlen, show ¬(1 : UInt8) = 0 by decide, show ¬(1 : UInt8) = 2 by decide,
      false_and, true_and, false_or, or_false]
    exact and_congr_right fun h => by rw [hdata h]
  by_cases h2 : bs.uint8At pos = 2
  · rw [ofWire?_overflow (htag.trans h2)]
    have hhead : (Wire.decodeAt bs pos).data.uint64At 0 = bs.uint64At (pos + 8) :=
      uint64At_slice bs (by decide)
    simp [h2, hhead]
  · have hbad : ofWire? (Wire.decodeAt bs pos) = .error (.fieldTag (bs.uint8At pos)) := by
      exact (if_neg h0).trans ((if_neg h1).trans (if_neg h2))
    simp [h0, h1, h2, hbad]

/-- A chain that was read has a head. -/
theorem wellFormed_of_ofWire? {w : Wire} {f : Field} (h : ofWire? w = .ok f) : f.WellFormed := by
  unfold ofWire? at h
  split at h
  · cases h
    trivial
  split at h
  · dsimp only at h
    split at h
    · cases h
    split at h
    · cases h
    split at h
    · cases h
      trivial
    · cases h
  split at h
  · dsimp only at h
    split at h
    · cases h
    rename_i hsome
    cases h
    exact fun hnone => hsome ((ChunkId.isNone_iff _).mpr hnone)
  · cases h

end Field

namespace Task

theorem decodeStatus_ok_iff (code : UInt8) : (∃ s, decodeStatus code = .ok s) ↔ code ≤ 2 := by
  have hle : code ≤ 2 ↔ code = 0 ∨ code = 1 ∨ code = 2 := by
    simp only [UInt8.le_iff_toNat_le, ← UInt8.toNat_inj, UInt8.reduceToNat]
    omega
  rw [hle]
  unfold decodeStatus CopyStatus.ofCode?
  by_cases h0 : code = 0
  · simp [h0]
  by_cases h1 : code = 1
  · simp [h1]
  by_cases h2 : code = 2
  · simp [h2]
  · simp [h0, h1, h2]

/-- What was read of a body that was accepted. -/
theorem decode_ok {body : Bytes} {t : Task} (h : decode body = .ok t) :
    Field.decodeAt body 64 = .ok t.filename ∧ Field.decodeAt body 200 = .ok t.interpreter ∧
      decodeStatus (body.uint8At 352) = .ok t.arguments.status ∧
      decodeStatus (body.uint8At 353) = .ok t.environment.status := by
  obtain ⟨filename, hf, h⟩ := bind_eq_ok_iff.mp h
  obtain ⟨interpreter, hi, h⟩ := bind_eq_ok_iff.mp h
  obtain ⟨arguments, ha, h⟩ := bind_eq_ok_iff.mp h
  obtain ⟨environment, he, h⟩ := bind_eq_ok_iff.mp h
  cases h
  exact ⟨hf, hi, ha, he⟩

theorem decode_ok_iff (body : Bytes) : (∃ t, decode body = .ok t) ↔ Format body := by
  constructor
  · rintro ⟨t, h⟩
    obtain ⟨hf, hi, ha, he⟩ := decode_ok h
    exact ⟨(Field.decodeAt_ok_iff _ _).mp ⟨_, hf⟩, (Field.decodeAt_ok_iff _ _).mp ⟨_, hi⟩,
      (decodeStatus_ok_iff _).mp ⟨_, ha⟩, (decodeStatus_ok_iff _).mp ⟨_, he⟩⟩
  · intro h
    obtain ⟨filename, hf⟩ := (Field.decodeAt_ok_iff _ _).mpr h.filename
    obtain ⟨interpreter, hi⟩ := (Field.decodeAt_ok_iff _ _).mpr h.interpreter
    obtain ⟨arguments, ha⟩ := (decodeStatus_ok_iff _).mpr h.argumentsStatus
    obtain ⟨environment, he⟩ := (decodeStatus_ok_iff _).mpr h.environmentStatus
    unfold decode
    rw [hf, hi, ha, he]
    exact ⟨_, rfl⟩

theorem wellFormed_of_decode {body : Bytes} {t : Task} (h : decode body = .ok t) :
    t.WellFormed := by
  obtain ⟨hf, hi, -⟩ := decode_ok h
  exact ⟨Field.wellFormed_of_ofWire? hf, Field.wellFormed_of_ofWire? hi⟩

end Task

namespace SignalKind

theorem ofTag?_ok_iff {tag : UInt8} {kind : SignalKind} :
    ofTag? tag = .ok kind ↔ tag = kind.tag := by
  constructor
  · intro h
    unfold ofTag? at h
    split at h
    · cases h
      assumption
    split at h
    · cases h
      assumption
    · cases h
  · rintro rfl
    exact ofTag?_tag kind

/-- A body is read as a signal of its kind whose chains have heads. -/
theorem decodeBody_ok {kind : SignalKind} {body : Bytes} {signal : Signal}
    (h : kind.decodeBody body = .ok signal) : signal.kind = kind ∧ signal.WellFormed := by
  cases kind with
  | taskExec =>
    obtain ⟨t, ht, rfl⟩ := map_eq_ok_iff.mp h
    exact ⟨rfl, Task.wellFormed_of_decode ht⟩
  | cgroupSnapshot =>
    cases h
    exact ⟨rfl, trivial⟩

end SignalKind

/-- What was read of a record that was accepted. -/
theorem decodeSignal_ok {bs : Bytes} {d : DecodedSignal} (h : decodeSignal bs = .ok d) :
    d.header = SignalHeader.decode bs ∧ d.header.version = signalVersion ∧
      d.header.tag = d.signal.kind.tag ∧ signalHeaderSize + d.signal.kind.bodySize ≤ bs.length ∧
      d.signal.kind.decodeBody (bs.drop signalHeaderSize) = .ok d.signal := by
  have horiginal := h
  unfold decodeSignal at h
  split at h
  · cases h
  dsimp only at h
  split at h
  · cases h
  rename_i hversion
  have hversion := Decidable.not_not.mp hversion
  obtain ⟨kind, hkind, h⟩ := bind_eq_ok_iff.mp h
  have htag := SignalKind.ofTag?_ok_iff.mp hkind
  split at h
  · cases h
  rename_i hsize
  have hsize := Nat.not_lt.mp hsize
  rw [decodeSignal_of_header kind hversion htag hsize] at horiginal
  obtain ⟨signal, hbody, rfl⟩ := map_eq_ok_iff.mp horiginal
  obtain ⟨rfl, -⟩ := SignalKind.decodeBody_ok hbody
  exact ⟨rfl, hversion, htag, hsize, hbody⟩

theorem decodeSignal_ok_iff (bs : Bytes) : (∃ d, decodeSignal bs = .ok d) ↔ Signal.Format bs := by
  constructor
  · rintro ⟨⟨header, signal⟩, h⟩
    obtain ⟨rfl, hversion, htag, hsize, hbody⟩ := decodeSignal_ok h
    refine ⟨Nat.le_trans (Nat.le_add_right _ _) hsize, hversion, ?_⟩
    cases signal with
    | taskExec t =>
      right
      obtain ⟨t', ht, -⟩ := map_eq_ok_iff.mp hbody
      exact ⟨htag, hsize, (Task.decode_ok_iff _).mp ⟨t', ht⟩⟩
    | cgroupSnapshot id => exact .inl ⟨htag, hsize⟩
  · rintro ⟨-, hversion, ⟨htag, hsize⟩ | ⟨htag, hsize, hbody⟩⟩
    · rw [decodeSignal_of_header .cgroupSnapshot hversion htag hsize]
      exact ⟨_, rfl⟩
    · obtain ⟨t, ht⟩ := (Task.decode_ok_iff _).mpr hbody
      have hdecode : SignalKind.taskExec.decodeBody (bs.drop signalHeaderSize) =
          .ok (.taskExec t) := map_eq_ok_iff.mpr ⟨t, ht, rfl⟩
      rw [decodeSignal_of_header .taskExec hversion htag hsize, hdecode]
      exact ⟨_, rfl⟩

namespace DecodedSignal

def encode (d : DecodedSignal) : Bytes := d.signal.encode d.header.shard d.header.timestamp

/-- What is left of a record when it is encoded again. -/
def normal (d : DecodedSignal) : DecodedSignal :=
  { d with header := { d.header with reserved := 0 } }

end DecodedSignal

/-- Exactly the records of the format are accepted, whatever else they hold. What was accepted is
encoded to a record that is decoded to the same again, but for the reserved word of the header,
and encoding that changes nothing more. -/
theorem decodeSignal_accepts_its_format (bs : Bytes) :
    ((∃ d, decodeSignal bs = .ok d) ↔ Signal.Format bs) ∧
      ∀ d, decodeSignal bs = .ok d →
        decodeSignal d.encode = .ok d.normal ∧ d.normal.encode = d.encode := by
  refine ⟨decodeSignal_ok_iff bs, fun d h => ⟨?_, rfl⟩⟩
  obtain ⟨-, hversion, htag, -, hbody⟩ := decodeSignal_ok h
  have hwell := (SignalKind.decodeBody_ok hbody).2
  have hheader : d.normal.header =
      { tag := d.signal.kind.tag, shard := d.header.shard, timestamp := d.header.timestamp } := by
    obtain ⟨⟨version, tag, shard, reserved, timestamp⟩, signal⟩ := d
    obtain rfl : version = signalVersion := hversion
    obtain rfl : tag = signal.kind.tag := htag
    rfl
  rw [DecodedSignal.encode, decodeSignal_encode hwell, ← hheader]
  rfl

/-- Bytes that no encoder makes: the reserved word, the unused bytes of the fields and what stands
behind the terminator are not zero, the truncation mark is 7, and there is more behind the body. -/
def Signal.strayBytes : Bytes :=
  [1, 1, 3, 0, 9, 9, 9, 9] ++ (List.replicate 72 5 ++ ([1, 8, 1, 0, 6, 6, 6, 6, 97, 0] ++
    (List.replicate 126 4 ++ ([2, 7] ++ (List.replicate 150 1 ++ ([2, 1] ++
      List.replicate 20 3))))))

/-- The stray bytes are a record, which is not what its own encoding is decoded to. -/
theorem decodeSignal_accepts_its_format_of_stray :
    ∃ d, decodeSignal Signal.strayBytes = .ok d ∧ d.header.reserved = 0x09090909 ∧
      decodeSignal d.encode = .ok d.normal ∧ decodeSignal d.encode ≠ .ok d := by
  obtain ⟨hiff, hnormal⟩ := decodeSignal_accepts_its_format Signal.strayBytes
  obtain ⟨d, hd⟩ := hiff.mpr (by decide +kernel)
  have hreserved : d.header.reserved = 0x09090909 := by
    rw [(decodeSignal_ok hd).1]
    rfl
  refine ⟨d, hd, hreserved, (hnormal d hd).1, fun hsame => ?_⟩
  rw [(hnormal d hd).1] at hsame
  have hzero : d.header.reserved = 0 :=
    (congrArg (fun d => d.header.reserved) (Except.ok.inj hsame)).symm
  rw [hreserved] at hzero
  exact absurd hzero (by decide)

/-- A record that is written to a reservation of its size fills it, whatever the reservation held.
Whatever stands behind it, it is decoded to the same signal under the header it was given, or
refused where a chain has no head. -/
theorem written_record_comes_back (signal : Signal) (shard : UInt16) (timestamp : UInt64)
    {r : Reservation} (hsize : r.slot.len = signal.encodedSize) (s : Shared) (rest : Bytes) :
    let record := r.bytes (r.write 0 (signal.encode shard timestamp) s)
    record = signal.encode shard timestamp ∧
      decodeSignal (record ++ rest) =
        if signal.WellFormed then
          .ok ⟨{ version := 1, tag := signal.kind.tag, shard, reserved := 0, timestamp }, signal⟩
        else .error (.fieldTag Field.overflowTag) := by
  have hlen : (signal.encode shard timestamp).length = (r.bytes s).length := by
    rw [Signal.length_encode, Reservation.bytes, Memory.length_load, hsize]
  have hrecord : r.bytes (r.write 0 (signal.encode shard timestamp) s) =
      signal.encode shard timestamp := by
    rw [Reservation.bytes_write, overlay_zero (Nat.le_of_eq hlen), hlen, List.drop_length,
      List.append_nil]
  refine ⟨hrecord, ?_⟩
  rw [hrecord, decodeSignal_encode_append]
  split
  case isTrue h => rw [Signal.decodeBody_encodeBody h, Except.map]
  case isFalse h => rw [Signal.decodeBody_encodeBody_of_not h, Except.map]

def Signal.interpreted (head : ChunkId) : Signal := .taskExec
  { filename := .inline ⟨[47, 0, 115, 0], by decide⟩
    interpreter := .overflow head 300 true
    arguments := ⟨⟨7⟩, .truncated⟩
    environment := ⟨.none, .failed⟩ }

theorem written_record_comes_back_of_interpreted :
    ∃ r : Reservation, (∀ head, r.slot.len = (Signal.interpreted head).encodedSize) ∧
      decodeSignal (r.bytes (r.write 0 ((Signal.interpreted ⟨5⟩).encode 3 9) {}) ++ [1, 2]) =
        .ok ⟨{ tag := 1, shard := 3, timestamp := 9 }, .interpreted ⟨5⟩⟩ ∧
      decodeSignal (r.bytes (r.write 0 ((Signal.interpreted .none).encode 3 9) {}) ++ [1, 2]) =
        .error (.fieldTag 2) :=
  ⟨⟨⟨0, ⟨384, 8192⟩, none⟩, ⟨0, 384⟩⟩, fun _ => rfl,
    (written_record_comes_back (.interpreted ⟨5⟩) 3 9 rfl {} [1, 2]).2.trans (if_pos (by decide)),
    (written_record_comes_back (.interpreted .none) 3 9 rfl {} [1, 2]).2.trans
      (if_neg (by decide))⟩

end ChainRelay
