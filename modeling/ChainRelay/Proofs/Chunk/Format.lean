import ChainRelay.Proofs.Chunk.Draft

/-!
What a chunk looks like, said about its bytes alone. Exactly the byte strings of this form are
decoded, nothing of the header is lost, and what a writer lays out for a usable class is one of them
(`decodeChunk_accepts_its_format`).
-/

namespace ChainRelay

open Bytes

/-- The bytes are those of a chunk: the class byte and the length agree, and no more payload counts
than there is room for. -/
structure ChunkFormat (bs : Bytes) : Prop where
  header : 24 ≤ bs.length
  version : bs.uint8At 0 = 1
  sizeClass : bs.uint8At 1 = 0 ∧ bs.length = 256 ∨ bs.uint8At 1 = 1 ∧ bs.length = 512 ∨
    bs.uint8At 1 = 2 ∧ bs.length = 1024 ∨ bs.uint8At 1 = 0xFF ∧ 25 ≤ bs.length ∧ bs.length ≤ 4096
  effectiveLength : (bs.uint16At 2).toNat ≤ bs.length - 24

namespace SizeClass

/-- The class of a record is the usable one that has its code and its size. -/
theorem ofCode?_ok_iff {code : UInt8} {size : Nat} {c : SizeClass} :
    ofCode? code size = .ok c ↔ c.isValid = true ∧ c.code = code ∧ c.totalSize = size := by
  constructor
  · intro h
    obtain ⟨c', hnamed, h⟩ := bind_eq_ok_iff.mp h
    split at h
    case isFalse => cases h
    case isTrue hsize =>
      cases h
      unfold named? at hnamed
      split at hnamed
      case isTrue hcode =>
        cases hnamed
        exact ⟨rfl, hcode.symm, hsize⟩
      split at hnamed
      case isTrue hcode =>
        cases hnamed
        exact ⟨rfl, hcode.symm, hsize⟩
      split at hnamed
      case isTrue hcode =>
        cases hnamed
        exact ⟨rfl, hcode.symm, hsize⟩
      split at hnamed
      case isFalse => cases hnamed
      case isTrue hcode =>
        dsimp only at hnamed
        split at hnamed
        case isTrue => cases hnamed
        case isFalse hpayload =>
          cases hnamed
          refine ⟨?_, hcode.symm, hsize⟩
          rw [isValid, payloadCapacity, hsize, Bool.and_eq_true, decide_eq_true_iff,
            decide_eq_true_iff]
          omega
  · rintro ⟨hvalid, rfl, rfl⟩
    exact ofCode?_code hvalid

/-- Such a class there is where code and size agree. -/
theorem exists_valid_iff {code : UInt8} {size : Nat} :
    (∃ c : SizeClass, c.isValid = true ∧ c.code = code ∧ c.totalSize = size) ↔
      code = 0 ∧ size = 256 ∨ code = 1 ∧ size = 512 ∨ code = 2 ∧ size = 1024 ∨
        code = 0xFF ∧ 25 ≤ size ∧ size ≤ 4096 := by
  constructor
  · rintro ⟨c, hvalid, rfl, rfl⟩
    cases c with
    | small => exact .inl ⟨rfl, rfl⟩
    | medium => exact .inr (.inl ⟨rfl, rfl⟩)
    | large => exact .inr (.inr (.inl ⟨rfl, rfl⟩))
    | custom payload =>
      have hpos := payload_pos hvalid
      have hle := payload_le hvalid
      simp only [payloadCapacity, totalSize, chunkHeaderSize, maxChunkPayload] at hpos hle
      refine .inr (.inr (.inr ⟨rfl, ?_⟩))
      simp only [totalSize, chunkHeaderSize]
      omega
  · rintro (⟨rfl, rfl⟩ | ⟨rfl, rfl⟩ | ⟨rfl, rfl⟩ | ⟨rfl, hmin, hmax⟩)
    · exact ⟨small, rfl, rfl, rfl⟩
    · exact ⟨medium, rfl, rfl, rfl⟩
    · exact ⟨large, rfl, rfl, rfl⟩
    · have hpayload : (UInt16.ofNat (size - 24)).toNat = size - 24 := by
        rw [UInt16.toNat_ofNat']
        exact Nat.mod_eq_of_lt (by omega)
      refine ⟨custom (.ofNat (size - 24)), ?_, rfl, ?_⟩
      · simp only [isValid, payloadCapacity, totalSize, hpayload, chunkHeaderSize, maxChunkPayload,
          Bool.and_eq_true, decide_eq_true_iff]
        omega
      · simp only [totalSize, hpayload, chunkHeaderSize]
        omega

end SizeClass

/-- A header that was read is written as it was, the reserved word included. -/
theorem ChunkHeader.encode_decode {bs : Bytes} (h : chunkHeaderSize ≤ bs.length) :
    (ChunkHeader.decode bs).encode = bs.take chunkHeaderSize := by
  unfold chunkHeaderSize at h
  have hwords : ofUInt16 (bs.uint16At 2) ++ (ofUInt32 (bs.uint32At 4) ++
      (ofUInt64 (bs.uint64At 8) ++ ofUInt64 (bs.uint64At 16))) = bs.slice 2 22 := by
    rw [ofUInt16_uint16At (by omega), ofUInt32_uint32At (by omega), ofUInt64_uint64At (by omega),
      ofUInt64_uint64At (by omega), slice_append_slice bs 8 8 8, slice_append_slice bs 4 4 16,
      slice_append_slice bs 2 2 20]
  have hfirst : bs.uint8At 0 :: bs.uint8At 1 :: bs.slice 2 22 = bs.slice 0 24 := by
    rw [uint8At_cons_slice 22 (by omega), uint8At_cons_slice 23 (by omega)]
  rw [encode, decode]
  dsimp only
  rw [hwords, hfirst]
  rfl

/-- What was read of a chunk that was accepted. -/
theorem decodeChunk_ok_iff {bs : Bytes} {header : ChunkHeader} {sizeClass : SizeClass}
    {data : Bytes} :
    decodeChunk bs = .ok ⟨header, sizeClass, data⟩ ↔ chunkHeaderSize ≤ bs.length ∧
      header = ChunkHeader.decode bs ∧ header.version = chunkVersion ∧
      sizeClass.isValid = true ∧ sizeClass.code = header.code ∧ sizeClass.totalSize = bs.length ∧
      header.effectiveLength.toNat ≤ sizeClass.payloadCapacity ∧
      data = bs.slice chunkHeaderSize header.effectiveLength.toNat := by
  unfold decodeChunk
  constructor
  · intro h
    split at h
    case isTrue => cases h
    case isFalse hlong =>
      dsimp only at h
      split at h
      case isTrue => cases h
      case isFalse hversion =>
        obtain ⟨c, hclass, h⟩ := bind_eq_ok_iff.mp h
        split at h
        case isTrue => cases h
        case isFalse hroom =>
          cases h
          obtain ⟨hvalid, hcode, hsize⟩ := SizeClass.ofCode?_ok_iff.mp hclass
          exact ⟨Nat.not_lt.mp hlong, rfl, Decidable.not_not.mp hversion, hvalid, hcode, hsize,
            Nat.not_lt.mp hroom, rfl⟩
  · rintro ⟨hlong, rfl, hversion, hvalid, hcode, hsize, hroom, rfl⟩
    rw [if_neg (Nat.not_lt.mpr hlong)]
    dsimp only
    rw [if_neg (fun hne => hne hversion)]
    apply bind_eq_ok_iff.mpr
    refine ⟨sizeClass, SizeClass.ofCode?_ok_iff.mpr ⟨hvalid, hcode, hsize⟩, ?_⟩
    exact if_neg (Nat.not_lt.mpr hroom)

theorem exists_decodeChunk_iff (bs : Bytes) : (∃ v, decodeChunk bs = .ok v) ↔ ChunkFormat bs := by
  constructor
  · rintro ⟨⟨header, sizeClass, data⟩, h⟩
    obtain ⟨hlong, rfl, hversion, hvalid, hcode, hsize, hroom, -⟩ := decodeChunk_ok_iff.mp h
    constructor
    case header => exact hlong
    case version => exact hversion
    case sizeClass => exact SizeClass.exists_valid_iff.mp ⟨sizeClass, hvalid, hcode, hsize⟩
    case effectiveLength =>
      rw [← hsize]
      exact hroom
  · intro h
    obtain ⟨c, hvalid, hcode, hsize⟩ := SizeClass.exists_valid_iff.mpr h.sizeClass
    have hroom : (bs.uint16At 2).toNat ≤ c.payloadCapacity := by
      rw [SizeClass.payloadCapacity, hsize]
      exact h.effectiveLength
    exact ⟨⟨ChunkHeader.decode bs, c, bs.slice chunkHeaderSize (bs.uint16At 2).toNat⟩,
      decodeChunk_ok_iff.mpr ⟨h.header, rfl, h.version, hvalid, hcode, hsize, hroom, rfl⟩⟩

/-- Exactly the chunks of the format are accepted. A chunk that was accepted has a usable class,
which is that of its code and of its length, the payload that its header counts, and a header that
is written as it was read. What a writer lays out for a usable class, in a reservation that may hold
anything, is accepted for what it was filled with and linked to. -/
theorem decodeChunk_accepts_its_format :
    (∀ bs, (∃ v, decodeChunk bs = .ok v) ↔ ChunkFormat bs) ∧
    (∀ bs v, decodeChunk bs = .ok v → v.sizeClass.isValid = true ∧
      v.sizeClass.code = bs.uint8At 1 ∧ v.sizeClass.totalSize = bs.length ∧
      v.data = bs.slice 24 (bs.uint16At 2).toNat ∧ v.header.encode = bs.take 24) ∧
    ∀ (c : SizeClass) (id next : ChunkId) (data : Bytes) (r : Reservation) (tally : Nat)
      (s : Shared), c.isValid = true → data.length ≤ c.payloadCapacity →
      r.slot.len = c.totalSize →
      let chunk : OpenChunk := ⟨r, { code := c.code, id }, c.payloadCapacity, tally⟩
      decodeChunk (((chunk.filled data).linked next).sealed (s.fillChunk chunk data)) =
        .ok ⟨{ code := c.code, effectiveLength := .ofNat data.length, id, next }, c, data⟩ := by
  refine ⟨exists_decodeChunk_iff, ?_, ?_⟩
  · rintro bs ⟨header, sizeClass, data⟩ h
    obtain ⟨hlong, rfl, -, hvalid, hcode, hsize, -, rfl⟩ := decodeChunk_ok_iff.mp h
    exact ⟨hvalid, hcode, hsize, rfl, ChunkHeader.encode_decode hlong⟩
  · intro c id next data r tally s hvalid hfits hsize chunk
    have hopened : chunk = (Draft.opened r c id tally).chunk := rfl
    have hheld : (r.bytes s).length = c.totalSize := by
      rw [Reservation.bytes, Memory.length_load, hsize]
    have hlaid : (Draft.opened r c id tally).Laid (r.bytes s) := ⟨hheld, rfl⟩
    have htake : data.take c.payloadCapacity = data := List.take_of_length_le hfits
    have hdecode := ((hlaid.filled data).linked next).decode
    rw [OpenChunk.sealed_eq, hopened, Draft.chunk_filled, Draft.chunk_linked]
    show decodeChunk ((r.bytes (r.write chunkHeaderSize _ s)).overlay 0 _) = _
    rw [Reservation.bytes_write, hdecode, Draft.verdict]
    refine (if_pos hvalid).trans ?_
    simp only [Draft.view, Draft.chunk, Draft.linked, Draft.filled, Draft.opened, htake]

/-- Two bytes in a chunk for three. -/
theorem decodeChunk_accepts_its_format_of_three :
    (SizeClass.custom 3).isValid = true ∧ ∃ record : Bytes,
      decodeChunk record =
        .ok ⟨{ code := 0xFF, effectiveLength := 2, id := ⟨7⟩, next := ⟨8⟩ }, .custom 3, [1, 2]⟩ ∧
      ChunkFormat record ∧ record.length = 27 := by
  obtain ⟨hformat, haccepted, hlaid⟩ := decodeChunk_accepts_its_format
  have h := hlaid (.custom 3) ⟨7⟩ ⟨8⟩ [1, 2] ⟨⟨0, ⟨384, 8192⟩, none⟩, ⟨0, 27⟩⟩ 0 {} rfl (by decide)
    rfl
  exact ⟨rfl, _, h, (hformat _).mp ⟨_, h⟩, (haccepted _ _ h).2.2.1.symm⟩

end ChainRelay
