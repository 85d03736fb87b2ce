import ChainRelay.Proofs.Channel.Traffic
import ChainRelay.Proofs.Chunk.Codec
import ChainRelay.Writer

/-!
Chunks that are being written. A draft holds what was asked of a chunk since it was opened; what is
read of the record it becomes depends on the draft alone (`Draft.Laid.decode`). Every class can be
opened, but of an unusable class no record is accepted.
-/

namespace ChainRelay

open Bytes

namespace SizeClass

/-- The payload of a chunk can be counted in sixteen bits. -/
theorem payloadCapacity_lt (c : SizeClass) : c.payloadCapacity < 65536 := by
  cases c with
  | small | medium | large => decide
  | custom payload =>
    have hlt := payload.toNat_lt
    simp only [payloadCapacity, totalSize]
    omega

/-- A class that is not usable is a custom one, and its code is refused. -/
theorem ofCode?_code_of_not {c : SizeClass} (h : c.isValid = false) :
    ofCode? c.code c.totalSize = .error (.length c.payloadCapacity maxChunkPayload) := by
  cases c with
  | small | medium | large => cases h
  | custom payload =>
    have hbad : (custom payload).payloadCapacity = 0 ∨
        maxChunkPayload < (custom payload).payloadCapacity := by
      simp only [isValid, Bool.and_eq_false_iff, decide_eq_false_iff_not] at h
      omega
    have hnamed : named? 0xFF (custom payload).totalSize =
        .error (.length (custom payload).payloadCapacity maxChunkPayload) := if_pos hbad
    rw [ofCode?, code, hnamed]
    rfl

end SizeClass

/-- The record that committing a chunk makes visible. -/
def OpenChunk.sealed (c : OpenChunk) (s : Shared) : Bytes :=
  c.reservation.bytes (c.reservation.write 0 c.header.encode s)

theorem OpenChunk.sealed_eq (c : OpenChunk) (s : Shared) :
    c.sealed s = (c.reservation.bytes s).overlay 0 c.header.encode :=
  c.reservation.bytes_write 0 _ s

/-- A chunk in the hands of its writer: what it was opened for, and what it was last filled with and
linked to. -/
structure Draft where
  reservation : Reservation
  sizeClass : SizeClass
  id : ChunkId
  tally : Nat
  next : ChunkId
  data : Bytes
  fits : data.length ≤ sizeClass.payloadCapacity

namespace Draft

def opened (reservation : Reservation) (sizeClass : SizeClass) (id : ChunkId) (tally : Nat) :
    Draft :=
  ⟨reservation, sizeClass, id, tally, .none, [], Nat.zero_le _⟩

def chunk (d : Draft) : OpenChunk where
  reservation := d.reservation
  header :=
    { code := d.sizeClass.code
      effectiveLength := .ofNat d.data.length
      id := d.id
      next := d.next }
  capacity := d.sizeClass.payloadCapacity
  tally := d.tally

def filled (d : Draft) (data : Bytes) : Draft :=
  { d with
    data := data.take d.sizeClass.payloadCapacity
    fits := List.length_take_le _ _ }

def linked (d : Draft) (next : ChunkId) : Draft := { d with next }

theorem chunk_filled (d : Draft) (data : Bytes) : d.chunk.filled data = (d.filled data).chunk := by
  simp only [OpenChunk.filled, OpenChunk.stored, chunk, filled]

theorem chunk_linked (d : Draft) (next : ChunkId) : d.chunk.linked next = (d.linked next).chunk :=
  rfl

def view (d : Draft) : ChunkView := ⟨d.chunk.header, d.sizeClass, d.data⟩

/-- What is made of the record of a draft. -/
def verdict (d : Draft) : Except DecodeError ChunkView :=
  if d.sizeClass.isValid then .ok d.view
  else .error (.length d.sizeClass.payloadCapacity maxChunkPayload)

theorem effectiveLength_eq (d : Draft) : d.chunk.header.effectiveLength.toNat = d.data.length := by
  have hlt := d.sizeClass.payloadCapacity_lt
  have hfits := d.fits
  show (UInt16.ofNat d.data.length).toNat = d.data.length
  rw [UInt16.toNat_ofNat']
  exact Nat.mod_eq_of_lt (by omega)

/-- The bytes of a reservation in which the draft stands, before there is a header. -/
structure Laid (d : Draft) (held : Bytes) : Prop where
  length_eq : held.length = d.sizeClass.totalSize
  payload_eq : held.slice chunkHeaderSize d.data.length = d.data

variable {d : Draft} {held : Bytes}

theorem Laid.filled (h : d.Laid held) (data : Bytes) :
    (d.filled data).Laid (held.overlay chunkHeaderSize (d.chunk.stored data)) := by
  have hroom : chunkHeaderSize + (d.chunk.stored data).length ≤ held.length := by
    rw [h.length_eq, ← d.sizeClass.headerSize_add_payloadCapacity]
    exact Nat.add_le_add_left (List.length_take_le _ _) _
  constructor
  case length_eq => rw [length_overlay, h.length_eq, Draft.filled]
  case payload_eq => exact slice_overlay hroom

theorem Laid.linked (h : d.Laid held) (next : ChunkId) : (d.linked next).Laid held :=
  ⟨h.length_eq, h.payload_eq⟩

/-- With its header on top, a draft is a record that is accepted for what it is, or refused for its
class. -/
theorem Laid.decode (h : d.Laid held) :
    decodeChunk (held.overlay 0 d.chunk.header.encode) = d.verdict := by
  unfold verdict
  split
  case isTrue hvalid =>
    exact decodeChunk_overlay rfl rfl hvalid d.effectiveLength_eq h.length_eq h.payload_eq
  case isFalse hvalid =>
    have hle : d.chunk.header.encode.length ≤ held.length := by
      rw [ChunkHeader.length_encode, h.length_eq]
      exact d.sizeClass.headerSize_le_totalSize
    have hlen : (held.overlay 0 d.chunk.header.encode).length = d.sizeClass.totalSize := by
      rw [length_overlay, h.length_eq]
    have hheader : ChunkHeader.decode (held.overlay 0 d.chunk.header.encode) = d.chunk.header := by
      rw [overlay_zero hle, ChunkHeader.decode_encode]
    have hclass := SizeClass.ofCode?_code_of_not (Bool.eq_false_iff.mpr hvalid)
    have hcode : d.chunk.header.code = d.sizeClass.code := rfl
    have hshort : ¬d.sizeClass.totalSize < chunkHeaderSize :=
      Nat.not_lt.mpr d.sizeClass.headerSize_le_totalSize
    rw [decodeChunk, hlen, if_neg hshort, hheader]
    dsimp only
    rw [if_neg (fun hv => hv rfl), hcode, hclass]
    rfl

end Draft
end ChainRelay
