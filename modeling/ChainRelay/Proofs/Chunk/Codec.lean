import ChainRelay.Chunk
import ChainRelay.Proofs.Memory.Slices

/-!
A chunk that was written is the chunk that is read: its header, its class and its payload come back
out of the record, whatever the rest of the payload area held.
-/

namespace ChainRelay

open Bytes

/-- Reading a header back, in front of anything. -/
theorem ChunkHeader.decode_encode (h : ChunkHeader) (rest : Bytes) :
    ChunkHeader.decode (h.encode ++ rest) = h := by
  obtain ⟨version, code, effectiveLength, reserved, id, next⟩ := h
  simp only [encode, decode, List.cons_append, List.append_assoc, ChunkHeader.mk.injEq]
  refine ⟨rfl, rfl, ?_, ?_, congrArg ChunkId.mk ?_, congrArg ChunkId.mk ?_⟩
  · simp [uint16At, slice_cons, slice_here]
  · simp [uint32At, slice_cons, slice_skip, slice_here]
  · simp [uint64At, slice_cons, slice_skip, slice_here]
  · simp [uint64At, slice_cons, slice_skip, slice_here]

/-- Nothing behind a header has a part in reading it. -/
theorem ChunkHeader.decode_take (bs : Bytes) : decode (bs.take chunkHeaderSize) = decode bs := by
  have hbyte {k : Nat} (hk : k < chunkHeaderSize) :
      uint8At (bs.take chunkHeaderSize) k = uint8At bs k := by
    simp only [uint8At, List.getD_eq_getElem?_getD, List.getElem?_take_of_lt hk]
  have hslice {offset len : Nat} (h : offset + len ≤ chunkHeaderSize) :
      slice (bs.take chunkHeaderSize) offset len = slice bs offset len := slice_take bs h
  unfold decode uint16At uint32At uint64At
  rw [hbyte (by decide), hbyte (by decide), hslice (by decide), hslice (by decide),
    hslice (by decide), hslice (by decide)]

namespace SizeClass

theorem payload_pos {c : SizeClass} (h : c.isValid = true) : 0 < c.payloadCapacity := by
  simp only [isValid, Bool.and_eq_true, decide_eq_true_eq] at h
  exact h.1

theorem payload_le {c : SizeClass} (h : c.isValid = true) :
    c.payloadCapacity ≤ maxChunkPayload := by
  simp only [isValid, Bool.and_eq_true, decide_eq_true_eq] at h
  exact h.2

/-- The class of a usable chunk is known from its code and its size. -/
theorem ofCode?_code {c : SizeClass} (h : c.isValid = true) :
    ofCode? c.code c.totalSize = .ok c := by
  cases c with
  | small | medium | large => rfl
  | custom payload =>
    have hpos := payload_pos h
    have hle := payload_le h
    have hcap : (custom payload).payloadCapacity = payload.toNat := by
      simp [payloadCapacity, totalSize]
    rw [hcap] at hpos hle
    have hn : ¬(payload.toNat = 0 ∨ maxChunkPayload < payload.toNat) := by omega
    have hnamed : named? 0xFF (custom payload).totalSize = .ok (custom payload) := by
      simp only [named?, totalSize, Nat.add_sub_cancel_left, if_neg hn, UInt16.ofNat_toNat]
      rfl
    simp only [ofCode?, code, hnamed]
    exact if_pos rfl

end SizeClass

theorem decodeChunk_encode {h : ChunkHeader} {c : SizeClass} {data rest : Bytes}
    (hversion : h.version = chunkVersion) (hcode : h.code = c.code) (hvalid : c.isValid = true)
    (hlen : h.effectiveLength.toNat = data.length)
    (hsize : data.length + rest.length = c.payloadCapacity) :
    decodeChunk (h.encode ++ (data ++ rest)) = .ok ⟨h, c, data⟩ := by
  have htotal : (h.encode ++ (data ++ rest)).length = c.totalSize := by
    rw [List.length_append, List.length_append, ChunkHeader.length_encode, hsize,
      SizeClass.headerSize_add_payloadCapacity]
  have hshort : ¬(h.encode ++ (data ++ rest)).length < chunkHeaderSize := by
    rw [htotal]
    exact Nat.not_lt.mpr c.headerSize_le_totalSize
  have hslice : slice (h.encode ++ (data ++ rest)) chunkHeaderSize data.length = data := by
    rw [slice_skip _ _ (by simp), ChunkHeader.length_encode, Nat.sub_self, slice_here _ rfl]
  simp only [decodeChunk, ChunkHeader.decode_encode, htotal, hcode, SizeClass.ofCode?_code hvalid,
    hlen, hversion, ne_eq, not_true_eq_false, if_false, hslice]
  rw [htotal] at hshort
  rw [if_neg hshort]
  exact if_neg (by omega)

/-- A record whose payload area begins with `data` and whose header was written over its
beginning. -/
theorem decodeChunk_overlay {held data : Bytes} {h : ChunkHeader} {c : SizeClass}
    (hversion : h.version = chunkVersion) (hcode : h.code = c.code) (hvalid : c.isValid = true)
    (hlen : h.effectiveLength.toNat = data.length) (hsize : held.length = c.totalSize)
    (hdata : held.slice chunkHeaderSize data.length = data) :
    decodeChunk (held.overlay 0 h.encode) = .ok ⟨h, c, data⟩ := by
  have hle : h.encode.length ≤ held.length := by
    rw [ChunkHeader.length_encode, hsize]
    exact c.headerSize_le_totalSize
  have hsplit : held.drop chunkHeaderSize =
      data ++ (held.drop chunkHeaderSize).drop data.length := by
    conv => lhs; rw [← List.take_append_drop data.length (held.drop chunkHeaderSize)]
    rw [slice] at hdata
    rw [hdata]
  have hroom : data.length ≤ (held.drop chunkHeaderSize).length := by
    rw [hsplit, List.length_append]
    exact Nat.le_add_right _ _
  rw [overlay_zero hle, ChunkHeader.length_encode, hsplit]
  apply decodeChunk_encode hversion hcode hvalid hlen
  rw [List.length_drop, Nat.add_sub_cancel' hroom, List.length_drop, hsize]
  rfl

/-- A record of the same size with the same header is a chunk of the same class, with as many
bytes. -/
theorem decodeChunk_sameHead {bs bs' : Bytes} (hlen : bs'.length = bs.length)
    (hhead : bs'.take chunkHeaderSize = bs.take chunkHeaderSize) {v : ChunkView}
    (h : decodeChunk bs = .ok v) :
    ∃ data, decodeChunk bs' = .ok { v with data } ∧ data.length = v.data.length := by
  have hdecode : ChunkHeader.decode bs' = ChunkHeader.decode bs := by
    rw [← ChunkHeader.decode_take, hhead, ChunkHeader.decode_take]
  unfold decodeChunk at h ⊢
  rw [hlen, hdecode]
  split at h
  · cases h
  rename_i hlong
  dsimp only at h ⊢
  rw [if_neg hlong]
  split at h
  · cases h
  rename_i hversion
  rw [if_neg hversion]
  cases hclass : SizeClass.ofCode? (ChunkHeader.decode bs).code bs.length with
  | error e =>
    rw [hclass] at h
    cases h
  | ok size =>
    rw [hclass] at h
    simp only [bind, Except.bind] at h ⊢
    split at h
    · cases h
    rename_i hroom
    rw [if_neg hroom]
    obtain rfl := Except.ok.inj h
    exact ⟨_, rfl, by rw [length_slice, length_slice, hlen]⟩

end ChainRelay
