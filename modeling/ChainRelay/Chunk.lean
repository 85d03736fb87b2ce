import ChainRelay.Bytes
import ChainRelay.ChunkId
import ChainRelay.SizeClass

/-!
The wire form of a chunk: a header of 24 bytes, then the payload area of its class, of which the
header says how many bytes count.
-/

namespace ChainRelay

structure ChunkHeader where
  version : UInt8 := 1
  code : UInt8
  effectiveLength : UInt16 := 0
  reserved : UInt32 := 0
  id : ChunkId
  next : ChunkId := .none
  deriving DecidableEq

namespace ChunkHeader

def encode (h : ChunkHeader) : Bytes :=
  h.version :: h.code :: (Bytes.ofUInt16 h.effectiveLength ++ (Bytes.ofUInt32 h.reserved ++
    (Bytes.ofUInt64 h.id.raw ++ Bytes.ofUInt64 h.next.raw)))

def decode (bs : Bytes) : ChunkHeader where
  version := bs.uint8At 0
  code := bs.uint8At 1
  effectiveLength := bs.uint16At 2
  reserved := bs.uint32At 4
  id := ⟨bs.uint64At 8⟩
  next := ⟨bs.uint64At 16⟩

@[simp] theorem length_encode (h : ChunkHeader) : h.encode.length = chunkHeaderSize := by
  simp [encode, chunkHeaderSize]

end ChunkHeader

def chunkVersion : UInt8 := 1

/-- A received chunk: its header, its class and the payload bytes that count. -/
structure ChunkView where
  header : ChunkHeader
  sizeClass : SizeClass
  data : Bytes
  deriving DecidableEq

def decodeChunk (bs : Bytes) : Except DecodeError ChunkView :=
  if bs.length < chunkHeaderSize then .error (.short chunkHeaderSize bs.length)
  else
    let header := ChunkHeader.decode bs
    if header.version ≠ chunkVersion then .error (.version header.version)
    else do
      let sizeClass ← SizeClass.ofCode? header.code bs.length
      let len := header.effectiveLength.toNat
      if sizeClass.payloadCapacity < len then .error (.length len sizeClass.payloadCapacity)
      else .ok ⟨header, sizeClass, bs.slice chunkHeaderSize len⟩

end ChainRelay
