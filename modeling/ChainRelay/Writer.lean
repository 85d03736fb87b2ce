import ChainRelay.Channel
import ChainRelay.Chunk

/-!
Writing chunks to a channel. A chunk is opened in a reservation of its class, filled, linked to its
continuation and committed; its header is written at the end. An identifier is taken only once
there is room for the chunk.
-/

namespace ChainRelay

/-- Writes chunks for one shard. The identifiers and the tally are those shared under the given
numbers. -/
structure Writer where
  channel : Channel
  ids : Nat
  shard : UInt16
  tally : Nat
  deriving DecidableEq

/-- A chunk that is reserved and not visible yet. -/
structure OpenChunk where
  reservation : Reservation
  header : ChunkHeader
  capacity : Nat
  tally : Nat
  deriving DecidableEq

namespace OpenChunk

def id (c : OpenChunk) : ChunkId := c.header.id

def stored (c : OpenChunk) (data : Bytes) : Bytes := data.take c.capacity

def filled (c : OpenChunk) (data : Bytes) : OpenChunk :=
  { c with header := { c.header with effectiveLength := .ofNat (c.stored data).length } }

def linked (c : OpenChunk) (next : ChunkId) : OpenChunk :=
  { c with header := { c.header with next } }

@[simp] theorem id_filled (c : OpenChunk) (data : Bytes) : (c.filled data).id = c.id := rfl

@[simp] theorem id_linked (c : OpenChunk) (next : ChunkId) : (c.linked next).id = c.id := rfl

end OpenChunk

namespace Shared

def allocateId (s : Shared) (ids : Nat) (shard : UInt16) : ChunkId × Shared :=
  let (id, a) := (s.allocators.get ids).allocate shard
  (id, { s with allocators := s.allocators.set ids a })

def openChunk (w : Writer) (c : SizeClass) (s : Shared) :
    Except ReserveError OpenChunk × Shared :=
  match w.channel.reserve c.totalSize s with
  | (.error (.full requested available), s) =>
    (.error (.full requested available), s.count w.tally .chunksRefused)
  | (.error e, s) => (.error e, s)
  | (.ok reservation, s) =>
    let (id, s) := s.allocateId w.ids w.shard
    (.ok ⟨reservation, { code := c.code, id }, c.payloadCapacity, w.tally⟩, s)

def fillChunk (c : OpenChunk) (data : Bytes) (s : Shared) : Shared :=
  c.reservation.write chunkHeaderSize (c.stored data) s

/-- Writes the header and makes the chunk visible. -/
def commitChunk (c : OpenChunk) (s : Shared) : Shared :=
  (c.reservation.commit (c.reservation.write 0 c.header.encode s)).count c.tally .chunksCommitted

def discardChunk (c : OpenChunk) (s : Shared) : Shared :=
  (c.reservation.discard s).count c.tally .chunksDiscarded

/-- A chunk that is given up is not counted as discarded. -/
def abandonChunk (c : OpenChunk) (s : Shared) : Shared := c.reservation.abandon s

end Shared
end ChainRelay
