import ChainRelay.Activity
import ChainRelay.Settings.Basic
import ChainRelay.Source

/-!
Copying a part of the observed task into a chain of chunks. Every chunk but the last is full. The
next chunk is opened and filled before the current one, linked to it, becomes visible; a copy that
cannot go on ends its chain at the current chunk.
-/

namespace ChainRelay

namespace Copy

inductive Extent where
  | bytes (remaining : Nat)
  | untilTerminator
  deriving DecidableEq

/-- The content of one chunk, and what remains after it; nothing remains after the last. -/
structure Segment where
  data : Bytes
  rest : Extent
  last : Bool
  deriving DecidableEq

namespace Extent

/-- A full chunk with more to come shows that there are more bytes. Of a string it does not: its
terminator may be next. -/
def isExact : Extent → Bool
  | bytes _ => true
  | untilTerminator => false

/-- Reads the next segment of at most `room` bytes. -/
def read (e : Extent) (source : AddressSpace) (addr room : Nat) (domain : TrustDomain) :
    Except SourceFault Segment :=
  match e with
  | bytes remaining => do
    let len := min remaining room
    let data ← source.readBytes addr len domain
    return ⟨data, bytes (remaining - len), remaining - len == 0⟩
  | untilTerminator => do
    let read ← source.readString addr room domain
    return ⟨read.bytes, untilTerminator, read.terminated⟩

end Extent

/-- What stays the same during a copy. -/
structure Request where
  writer : Writer
  source : AddressSpace
  addr : Nat
  domain : TrustDomain
  sizeClass : SizeClass

namespace Request

def room (r : Request) : Nat := r.sizeClass.payloadCapacity

def readAfter (r : Request) (copied : Nat) (rest : Extent) : Except SourceFault Segment :=
  if addressLimit ≤ r.addr + copied then .error (.unmapped r.addr)
  else rest.read r.source (r.addr + copied) r.room r.domain

def reject (w : Writer) : Activity CopyOutcome := do
  .perform (.count w.tally .copiesFailed)
  .perform (.report (.copyRejected w.shard))
  return { status := .failed, failure := some .invalidRequest }

def fail (r : Request) (failure : CopyFailure) (copied chunks : Nat) : Activity CopyOutcome := do
  .perform (.count r.writer.tally .copiesFailed)
  .perform (.report (.copyFailed r.writer.shard failure chunks))
  return { copied, chunks, status := .failed, failure := some failure }

def truncate (r : Request) (head : ChunkId) (copied chunks : Nat) (failure : Option CopyFailure) :
    Activity CopyOutcome := do
  .perform (.count r.writer.tally .copiesTruncated)
  .perform (.report (.copyTruncated r.writer.shard copied chunks))
  return { head, copied, chunks, status := .truncated, failure }

/-- A chain in the making: its first chunk, what its chunks hold, and the chunk that is open. -/
structure Progress where
  head : ChunkId
  copied : Nat
  chunks : Nat
  current : OpenChunk
  rest : Extent
  last : Bool

def proceed (r : Request) : (more : Nat) → Progress → Activity CopyOutcome
  | more, p => do
    if p.last then
      .perform (.commitChunk p.current)
      return { head := p.head, copied := p.copied, chunks := p.chunks, status := .success }
    else if more = 0 ∧ p.rest.isExact then
      .perform (.commitChunk p.current)
      r.truncate p.head p.copied p.chunks none
    else match r.readAfter p.copied p.rest with
      | .error fault =>
        .perform (.commitChunk p.current)
        r.fail (.source fault) p.copied p.chunks
      | .ok segment =>
        if segment.data.isEmpty then
          .perform (.commitChunk p.current)
          return { head := p.head, copied := p.copied, chunks := p.chunks, status := .success }
        else match more with
          | 0 =>
            .perform (.commitChunk p.current)
            r.truncate p.head p.copied p.chunks none
          | more + 1 =>
            match ← .perform (.openChunk r.writer r.sizeClass) with
            | .error .overflow =>
              .perform (.abandonChunk p.current)
              .abort
            | .error _ =>
              .perform (.commitChunk p.current)
              r.truncate p.head p.copied p.chunks (some .capacity)
            | .ok next =>
              .perform (.fillChunk next segment.data)
              .perform (.commitChunk (p.current.linked next.id))
              r.proceed more {
                head := p.head
                copied := p.copied + segment.data.length
                chunks := p.chunks + 1
                current := next.filled segment.data
                rest := segment.rest
                last := segment.last }

/-- Copies an extent into a chain of at most `maxChunks` chunks. -/
def start (r : Request) (extent : Extent) (maxChunks : Nat) : Activity CopyOutcome :=
  if r.addr = 0 ∨ maxChunks = 0 ∨ r.sizeClass.isValid = false then reject r.writer
  else match extent.read r.source r.addr r.room r.domain with
    | .error fault => r.fail (.source fault) 0 0
    | .ok first =>
      if first.data.isEmpty then return { status := .success }
      else do
        match ← .perform (.openChunk r.writer r.sizeClass) with
        | .error .overflow => .abort
        | .error _ => r.fail .capacity 0 0
        | .ok chunk =>
          .perform (.fillChunk chunk first.data)
          r.proceed (min maxChunks maxChunksLimit - 1) {
            head := chunk.id
            copied := first.data.length
            chunks := 1
            current := chunk.filled first.data
            rest := first.rest
            last := first.last }

end Request
end Copy

namespace Writer

def copyBytes (w : Writer) (source : AddressSpace) (addr len : Nat) (domain : TrustDomain)
    (settings : CopySettings) : Activity CopyOutcome :=
  if len = 0 then Copy.Request.reject w
  else
    Copy.Request.start ⟨w, source, addr, domain, settings.classFor len⟩ (.bytes len)
      settings.maxChunks

/-- Copies a string without its terminator. An empty string needs no chunk. -/
def copyString (w : Writer) (source : AddressSpace) (addr : Nat) (domain : TrustDomain)
    (settings : CopySettings) : Activity CopyOutcome :=
  Copy.Request.start ⟨w, source, addr, domain, settings.stringClass⟩ .untilTerminator
    settings.maxChunks

end Writer
end ChainRelay
