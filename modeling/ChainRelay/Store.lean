import ChainRelay.Channel
import ChainRelay.Chunk
import ChainRelay.Settings.Basic
import ChainRelay.Task

/-!
The consumer's store of received chunks. It holds a bounded number of them and gives up the ones
that arrived first; a chain is taken out only when all of it is there.
-/

namespace ChainRelay

structure StoredChunk where
  id : ChunkId
  next : ChunkId
  data : Bytes
  deriving DecidableEq

inductive ChainError where
  | missing (id : ChunkId)
  | shardMismatch (shard : UInt16) (next : ChunkId)
  | tooLong (limit : Nat)
  deriving DecidableEq

def ChainError.message : ChainError → String
  | missing id => s!"chunk {id.hex} is missing (dropped, evicted, or not yet received)"
  | shardMismatch shard next =>
    s!"chunk {next.hex} linked from shard {shard} belongs to another shard"
  | tooLong limit => s!"chain exceeds {limit} chunks"

/-- What is held, and three counts of what is not. The counts are unbounded: kept in 64 bits, they
would differ only after `2 ^ 64` records. -/
structure Store where
  maxPending : Nat
  /-- The chunks that are held, each under its own identifier. -/
  chunks : List StoredChunk := []
  /-- Identifiers in the order of arrival, also of chunks that were taken out since. -/
  arrivals : List ChunkId := []
  evicted : Nat := 0
  rejected : Nat := 0
  duplicates : Nat := 0

structure Reassembled where
  bytes : Bytes := []
  chunks : Nat := 0
  deriving DecidableEq

namespace Store

/-- A store holds at least one chunk. -/
def ofMaxPending (n : Nat) : Store := { maxPending := max n 1 }

def size (s : Store) : Nat := s.chunks.length

def find? (s : Store) (id : ChunkId) : Option StoredChunk := s.chunks.find? (·.id = id)

def contains (s : Store) (id : ChunkId) : Bool := (s.find? id).isSome

/-- Takes out a chunk. Its arrival stays on record. -/
def erase (s : Store) (id : ChunkId) : Store := { s with chunks := s.chunks.filter (·.id ≠ id) }

/-- Makes way for a chunk with an identifier that is held already. -/
def dropDuplicate (s : Store) (id : ChunkId) : Store × List Event :=
  if s.contains id then
    ({ s.erase id with
        arrivals := s.arrivals.filter (· ≠ id)
        duplicates := s.duplicates + 1 },
      [.chunkReplaced id])
  else (s, [])

/-- Gives up chunks in the order of the arrivals on record, until there is room for one more. -/
def makeRoom (maxPending : Nat) : List ChunkId → Store → Store × List Event
  | [], s => ({ s with arrivals := [] }, [])
  | id :: rest, s =>
    if s.size < maxPending then ({ s with arrivals := id :: rest }, [])
    else if s.contains id then
      let (s, events) := makeRoom maxPending rest { s.erase id with evicted := s.evicted + 1 }
      (s, .chunkEvicted id :: events)
    else makeRoom maxPending rest s

/-- Forgets the arrivals of chunks that are not held any more. -/
def compact (s : Store) : Store := { s with arrivals := s.arrivals.filter s.contains }

inductive IngestError where
  | decode (cause : DecodeError)
  | overflow
  deriving DecidableEq

structure Ingest where
  result : Except IngestError ChunkId
  store : Store
  events : List Event := []

def insert (s : Store) (c : StoredChunk) : Ingest :=
  let (s, replaced) := s.dropDuplicate c.id
  let (s, gone) := makeRoom s.maxPending s.arrivals s
  let s := { s with chunks := c :: s.chunks, arrivals := s.arrivals ++ [c.id] }
  let events := replaced ++ gone
  if sizeLimit ≤ s.maxPending * 2 then ⟨.error .overflow, s, events⟩
  else if s.maxPending * 2 < s.arrivals.length then ⟨.ok c.id, s.compact, events⟩
  else ⟨.ok c.id, s, events⟩

def ingest (s : Store) (record : Bytes) : Ingest :=
  match decodeChunk record with
  | .error e => ⟨.error (.decode e), s, []⟩
  | .ok view => s.insert ⟨view.header.id, view.header.next, view.data⟩

inductive Taken where
  | nothing
  | stored
  | rejected
  deriving DecidableEq

/-- Takes the record at the front of a channel, if there is one. The record's space is released only
after it was ingested. -/
def takeOne (s : Store) (c : Channel) (shared : Shared) :
    Except Overflow Taken × Store × Shared :=
  match shared.withRegion c.region c.band.front with
  | (.error e, shared) => (.error e, s, shared)
  | (.ok none, shared) => (.ok .nothing, s, shared)
  | (.ok (some front), shared) =>
    let ingest := s.ingest front.data
    let shared := ingest.events.foldl Shared.report shared
    let release (shared : Shared) := shared.onRegion c.region (Ring.setConsumed · front.next)
    match ingest.result with
    | .ok _ => (.ok .stored, ingest.store, release shared)
    | .error (.decode e) =>
      (.ok .rejected, { ingest.store with rejected := s.rejected + 1 },
        release (shared.report (.chunkCorrupt e)))
    | .error .overflow => (.error .overflow, ingest.store, shared)

/-- Takes up to `fuel` records and counts the chunks that were kept. -/
def takeMany (c : Channel) : (fuel : Nat) → Store → Shared → Except Overflow Nat × Store × Shared
  | 0, s, shared => (.ok 0, s, shared)
  | fuel + 1, s, shared =>
    match s.takeOne c shared with
    | (.error e, s, shared) => (.error e, s, shared)
    | (.ok .nothing, s, shared) => (.ok 0, s, shared)
    | (.ok taken, s, shared) =>
      match takeMany c fuel s shared with
      | (.error e, s, shared) => (.error e, s, shared)
      | (.ok n, s, shared) => (.ok (if taken = .stored then n + 1 else n), s, shared)

/-- Takes every record that is ready. Each takes at least one of the bytes in use. -/
def drain (s : Store) (c : Channel) (shared : Shared) : Except Overflow Nat × Store × Shared :=
  takeMany c (c.used shared) s shared

/-- Follows the links from `cursor` over at most `more` chunks, in the shard of the chain's head. -/
def walk (s : Store) (shard : UInt16) (limit : Nat) :
    (more : Nat) → (cursor : ChunkId) → Except ChainError (List StoredChunk)
  | more, cursor =>
    if cursor.isNone then .ok []
    else match more with
      | 0 => .error (.tooLong limit)
      | more + 1 =>
        if cursor.shard ≠ shard then .error (.shardMismatch shard cursor)
        else match s.find? cursor with
          | none => .error (.missing cursor)
          | some c =>
            match s.walk shard limit more c.next with
            | .error e => .error e
            | .ok rest => .ok (c :: rest)

/-- Takes a chain out of the store. No head means no bytes. -/
def reassemble (s : Store) (head : ChunkId) (maxChunks : Nat) :
    Except ChainError Reassembled × Store :=
  let limit := max 1 (min maxChunks maxChunksLimit)
  match s.walk head.shard limit limit head with
  | .error e => (.error e, s)
  | .ok chain =>
    (.ok ⟨chain.flatMap (·.data), chain.length⟩, chain.foldl (fun s c => s.erase c.id) s)

inductive Resolved where
  | inline (bytes : Bytes)
  | chain (bytes : Bytes) (truncated : Bool)
  | unavailable
  | broken (cause : ChainError)
  deriving DecidableEq

def Resolved.bytes? : Resolved → Option Bytes
  | inline bytes | chain bytes _ => some bytes
  | _ => none

def resolveChain (s : Store) (head : ChunkId) (truncated : Bool) (maxChunks : Nat) :
    Resolved × Store :=
  if head.isNone then (.unavailable, s)
  else match s.reassemble head maxChunks with
    | (.ok r, s) => (.chain r.bytes truncated, s)
    | (.error e, s) => (.broken e, s)

def resolveField (s : Store) (f : Field) (maxChunks : Nat) : Resolved × Store :=
  match f with
  | .inline text => (.inline text.bytes, s)
  | .overflow head _ truncated => s.resolveChain head truncated maxChunks
  | .unavailable => (.unavailable, s)

def resolveBlock (s : Store) (b : BlockRef) (maxChunks : Nat) : Resolved × Store :=
  s.resolveChain b.head (b.status = .truncated) maxChunks

structure ResolvedTask where
  filename : Resolved
  interpreter : Resolved
  arguments : Resolved
  environment : Resolved
  deriving DecidableEq

def resolveTask (s : Store) (t : Task) (maxChunks : Nat) : ResolvedTask × Store :=
  let (filename, s) := s.resolveField t.filename maxChunks
  let (interpreter, s) := s.resolveField t.interpreter maxChunks
  let (arguments, s) := s.resolveBlock t.arguments maxChunks
  let (environment, s) := s.resolveBlock t.environment maxChunks
  (⟨filename, interpreter, arguments, environment⟩, s)

end Store
end ChainRelay
