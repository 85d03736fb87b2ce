import ChainRelay.Ring.Reserve
import ChainRelay.Signal
import ChainRelay.Text.Quoted

/-!
What the library reports while it runs.
-/

namespace ChainRelay

inductive Event where
  | channelBuilt (capacity : Nat) (name : Option String)
  | reservationDropped (len : Nat)
  | copyRejected (shard : UInt16)
  | copyFailed (shard : UInt16) (failure : CopyFailure) (chunks : Nat)
  | copyTruncated (shard : UInt16) (copied chunks : Nat)
  | fieldUnreadable (shard : UInt16) (fault : SourceFault)
  | recordDropped (shard : UInt16) (kind : SignalKind) (cause : ReserveError)
  | chunkReplaced (id : ChunkId)
  | chunkEvicted (id : ChunkId)
  | chunkCorrupt (cause : DecodeError)
  | relayReady (chunkCapacity recordCapacity maxChunks : Nat)
  deriving DecidableEq

namespace Event

inductive Level where
  | debug
  | info
  | warn
  deriving DecidableEq

def level : Event → Level
  | reservationDropped _ | chunkReplaced _ | chunkCorrupt _ => .warn
  | relayReady .. => .info
  | _ => .debug

def Level.name : Level → String
  | debug => "DEBUG"
  | info => "INFO"
  | warn => "WARN"

def message : Event → String
  | channelBuilt capacity name =>
    s!"channel built: capacity={capacity} shared={Text.optional Text.quote name}"
  | reservationDropped len => s!"reservation of {len} bytes dropped without finalize; discarding"
  | copyRejected shard => s!"shard {shard}: copy rejected: invalid request"
  | copyFailed shard failure chunks =>
    s!"shard {shard}: copy failed ({failure.describe}) after {chunks} chunks"
  | copyTruncated shard copied chunks =>
    s!"shard {shard}: copy truncated at {copied} bytes in {chunks} chunks"
  | fieldUnreadable shard fault => s!"shard {shard}: field unreadable: {fault.message}"
  | recordDropped shard kind cause =>
    s!"shard {shard}: {kind.describe} record dropped: {cause.message}"
  | chunkReplaced id => s!"duplicate chunk {id.describe} replaced"
  | chunkEvicted id => s!"evicted unreferenced chunk {id.describe}"
  | chunkCorrupt cause => s!"corrupt chunk on channel: {cause.message}"
  | relayReady chunkCapacity recordCapacity maxChunks =>
    s!"probe runtime ready: chunk channel {chunkCapacity} bytes, record channel " ++
      s!"{recordCapacity} bytes, max_chunks {maxChunks}"

def line (e : Event) : String := s!"{e.level.name} {e.message}"

end Event
end ChainRelay
