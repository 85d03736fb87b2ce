import ChainRelay.Capture

/-!
A relay joins what every probe needs: the chunk channel and the record channel, the identifiers, the
limits of a copy and the tally.
-/

namespace ChainRelay

structure Relay where
  chunks : Channel
  records : Channel
  ids : Nat
  settings : CopySettings
  tally : Nat

namespace Relay

def invocation (r : Relay) (shard : UInt16) : Invocation :=
  ⟨⟨r.chunks, r.ids, shard, r.tally⟩, r.records, r.settings⟩

def chunkPlan (c : ChannelSettings) : ChannelPlan := ⟨c.chunkCapacity, c.chunkChannelName, c.notify⟩

def recordPlan (c : ChannelSettings) : ChannelPlan :=
  ⟨c.recordCapacity, c.recordChannelName, c.notify⟩

/-- Builds both channels, the chunk channel first. The identifiers and the tally are those shared
under the given numbers. -/
def start (settings : Settings) (ids tally : Nat) (s : Shared) :
    Except SetupError Relay × Shared :=
  match settings.validate with
  | .error cause => (.error (.settings cause), s)
  | .ok () =>
    match s.buildChannel (chunkPlan settings.channels) with
    | (.error e, s) => (.error e, s)
    | (.ok chunks, s) =>
      match s.buildChannel (recordPlan settings.channels) with
      | (.error e, s) => (.error e, s)
      | (.ok records, s) =>
        (.ok ⟨chunks, records, ids, settings.copy, tally⟩,
          s.report (.relayReady chunks.band.capacity records.band.capacity
            settings.copy.maxChunks))

end Relay
end ChainRelay
