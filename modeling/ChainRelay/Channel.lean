import ChainRelay.Region
import ChainRelay.Ring.Receive

/-!
Channels: a view of a ring in some region. A channel is built over a fresh region, or opened where
another party built it.
-/

namespace ChainRelay

structure Channel where
  region : Nat
  band : Ring.Band
  name : Option String := none
  deriving DecidableEq

structure ChannelPlan where
  /-- Bytes of the band, before rounding. -/
  capacity : Nat := 1048576
  name : Option String := none
  /-- Finalizing a record wakes a sleeping consumer. -/
  notify : Bool := true
  deriving DecidableEq

structure Reservation where
  channel : Channel
  slot : Ring.Slot
  deriving DecidableEq

namespace Shared

/-- A region of `size` bytes for a channel, private unless it has a name. -/
def createRegion (name : Option String) (size : Nat) (s : Shared) :
    Except SetupError Region × Shared :=
  match name with
  | some name => s.createFile name size
  | none => s.allocateRegion size

def buildChannel (plan : ChannelPlan) (s : Shared) : Except SetupError Channel × Shared :=
  match bandCapacity plan.capacity with
  | .error _ => (.error .overflow, s)
  | .ok capacity =>
    match s.createRegion plan.name (Ring.headerSpan + capacity) with
    | (.error e, s) => (.error e, s)
    | (.ok region, s) =>
      let s := s.report (.channelBuilt capacity plan.name)
      (.ok ⟨region.id, ⟨Ring.headerSpan, capacity⟩, plan.name⟩,
        s.onRegion region.id (Ring.writeHeader · capacity plan.notify))

/-- The band that the control block of a region of `size` bytes describes. -/
def openBand (size : Nat) (m : Memory) : Except SetupError Ring.Band :=
  let capacity := Ring.storedCapacity m
  let offset := Ring.storedOffset m
  let version := Ring.storedVersion m
  if Ring.storedMagic m ≠ Ring.magic then .error .notAChannel
  else if version ≠ Ring.version then .error (.unsupportedVersion version)
  else if isPower capacity then
    if sizeLimit ≤ offset + capacity then .error .overflow
    else if size < offset + capacity then .error .bandOutside
    else .ok ⟨offset, capacity⟩
  else .error .bandOutside

def attachChannel (name : String) (s : Shared) : Except SetupError Channel := do
  let region ← s.openFile name Ring.headerSpan
  let band ← openBand region.size (s.regions.get region.id)
  return ⟨region.id, band, some name⟩

end Shared

namespace Channel

def memory (c : Channel) (s : Shared) : Memory := s.regions.get c.region

def used (c : Channel) (s : Shared) : Nat := c.band.used (c.memory s)

def isBlocked (c : Channel) (s : Shared) : Bool := c.band.isBlocked (c.memory s)

def reserve (c : Channel) (size : Nat) (s : Shared) : Except ReserveError Reservation × Shared :=
  let (answer, s) := s.withRegion c.region (c.band.reserve size)
  (answer.map fun slot => ⟨c, slot⟩, s)

def receive (c : Channel) (s : Shared) : Except Overflow (Option Bytes) × Shared :=
  s.withRegion c.region c.band.receive

/-- Receives up to `fuel` records, as long as there are any. -/
def receiveMany (c : Channel) : (fuel : Nat) → Shared → Except Overflow (List Bytes) × Shared
  | 0, s => (.ok [], s)
  | fuel + 1, s =>
    match c.receive s with
    | (.error e, s) => (.error e, s)
    | (.ok none, s) => (.ok [], s)
    | (.ok (some data), s) =>
      match receiveMany c fuel s with
      | (.error e, s) => (.error e, s)
      | (.ok rest, s) => (.ok (data :: rest), s)

/-- Receives all that is ready. Every record takes at least one of the bytes in use. -/
def drain (c : Channel) (s : Shared) : Except Overflow (List Bytes) × Shared :=
  c.receiveMany (c.used s) s

def describe (c : Channel) (address : String) (s : Shared) : Except Overflow String := do
  let max ← c.band.maxRecordLength
  let name := Text.optional Text.quote c.name
  return s!"RingChannel \x7b region: {address}, capacity: {c.band.capacity}, used: {c.used s}, " ++
    s!"max_record_len: {max}, name: {name} \x7d"

end Channel

namespace Reservation

def write (r : Reservation) (pos : Nat) (bytes : Bytes) (s : Shared) : Shared :=
  s.onRegion r.channel.region (r.channel.band.write r.slot pos bytes)

def commit (r : Reservation) (s : Shared) : Shared :=
  s.onRegion r.channel.region (r.channel.band.commit r.slot)

def discard (r : Reservation) (s : Shared) : Shared :=
  s.onRegion r.channel.region (r.channel.band.discard r.slot)

/-- Giving up a reservation without finalizing it discards it, with a warning. -/
def abandon (r : Reservation) (s : Shared) : Shared :=
  (s.report (.reservationDropped r.slot.len)).onRegion r.channel.region
    (r.channel.band.discard r.slot)

def describe (r : Reservation) : String :=
  s!"Reservation \x7b offset: {r.slot.record}, len: {r.slot.len}, finalized: false \x7d"

end Reservation
end ChainRelay
