import ChainRelay.Ring.Layout

/-!
The producer's side of a ring. A reservation takes the next bytes of the band and hides them, and
all that follow, until it is finalized: committed or discarded. Records do not wrap; what is left at
the end of the band is filled up by a record that the consumer skips.
-/

namespace ChainRelay

inductive ReserveError where
  /-- There is not enough room now. -/
  | full (requested available : Nat)
  /-- There can never be enough room, or nothing was asked for. -/
  | invalidSize (size max : Nat)
  /-- A cursor or the room would leave its range. -/
  | overflow
  deriving DecidableEq

def ReserveError.message : ReserveError → String
  | full requested available => s!"channel full: requested {requested} bytes, {available} free"
  | invalidSize size max => s!"invalid reservation size {size} (max {max})"
  | overflow => "cursor out of range"

namespace Ring

/-- Reserved space: where its record starts in the band, and its payload bytes. -/
structure Slot where
  record : Nat
  len : Nat
  deriving DecidableEq

/-- Where a record goes: after `padding` bytes at `start`. -/
structure Placement where
  start : Nat
  padding : Nat
  deriving DecidableEq

namespace Band

def recordOf (b : Band) (p : Placement) : Nat := (p.start + p.padding) % b.capacity

/-- The place for the next record, which would begin at the end of the band or before it. -/
def placement (b : Band) (produced size : Nat) : Placement :=
  let start := produced % b.capacity
  ⟨start, if b.capacity < start + span size then b.capacity - start else 0⟩

/-- The place for a record of `size` bytes, if it fits between the cursors. Padding has a header of
its own. -/
def place (b : Band) (size : Nat) (m : Memory) : Except ReserveError Placement :=
  match b.maxRecordLength with
  | .error _ => .error .overflow
  | .ok max =>
    if size = 0 ∨ max < size then .error (.invalidSize size max)
    else
      let p := b.placement (produced m) size
      if b.capacity < b.used m + p.padding + span size then
        match b.free m with
        | .error _ => .error .overflow
        | .ok available => .error (.full size available)
      else if 0 < p.padding ∧ p.padding < recordHeaderSize then .error .overflow
      else .ok p

/-- Writes the words of a record that is being made and of the padding before it. -/
def stamp (b : Band) (p : Placement) (size : Nat) (m : Memory) : Memory :=
  let m :=
    if p.padding = 0 then m
    else b.setRecordWord m p.start (p.padding - recordHeaderSize + discardMark)
  b.setRecordWord m (b.recordOf p) (size + busyMark)

/-- Takes `size` bytes; the answer is immediate also when the channel is full. -/
def reserve (b : Band) (size : Nat) (m : Memory) : Except ReserveError Slot × Memory :=
  match b.place size m with
  | .error e => (.error e, m)
  | .ok p =>
    let stop := produced m + (p.padding + span size)
    let m := b.stamp p size m
    if sizeLimit ≤ stop then (.error .overflow, m)
    else (.ok ⟨b.recordOf p, size⟩, setProduced m stop)

def payloadStart (b : Band) (s : Slot) : Nat := b.offset + s.record + recordHeaderSize

/-- What of `bytes` fits into a slot from position `pos` on. -/
def cut (s : Slot) (pos : Nat) (bytes : Bytes) : Bytes := bytes.take (s.len - pos)

def write (b : Band) (s : Slot) (pos : Nat) (bytes : Bytes) (m : Memory) : Memory :=
  m.store (b.payloadStart s + pos) (cut s pos bytes)

def finalWord (s : Slot) (discard : Bool) : Nat := if discard then s.len + discardMark else s.len

/-- The first step of finalizing: the record is done. -/
def publish (b : Band) (s : Slot) (discard : Bool) (m : Memory) : Memory :=
  b.setRecordWord m s.record (finalWord s discard)

end Band

/-- The second step of finalizing: the signal word moves on. -/
def announce (m : Memory) : Memory := setSignal m (signal m + 1)

namespace Band

def finalize (b : Band) (s : Slot) (discard : Bool) (m : Memory) : Memory :=
  let m := b.publish s discard m
  if notifies m then announce m else m

def commit (b : Band) (s : Slot) (m : Memory) : Memory := b.finalize s false m

def discard (b : Band) (s : Slot) (m : Memory) : Memory := b.finalize s true m

end Band
end Ring
end ChainRelay
