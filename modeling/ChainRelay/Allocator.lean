import ChainRelay.ChunkId
import ChainRelay.Sparse

/-!
The source of chunk identifiers: one free-running 64-bit counter per slot. Shards beyond the last
slot share one; their identifiers still differ by the shard they carry. Sequence zero is skipped.
-/

namespace ChainRelay

structure Allocator where
  slots : Nat := 1
  counters : Sparse UInt64 := .const 1
  slots_pos : 0 < slots := by omega

namespace Allocator

/-- Between one counter and as many as there are shards. -/
def ofShards (shards : Nat) : Allocator where
  slots := max 1 (min shards 65536)
  slots_pos := Nat.lt_of_lt_of_le Nat.zero_lt_one (Nat.le_max_left ..)

def slot (a : Allocator) (shard : UInt16) : Nat := shard.toNat % a.slots

def counter (a : Allocator) (shard : UInt16) : UInt64 := a.counters.get (a.slot shard)

def setCounter (a : Allocator) (shard : UInt16) (value : UInt64) : Allocator :=
  { a with counters := a.counters.set (a.slot shard) value }

/-- The counter itself, or the one after it where the sequence would be zero. -/
def usable (counter : UInt64) : UInt64 :=
  if counter.toNat % ChunkId.sequenceRange = 0 then counter + 1 else counter

def allocate (a : Allocator) (shard : UInt16) : ChunkId × Allocator :=
  let taken := usable (a.counter shard)
  (.compose shard taken, a.setCounter shard (taken + 1))

def nextSequence (a : Allocator) (shard : UInt16) : Nat :=
  (a.counter shard).toNat % ChunkId.sequenceRange

def seed (a : Allocator) (shard : UInt16) (value : UInt64) : Allocator := a.setCounter shard value

@[simp] theorem slots_setCounter (a : Allocator) (shard : UInt16) (value : UInt64) :
    (a.setCounter shard value).slots = a.slots := rfl

theorem counter_setCounter (a : Allocator) (s t : UInt16) (value : UInt64) :
    (a.setCounter s value).counter t = if a.slot s = a.slot t then value else a.counter t :=
  Sparse.get_set ..

@[simp] theorem shard_allocate (a : Allocator) (shard : UInt16) :
    (a.allocate shard).1.shard = shard := ChunkId.shard_compose ..

def describe (a : Allocator) : String :=
  let shown := (List.range (min a.slots 4)).map fun i => toString (a.nextSequence (.ofNat i))
  let listed := ", ".intercalate shown
  s!"ChunkIdAllocator \x7b shard_slots: {a.slots}, next_sequence: [{listed}], .. \x7d"

end Allocator
end ChainRelay
