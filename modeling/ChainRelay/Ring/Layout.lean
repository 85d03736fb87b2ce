import ChainRelay.Memory
import ChainRelay.Size

/-!
How a channel lies in its region: a control block, and a band of bytes in which records follow each
other. Every record starts with a word that holds its length and two marks. The two cursors run
freely; a cursor modulo the capacity is an offset in the band.
-/

namespace ChainRelay.Ring

def magic : Nat := 0x444D58505F43484E

def version : Nat := 2

def minCapacity : Nat := 8192

/-- The band of a new channel starts here. -/
def headerSpan : Nat := 384

def recordHeaderSize : Nat := 8

/-- Marks a record that its writer has not finished. -/
def busyMark : Nat := 0x80000000

/-- Marks a record that the consumer skips: discarded, or filling up the end of the band. -/
def discardMark : Nat := 0x40000000

def maxWordLength : Nat := discardMark - 1

/-- The bytes that a record of `len` bytes occupies: header, payload, and up to a multiple of 8. -/
def span (len : Nat) : Nat := (len + 15) / 8 * 8

theorem span_mod_eight (len : Nat) : span len % 8 = 0 := by unfold span; omega

/-- The span where header, payload and one more step of 8 are a size together. -/
def checkedSpan (len : Nat) : Except Overflow Nat :=
  if recordHeaderSize + len + 8 < sizeLimit then .ok (span len) else .error .overflow

def isBusy (word : Nat) : Bool := busyMark ≤ word

def isDiscarded (word : Nat) : Bool := discardMark ≤ word % busyMark

def wordLength (word : Nat) : Nat := word % discardMark

def storedMagic (m : Memory) : Nat := m.word 0 8
def storedVersion (m : Memory) : Nat := m.word 8 4
def flags (m : Memory) : Nat := m.word 12 4
def storedCapacity (m : Memory) : Nat := m.word 16 8
def storedOffset (m : Memory) : Nat := m.word 24 8
/-- Counts finalized records; a consumer sleeps on it. -/
def signal (m : Memory) : Nat := m.word 32 4
def waiters (m : Memory) : Nat := m.word 36 4
/-- The end of the last reservation. -/
def produced (m : Memory) : Nat := m.word 128 8
/-- The start of the oldest record that was not consumed. -/
def consumed (m : Memory) : Nat := m.word 256 8

def setSignal (m : Memory) (v : Nat) : Memory := m.setWord 32 4 v
def setWaiters (m : Memory) (v : Nat) : Memory := m.setWord 36 4 v
def setProduced (m : Memory) (v : Nat) : Memory := m.setWord 128 8 v
def setConsumed (m : Memory) (v : Nat) : Memory := m.setWord 256 8 v

/-- Finalizing a record of this channel wakes a sleeper. -/
def notifies (m : Memory) : Bool := flags m % 2 == 1

/-- The control block of a fresh channel; the bytes between its words keep what they held. -/
def writeHeader (m : Memory) (capacity : Nat) (notify : Bool) : Memory :=
  let m := (m.setWord 0 8 magic).setWord 8 4 version
  let m := (m.setWord 12 4 (if notify then 1 else 0)).setWord 16 8 capacity
  let m := (m.setWord 24 8 headerSpan).setWord 32 4 0
  setConsumed (setProduced (m.setWord 36 4 0) 0) 0

/-- Where a view of a channel finds its records. -/
structure Band where
  offset : Nat
  capacity : Nat
  deriving DecidableEq

namespace Band

def recordWord (b : Band) (m : Memory) (pos : Nat) : Nat := m.word (b.offset + pos) 4

def setRecordWord (b : Band) (m : Memory) (pos v : Nat) : Memory := m.setWord (b.offset + pos) 4 v

/-- Bytes reserved and not consumed, those that fill up the end of the band included. -/
def used (_ : Band) (m : Memory) : Nat := produced m - consumed m

def free (b : Band) (m : Memory) : Except Overflow Nat :=
  if b.used m ≤ b.capacity then .ok (b.capacity - b.used m) else .error .overflow

/-- A quarter of the band less a header, so that a record always fits once the consumer caught
up. -/
def maxRecordLength (b : Band) : Except Overflow Nat :=
  if b.capacity / 4 < recordHeaderSize then .error .overflow
  else .ok (min (b.capacity / 4 - recordHeaderSize) maxWordLength)

end Band
end ChainRelay.Ring
