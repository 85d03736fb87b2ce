import ChainRelay.DecodeError

/-!
The sizes a chunk can have. A chunk is a header of 24 bytes and a payload; the class fixes both
together, and its code stands in the header.
-/

namespace ChainRelay

def chunkHeaderSize : Nat := 24

/-- The most payload that any chunk may carry. -/
def maxChunkPayload : Nat := 4072

inductive SizeClass where
  | small
  | medium
  | large
  | custom (payload : UInt16)
  deriving DecidableEq, Inhabited

namespace SizeClass

def totalSize : SizeClass → Nat
  | small => 256
  | medium => 512
  | large => 1024
  | custom payload => chunkHeaderSize + payload.toNat

def payloadCapacity (c : SizeClass) : Nat := c.totalSize - chunkHeaderSize

def code : SizeClass → UInt8
  | small => 0
  | medium => 1
  | large => 2
  | custom _ => 0xFF

def isValid (c : SizeClass) : Bool := 0 < c.payloadCapacity && c.payloadCapacity ≤ maxChunkPayload

theorem headerSize_le_totalSize (c : SizeClass) : chunkHeaderSize ≤ c.totalSize := by
  cases c <;> simp [totalSize, chunkHeaderSize]

@[simp] theorem headerSize_add_payloadCapacity (c : SizeClass) :
    chunkHeaderSize + c.payloadCapacity = c.totalSize :=
  Nat.add_sub_of_le c.headerSize_le_totalSize

/-- The class that a code names for a record of `size` bytes, before the sizes are compared. -/
def named? (code : UInt8) (size : Nat) : Except DecodeError SizeClass :=
  if code = 0 then .ok small
  else if code = 1 then .ok medium
  else if code = 2 then .ok large
  else if code = 0xFF then
    let payload := size - chunkHeaderSize
    if payload = 0 ∨ maxChunkPayload < payload then .error (.length payload maxChunkPayload)
    else .ok (custom (.ofNat payload))
  else .error (.sizeClass code)

def ofCode? (code : UInt8) (size : Nat) : Except DecodeError SizeClass := do
  let c ← named? code size
  if c.totalSize = size then .ok c else .error (.short c.totalSize size)

/-- The smallest standard class that holds `len` bytes, or the largest one. -/
def forLength (len : Nat) : SizeClass :=
  if len ≤ small.payloadCapacity then small
  else if len ≤ medium.payloadCapacity then medium
  else large

def describe : SizeClass → String
  | small => "Small"
  | medium => "Medium"
  | large => "Large"
  | custom payload => s!"Custom({payload})"

end SizeClass
end ChainRelay
