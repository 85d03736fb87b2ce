import ChainRelay.Bytes
import ChainRelay.ChunkId
import ChainRelay.DecodeError
import ChainRelay.Text.Lossy

/-!
String fields of a record. A short string stands in the record itself, a long one in a chunk chain
that the record names, and one that could not be had is marked so. On the wire a field takes 136
bytes: a tag, a truncation mark, the inline length, four unused bytes and 128 bytes of data.
-/

namespace ChainRelay

/-- The room for an inline string with its terminator. -/
def inlineCapacity : Nat := 128

structure InlineString where
  bytes : Bytes
  fits : bytes.length < inlineCapacity
  deriving DecidableEq

namespace InlineString

def ofBytes? (bs : Bytes) : Option InlineString :=
  if h : bs.length < inlineCapacity then some ⟨bs, h⟩ else none

theorem ofBytes?_eq_some_iff {bs : Bytes} {s : InlineString} :
    ofBytes? bs = some s ↔ s.bytes = bs := by
  cases s with
  | mk b hb =>
    unfold ofBytes?
    constructor
    · intro h
      split at h
      · simpa using h.symm
      · simp at h
    · rintro rfl
      simp [hb]

def length (s : InlineString) : Nat := s.bytes.length

def describe (s : InlineString) : String := Text.quote (Text.lossy s.bytes)

end InlineString

inductive Field where
  | inline (s : InlineString)
  /-- The value is the chain at `head`, `len` bytes of it, or only its first bytes. -/
  | overflow (head : ChunkId) (len : UInt64) (truncated : Bool)
  | unavailable
  deriving DecidableEq, Inhabited

namespace Field

inductive Kind where
  | inline
  | overflow
  | unavailable
  deriving DecidableEq

def kind : Field → Kind
  | inline _ => .inline
  | overflow .. => .overflow
  | unavailable => .unavailable

def Kind.describe : Kind → String
  | inline => "Inline"
  | overflow => "Overflow"
  | unavailable => "Unavailable"

def chainHead? : Field → Option ChunkId
  | overflow head .. => some head
  | _ => none

def describe : Field → String
  | inline s => s!"Inline({s.describe})"
  | overflow head len truncated =>
    s!"Overflow \x7b head: {head.describe}, len: {len}, truncated: {truncated} \x7d"
  | unavailable => "Unavailable"

structure Wire where
  tag : UInt8
  truncated : UInt8 := 0
  inlineLength : UInt16 := 0
  reserved : UInt32 := 0
  data : Bytes := []
  deriving DecidableEq

def wireSize : Nat := 136

namespace Wire

def encode (w : Wire) : Bytes :=
  w.tag :: w.truncated :: (Bytes.ofUInt16 w.inlineLength ++ (Bytes.ofUInt32 w.reserved ++
    Bytes.fit inlineCapacity w.data))

def decodeAt (bs : Bytes) (offset : Nat) : Wire where
  tag := bs.uint8At offset
  truncated := bs.uint8At (offset + 1)
  inlineLength := bs.uint16At (offset + 2)
  reserved := bs.uint32At (offset + 4)
  data := bs.slice (offset + 8) inlineCapacity

@[simp] theorem length_encode (w : Wire) : w.encode.length = wireSize := by
  simp [encode, inlineCapacity, wireSize]

end Wire

def unavailableTag : UInt8 := 0
def inlineTag : UInt8 := 1
def overflowTag : UInt8 := 2

def toWire : Field → Wire
  | inline s => { tag := inlineTag, inlineLength := .ofNat s.length, data := s.bytes }
  | overflow head len truncated =>
    { tag := overflowTag
      truncated := if truncated then 1 else 0
      data := Bytes.ofUInt64 head.raw ++ Bytes.ofUInt64 len }
  | unavailable => { tag := unavailableTag }

/-- An inline string must end in a zero byte, and a chain must have a head. -/
def ofWire? (w : Wire) : Except DecodeError Field :=
  if w.tag = unavailableTag then .ok unavailable
  else if w.tag = inlineTag then
    let len := w.inlineLength.toNat
    if inlineCapacity ≤ len then .error (.length len (inlineCapacity - 1))
    else if w.data.uint8At len ≠ 0 then .error (.unterminated len)
    else match InlineString.ofBytes? (w.data.take len) with
      | some s => .ok (inline s)
      | none => .error (.length len (inlineCapacity - 1))
  else if w.tag = overflowTag then
    let head : ChunkId := ⟨w.data.uint64At 0⟩
    if head.isNone then .error (.fieldTag w.tag)
    else .ok (overflow head (w.data.uint64At 8) (w.truncated != 0))
  else .error (.fieldTag w.tag)

def encode (f : Field) : Bytes := f.toWire.encode

def decodeAt (bs : Bytes) (offset : Nat) : Except DecodeError Field :=
  ofWire? (Wire.decodeAt bs offset)

@[simp] theorem length_encode (f : Field) : f.encode.length = wireSize := Wire.length_encode _

end Field
end ChainRelay
