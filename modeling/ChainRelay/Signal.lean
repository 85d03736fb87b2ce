import ChainRelay.Task

/-!
Framed records: a header of 16 bytes whose tag says which body follows.
-/

namespace ChainRelay

def signalVersion : UInt8 := 1

def signalHeaderSize : Nat := 16

structure SignalHeader where
  version : UInt8 := 1
  tag : UInt8
  shard : UInt16
  reserved : UInt32 := 0
  timestamp : UInt64
  deriving DecidableEq

namespace SignalHeader

def encode (h : SignalHeader) : Bytes :=
  h.version :: h.tag :: (Bytes.ofUInt16 h.shard ++ (Bytes.ofUInt32 h.reserved ++
    Bytes.ofUInt64 h.timestamp))

def decode (bs : Bytes) : SignalHeader where
  version := bs.uint8At 0
  tag := bs.uint8At 1
  shard := bs.uint16At 2
  reserved := bs.uint32At 4
  timestamp := bs.uint64At 8

@[simp] theorem length_encode (h : SignalHeader) : h.encode.length = signalHeaderSize := by
  simp [encode, signalHeaderSize]

end SignalHeader

inductive SignalKind where
  | taskExec
  | cgroupSnapshot
  deriving DecidableEq

namespace SignalKind

def tag : SignalKind → UInt8
  | taskExec => 1
  | cgroupSnapshot => 2

def ofTag? (tag : UInt8) : Except DecodeError SignalKind :=
  if tag = 1 then .ok taskExec
  else if tag = 2 then .ok cgroupSnapshot
  else .error (.recordType tag)

def bodySize : SignalKind → Nat
  | taskExec => Task.wireSize
  | cgroupSnapshot => 8

def describe : SignalKind → String
  | taskExec => "TaskExec"
  | cgroupSnapshot => "CgroupSnapshot"

end SignalKind

inductive Signal where
  | taskExec (t : Task)
  | cgroupSnapshot (id : UInt64)
  deriving DecidableEq

namespace Signal

def kind : Signal → SignalKind
  | taskExec _ => .taskExec
  | cgroupSnapshot _ => .cgroupSnapshot

def encodeBody : Signal → Bytes
  | taskExec t => t.encode
  | cgroupSnapshot id => Bytes.ofUInt64 id

def encodedSize (s : Signal) : Nat := signalHeaderSize + s.kind.bodySize

def encode (s : Signal) (shard : UInt16) (timestamp : UInt64) : Bytes :=
  SignalHeader.encode { tag := s.kind.tag, shard, timestamp } ++ s.encodeBody

@[simp] theorem length_encode (s : Signal) (shard : UInt16) (timestamp : UInt64) :
    (s.encode shard timestamp).length = s.encodedSize := by
  cases s <;> simp [encode, encodeBody, encodedSize, kind, SignalKind.bodySize]

end Signal

structure DecodedSignal where
  header : SignalHeader
  signal : Signal
  deriving DecidableEq

def decodeSignal (bs : Bytes) : Except DecodeError DecodedSignal :=
  if bs.length < signalHeaderSize then .error (.short signalHeaderSize bs.length)
  else
    let header := SignalHeader.decode bs
    if header.version ≠ signalVersion then .error (.version header.version)
    else do
      let kind ← SignalKind.ofTag? header.tag
      let size := signalHeaderSize + kind.bodySize
      if bs.length < size then .error (.short size bs.length)
      else
        let body : Bytes := bs.drop signalHeaderSize
        match kind with
        | .taskExec => return ⟨header, .taskExec (← Task.decode body)⟩
        | .cgroupSnapshot => return ⟨header, .cgroupSnapshot (body.uint64At 0)⟩

end ChainRelay
