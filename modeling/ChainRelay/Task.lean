import ChainRelay.Copy.Outcome
import ChainRelay.Field

/-!
The record of a task that has just executed a new program, and its 368 bytes on the wire. Every
part stands at a fixed offset of the body.
-/

namespace ChainRelay

structure Credentials where
  uid : UInt32 := 0
  gid : UInt32 := 0
  euid : UInt32 := 0
  egid : UInt32 := 0
  deriving DecidableEq

structure ProcessIdentity where
  pid : UInt32 := 0
  tgid : UInt32 := 0
  /-- The process as its own namespace numbers it. -/
  namespacePid : UInt32 := 0
  /-- The number of that namespace. -/
  pidNamespace : UInt32 := 0
  deriving DecidableEq

structure ParentIdentity where
  pid : UInt32 := 0
  tgid : UInt32 := 0
  startTime : UInt64 := 0
  deriving DecidableEq

structure BlockRef where
  head : ChunkId := .none
  status : CopyStatus := .failed
  deriving DecidableEq

structure Task where
  credentials : Credentials := {}
  process : ProcessIdentity := {}
  parent : ParentIdentity := {}
  loginUid : UInt32 := 0
  sessionId : UInt32 := 0
  startTime : UInt64 := 0
  filename : Field := .unavailable
  interpreter : Field := .unavailable
  arguments : BlockRef := {}
  environment : BlockRef := {}
  cgroupId : UInt64 := 0
  deriving DecidableEq

namespace Task

def wireSize : Nat := 368

def encodeIdentities (t : Task) : Bytes :=
  [t.credentials.uid, t.credentials.gid, t.credentials.euid, t.credentials.egid,
    t.process.pid, t.process.tgid, t.process.namespacePid, t.process.pidNamespace,
    t.parent.pid, t.parent.tgid].flatMap Bytes.ofUInt32

def encode (t : Task) : Bytes :=
  t.encodeIdentities ++ (Bytes.ofUInt64 t.parent.startTime ++ (Bytes.ofUInt32 t.loginUid ++
    (Bytes.ofUInt32 t.sessionId ++ (Bytes.ofUInt64 t.startTime ++ (t.filename.encode ++
      (t.interpreter.encode ++ (Bytes.ofUInt64 t.arguments.head.raw ++
        (Bytes.ofUInt64 t.environment.head.raw ++ (t.arguments.status.code ::
          t.environment.status.code :: (Bytes.zeros 6 ++ Bytes.ofUInt64 t.cgroupId))))))))))

@[simp] theorem length_encode (t : Task) : t.encode.length = wireSize := by
  simp [encode, encodeIdentities, Field.wireSize, wireSize]

def decodeStatus (code : UInt8) : Except DecodeError CopyStatus :=
  match CopyStatus.ofCode? code with
  | some s => .ok s
  | none => .error (.copyStatus code)

def decode (bs : Bytes) : Except DecodeError Task := do
  let filename ← Field.decodeAt bs 64
  let interpreter ← Field.decodeAt bs 200
  let argumentsStatus ← decodeStatus (bs.uint8At 352)
  let environmentStatus ← decodeStatus (bs.uint8At 353)
  return {
    credentials := ⟨bs.uint32At 0, bs.uint32At 4, bs.uint32At 8, bs.uint32At 12⟩
    process := ⟨bs.uint32At 16, bs.uint32At 20, bs.uint32At 24, bs.uint32At 28⟩
    parent := ⟨bs.uint32At 32, bs.uint32At 36, bs.uint64At 40⟩
    loginUid := bs.uint32At 48
    sessionId := bs.uint32At 52
    startTime := bs.uint64At 56
    filename, interpreter
    arguments := ⟨⟨bs.uint64At 336⟩, argumentsStatus⟩
    environment := ⟨⟨bs.uint64At 344⟩, environmentStatus⟩
    cgroupId := bs.uint64At 360 }

end Task
end ChainRelay
