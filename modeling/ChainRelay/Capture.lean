import ChainRelay.Copy.Chain
import ChainRelay.Signal

/-!
Capturing a task into a record, and submitting records. Strings go inline where they fit and into a
chain otherwise; a part that cannot be read is left out and the others are not affected. A record is
submitted whole, after the chunks it names, or dropped.
-/

namespace ChainRelay

namespace Writer

def fieldOfCopy (o : CopyOutcome) : Field :=
  if o.status = .failed ∨ o.head.isNone then .unavailable
  else .overflow o.head (.ofNat o.copied) (o.status = .truncated)

/-- Reads a string into the record, or copies it from its beginning if it does not fit. -/
def readField (w : Writer) (source : AddressSpace) (addr : Nat) (domain : TrustDomain)
    (settings : CopySettings) : Activity Field :=
  if addr = 0 then return .unavailable
  else match source.readString addr inlineCapacity domain with
    | .error fault => do
      .perform (.report (.fieldUnreadable w.shard fault))
      return .unavailable
    | .ok read =>
      if read.terminated then
        return ((InlineString.ofBytes? read.bytes).map Field.inline).getD .unavailable
      else return fieldOfCopy (← w.copyString source addr domain settings)

/-- As `readField`; unavailable fields are counted. -/
def encodeField (w : Writer) (source : AddressSpace) (addr : Nat) (domain : TrustDomain)
    (settings : CopySettings) : Activity Field := do
  let field ← w.readField source addr domain settings
  if field = .unavailable then .perform (.count w.tally .fieldsUnavailable)
  return field

end Writer

inductive EmitOutcome where
  | submitted
  /-- There was no room for the record; its chunks stay where they are. -/
  | dropped
  deriving DecidableEq

def EmitOutcome.describe : EmitOutcome → String
  | submitted => "Submitted"
  | dropped => "Dropped"

/-- One firing of a probe: a writer, the channel for its records, and the limits of its copies. -/
structure Invocation where
  writer : Writer
  records : Channel
  settings : CopySettings

namespace Invocation

def shard (i : Invocation) : UInt16 := i.writer.shard

def copyBlock (i : Invocation) (source : AddressSpace) (start stop : UInt64) : Activity BlockRef :=
  let len := stop.toNat - start.toNat
  if start = 0 ∨ len = 0 then return {}
  else do
    let o ← i.writer.copyBytes source start.toNat len .monitored i.settings
    return ⟨o.head, o.status⟩

/-- Scalars that cannot be read are zero. Paths are the collector's own memory, arguments and
environment the process's. A task without interpreter has no such field to be counted. -/
def capture (i : Invocation) (source : TaskSnapshot) (task : UInt64) : Activity Task := do
  let value := source.fieldOrZero task
  let value32 := fun field => (value field).toUInt32
  let filename ← i.writer.encodeField source.memory (value .filenamePointer).toNat .collector
    i.settings
  let interpreter ←
    if value .interpreterPointer = 0 then pure .unavailable
    else i.writer.encodeField source.memory (value .interpreterPointer).toNat .collector i.settings
  let arguments ← i.copyBlock source.memory (value .argumentsStart) (value .argumentsEnd)
  let environment ← i.copyBlock source.memory (value .environmentStart) (value .environmentEnd)
  return {
    credentials := ⟨value32 .uid, value32 .gid, value32 .euid, value32 .egid⟩
    process := ⟨value32 .pid, value32 .tgid, value32 .namespacePid, value32 .pidNamespace⟩
    parent := ⟨value32 .parentPid, value32 .parentTgid, value .parentStartTime⟩
    loginUid := value32 .loginUid
    sessionId := value32 .sessionId
    startTime := value .startTime
    filename, interpreter, arguments, environment
    cgroupId := value .cgroupId }

/-- Frames a signal, with the time it is submitted at, in one reservation. -/
def submit (i : Invocation) (timestamp : UInt64) (signal : Signal) : Activity EmitOutcome := do
  match ← .perform (.reserve i.records signal.encodedSize) with
  | .error .overflow => .abort
  | .error cause =>
    .perform (.count i.writer.tally .recordsDropped)
    .perform (.report (.recordDropped i.shard signal.kind cause))
    return .dropped
  | .ok reservation =>
    .perform (.commitRecord reservation (signal.encode i.shard timestamp))
    .perform (.count i.writer.tally .recordsSubmitted)
    return .submitted

def emitTask (i : Invocation) (timestamp : UInt64) (source : TaskSnapshot) (task : UInt64) :
    Activity EmitOutcome := do
  i.submit timestamp (.taskExec (← i.capture source task))

def emitCgroup (i : Invocation) (timestamp : UInt64) (id : UInt64) : Activity EmitOutcome :=
  i.submit timestamp (.cgroupSnapshot id)

end Invocation
end ChainRelay
