import ChainRelay.Bytes
import ChainRelay.Copy.Outcome

/-!
The observed task: mapped regions of two trust domains, and scalar fields. A read looks up the
region with the nearest start at or below its position, takes what that region still has, and goes
on from there; it fails at the first byte that no region of the domain holds.
-/

namespace ChainRelay

inductive TrustDomain where
  /-- The observed process, not to be trusted. -/
  | monitored
  /-- The collector itself. -/
  | collector
  deriving DecidableEq

def addressLimit : Nat := 0x10000000000000000

structure MappedRegion where
  start : Nat
  bytes : Bytes
  domain : TrustDomain
  deriving DecidableEq

/-- The mapped regions, no two with the same start. -/
structure AddressSpace where
  regions : List MappedRegion := []

/-- A bounded string read: the bytes before the terminator, or as many as there was room for. -/
structure StringRead where
  bytes : Bytes
  terminated : Bool
  deriving DecidableEq

namespace AddressSpace

def unmap (s : AddressSpace) (start : Nat) : AddressSpace :=
  ⟨s.regions.filter (·.start ≠ start)⟩

/-- Replaces a region that starts at the same address. -/
def map (s : AddressSpace) (start : Nat) (bytes : Bytes) (domain : TrustDomain) : AddressSpace :=
  ⟨⟨start, bytes, domain⟩ :: (s.unmap start).regions⟩

def isMapped (s : AddressSpace) (start : Nat) : Bool := s.regions.any (·.start = start)

def later (best : Option MappedRegion) (r : MappedRegion) : Option MappedRegion :=
  match best with
  | some b => if b.start < r.start then some r else some b
  | none => some r

/-- The region with the greatest start at or below an address. -/
def nearest (s : AddressSpace) (addr : Nat) : Option MappedRegion :=
  (s.regions.filter (·.start ≤ addr)).foldl later none

/-- What the region around an address holds from there on. -/
def span (s : AddressSpace) (addr : Nat) (domain : TrustDomain) : Except SourceFault Bytes :=
  match s.nearest addr with
  | none => .error (.unmapped addr)
  | some r =>
    if r.bytes.length ≤ addr - r.start then .error (.unmapped addr)
    else if r.domain ≠ domain then .error (.wrongDomain addr)
    else .ok (r.bytes.drop (addr - r.start))

/-- The span at a position of a read that began at `origin`. -/
def spanFrom (s : AddressSpace) (origin cursor : Nat) (domain : TrustDomain) :
    Except SourceFault Bytes :=
  if addressLimit ≤ cursor then .error (.unmapped origin) else s.span cursor domain

/-- Reads on from `cursor`; `fuel` bounds the spans and `n` counts the bytes still wanted. -/
def readSpans (s : AddressSpace) (origin : Nat) (domain : TrustDomain) :
    (fuel cursor n : Nat) → Except SourceFault Bytes
  | _, _, 0 => .ok []
  | 0, _, _ => .ok []
  | fuel + 1, cursor, n =>
    match s.spanFrom origin cursor domain with
    | .error fault => .error fault
    | .ok bs =>
      let part := bs.take n
      match readSpans s origin domain fuel (cursor + part.length) (n - part.length) with
      | .error fault => .error fault
      | .ok rest => .ok (part ++ rest)

/-- Exactly `n` bytes, or a fault. -/
def readBytes (s : AddressSpace) (addr n : Nat) (domain : TrustDomain) :
    Except SourceFault Bytes :=
  if addr = 0 then .error .nullAddress else s.readSpans addr domain n addr n

/-- As `readSpans`, up to the first zero byte. -/
def readStringSpans (s : AddressSpace) (origin : Nat) (domain : TrustDomain) :
    (fuel cursor n : Nat) → Except SourceFault StringRead
  | _, _, 0 => .ok ⟨[], false⟩
  | 0, _, _ => .ok ⟨[], false⟩
  | fuel + 1, cursor, n =>
    match s.spanFrom origin cursor domain with
    | .error fault => .error fault
    | .ok bs =>
      let part := bs.take n
      let text := part.takeWhile (· ≠ 0)
      if text.length < part.length then .ok ⟨text, true⟩
      else
        match readStringSpans s origin domain fuel (cursor + part.length) (n - part.length) with
        | .error fault => .error fault
        | .ok rest => .ok ⟨part ++ rest.bytes, rest.terminated⟩

/-- The bytes up to a terminator among the first `n`, or all of those. -/
def readString (s : AddressSpace) (addr n : Nat) (domain : TrustDomain) :
    Except SourceFault StringRead :=
  if addr = 0 then .error .nullAddress else s.readStringSpans addr domain n addr n

end AddressSpace

inductive TaskField where
  | uid | gid | euid | egid
  | pid | tgid | namespacePid | pidNamespace
  | parentPid | parentTgid | parentStartTime
  | loginUid | sessionId | startTime
  | filenamePointer | interpreterPointer
  | argumentsStart | argumentsEnd | environmentStart | environmentEnd
  | cgroupId
  deriving DecidableEq

/-- An address space, and the fields of the tasks that live in it. -/
structure TaskSnapshot where
  memory : AddressSpace := {}
  fields : List ((UInt64 × TaskField) × UInt64) := []

namespace TaskSnapshot

def clearField (s : TaskSnapshot) (task : UInt64) (field : TaskField) : TaskSnapshot :=
  { s with fields := s.fields.filter (·.1 ≠ (task, field)) }

def setField (s : TaskSnapshot) (task : UInt64) (field : TaskField) (value : UInt64) :
    TaskSnapshot :=
  { s with fields := ((task, field), value) :: (s.clearField task field).fields }

def readField (s : TaskSnapshot) (task : UInt64) (field : TaskField) :
    Except SourceFault UInt64 :=
  match s.fields.lookup (task, field) with
  | some value => .ok value
  | none => .error .fieldUnavailable

def fieldOrZero (s : TaskSnapshot) (task : UInt64) (field : TaskField) : UInt64 :=
  match s.readField task field with
  | .ok value => value
  | .error _ => 0

end TaskSnapshot
end ChainRelay
