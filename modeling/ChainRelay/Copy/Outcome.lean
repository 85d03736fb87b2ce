import ChainRelay.ChunkId

/-!
How a copy into a chunk chain can end, and what it reports.
-/

namespace ChainRelay

inductive CopyStatus where
  /-- Every byte is in the chain. -/
  | success
  /-- The chain holds the first bytes only. -/
  | truncated
  /-- There is no usable chain. -/
  | failed
  deriving DecidableEq, Inhabited

namespace CopyStatus

def code : CopyStatus → UInt8
  | success => 0
  | truncated => 1
  | failed => 2

def ofCode? (code : UInt8) : Option CopyStatus :=
  if code = 0 then some success
  else if code = 1 then some truncated
  else if code = 2 then some failed
  else none

@[simp] theorem ofCode?_code (s : CopyStatus) : ofCode? s.code = some s := by cases s <;> rfl

def describe : CopyStatus → String
  | success => "Success"
  | truncated => "Truncated"
  | failed => "Failed"

end CopyStatus

inductive SourceFault where
  | nullAddress
  | unmapped (addr : Nat)
  | wrongDomain (addr : Nat)
  | fieldUnavailable
  deriving DecidableEq

namespace SourceFault

def message : SourceFault → String
  | nullAddress => "null source address"
  | unmapped addr => s!"unreadable source byte at 0x{Text.hex addr}"
  | wrongDomain addr => s!"address 0x{Text.hex addr} is outside the requested trust domain"
  | fieldUnavailable => "field not available on this source"

def describe : SourceFault → String
  | nullAddress => "Null"
  | unmapped addr => s!"Unmapped \x7b addr: {addr} \x7d"
  | wrongDomain addr => s!"WrongDomain \x7b addr: {addr} \x7d"
  | fieldUnavailable => "FieldUnavailable"

end SourceFault

inductive CopyFailure where
  /-- A null address, no bytes or no chunks asked for, or an unusable chunk class. -/
  | invalidRequest
  /-- The channel refused a chunk. -/
  | capacity
  | source (fault : SourceFault)
  deriving DecidableEq

def CopyFailure.describe : CopyFailure → String
  | invalidRequest => "InvalidRequest"
  | capacity => "Capacity"
  | source fault => s!"Source({fault.describe})"

structure CopyOutcome where
  /-- The first chunk of the chain, if there is a usable one. -/
  head : ChunkId := .none
  /-- Source bytes in committed chunks. -/
  copied : Nat := 0
  /-- Chunks committed. -/
  chunks : Nat := 0
  status : CopyStatus
  failure : Option CopyFailure := none
  deriving DecidableEq

end ChainRelay
