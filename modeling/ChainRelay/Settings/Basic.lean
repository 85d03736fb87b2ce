import ChainRelay.Ring.Layout
import ChainRelay.SizeClass
import ChainRelay.Text.Quoted

/-!
What can be set: the limits of a copy, the two channels, and the store. Settings are valid when
every copy they allow can be written to the chunk channel they describe.
-/

namespace ChainRelay

/-- No copy writes more chunks than this. -/
def maxChunksLimit : Nat := 32

structure CopySettings where
  /-- The chunks that one copy may write. -/
  maxChunks : Nat := 16
  /-- The class for strings. -/
  stringClass : SizeClass := .large
  /-- The class for byte ranges, or none to choose by the length. -/
  byteClass : Option SizeClass := none
  deriving DecidableEq, Inhabited

structure ChannelSettings where
  chunkCapacity : Nat := 4194304
  recordCapacity : Nat := 1048576
  /-- The beginning of both channels' names, or none for private channels. -/
  stem : Option String := none
  notify : Bool := true
  deriving DecidableEq

structure StoreSettings where
  /-- The chunks that wait for the record that names them. -/
  maxPending : Nat := 65536
  deriving DecidableEq

structure Settings where
  copy : CopySettings := {}
  channels : ChannelSettings := {}
  store : StoreSettings := {}
  deriving DecidableEq

inductive InvalidSetting where
  | maxChunks (found : Nat)
  | chunkClass (found : SizeClass)
  | stem (found : String)
  | chunkTooLarge (size capacity : Nat)
  deriving DecidableEq

def InvalidSetting.message : InvalidSetting → String
  | maxChunks found => s!"max_chunks must be in 1..={maxChunksLimit}, got {found}"
  | chunkClass found => s!"unusable chunk class {found.describe}"
  | stem found => s!"invalid shared memory prefix {Text.quote found}"
  | chunkTooLarge size capacity =>
    s!"chunk of {size} bytes does not fit a {capacity} byte chunk channel"

inductive SettingsError where
  /-- There is no such file, or it is not text. -/
  | unreadable
  /-- The text is not a document, or its values have other types. -/
  | malformed
  | invalid (cause : InvalidSetting)
  | overflow
  deriving DecidableEq

def SettingsError.message : SettingsError → String
  | unreadable => "failed to read config file"
  | malformed => "failed to parse config"
  | invalid cause => s!"invalid config: {cause.message}"
  | overflow => "capacity out of range"

namespace CopySettings

def classFor (c : CopySettings) (len : Nat) : SizeClass := c.byteClass.getD (.forLength len)

def withBothClasses (c : CopySettings) (s : SizeClass) : CopySettings :=
  { c with stringClass := s, byteClass := some s }

def classes (c : CopySettings) : List SizeClass := c.stringClass :: c.byteClass.toList

def validate (c : CopySettings) : Except SettingsError Unit :=
  if c.maxChunks = 0 ∨ maxChunksLimit < c.maxChunks then
    .error (.invalid (.maxChunks c.maxChunks))
  else match c.classes.find? (!·.isValid) with
    | some bad => .error (.invalid (.chunkClass bad))
    | none => .ok ()

end CopySettings

namespace ChannelSettings

def chunkChannelName (c : ChannelSettings) : Option String := c.stem.map (· ++ "-chunks")

def recordChannelName (c : ChannelSettings) : Option String := c.stem.map (· ++ "-records")

def validate (c : ChannelSettings) : Except SettingsError Unit :=
  match c.stem with
  | some stem =>
    if stem.isEmpty || stem.contains '/' then .error (.invalid (.stem stem)) else .ok ()
  | none => .ok ()

end ChannelSettings

/-- The band of a channel that was asked to hold `capacity` bytes. -/
def bandCapacity (capacity : Nat) : Except Overflow Nat :=
  checkedSize (powerAbove (max capacity Ring.minCapacity))

namespace Settings

def largestChunk (s : Settings) : Nat :=
  (SizeClass.large :: s.copy.classes).foldl (fun n c => max n c.totalSize) 0

def validate (s : Settings) : Except SettingsError Unit := do
  s.copy.validate
  s.channels.validate
  match bandCapacity s.channels.chunkCapacity with
  | .error _ => .error .overflow
  | .ok band =>
    if band / 4 - Ring.recordHeaderSize < s.largestChunk then
      .error (.invalid (.chunkTooLarge s.largestChunk s.channels.chunkCapacity))
    else .ok ()

end Settings
end ChainRelay
