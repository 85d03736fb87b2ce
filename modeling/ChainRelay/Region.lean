import ChainRelay.Shared
import ChainRelay.Settings.Basic

/-!
Regions of memory that back channels: private ones, and files in the directory of named regions that
several views may map.
-/

namespace ChainRelay

inductive SetupError where
  | overflow
  | emptyRegion
  | sizeTooLarge
  | allocationFailed (size : Nat)
  | cannotCreate (name : String) (cause : SystemError)
  | cannotOpen (name : String) (cause : SystemError)
  | system (cause : SystemError)
  | fileTooSmall (expected found : Nat)
  | notAChannel
  | unsupportedVersion (found : Nat)
  | bandOutside
  | settings (cause : SettingsError)
  deriving DecidableEq

namespace SetupError

inductive Kind where
  | overflow
  | invalidInput
  | invalidData
  | notFound
  | outOfMemory
  | invalidFilename
  | notADirectory
  | isADirectory
  deriving DecidableEq

def Kind.describe : Kind → String
  | overflow => "Overflow"
  | invalidInput => "InvalidInput"
  | invalidData => "InvalidData"
  | notFound => "NotFound"
  | outOfMemory => "OutOfMemory"
  | invalidFilename => "InvalidFilename"
  | notADirectory => "NotADirectory"
  | isADirectory => "IsADirectory"

def systemKind : SystemError → Kind
  | .notFound => .notFound
  | .invalidArgument | .unusableName => .invalidInput
  | .outOfMemory => .outOfMemory
  | .nameTooLong => .invalidFilename
  | .notADirectory => .notADirectory
  | .isADirectory => .isADirectory

def kind : SetupError → Kind
  | overflow | settings .overflow => .overflow
  | emptyRegion | sizeTooLarge | settings _ => .invalidInput
  | allocationFailed _ => .outOfMemory
  | cannotCreate _ cause | system cause => systemKind cause
  | cannotOpen .. => .notFound
  | fileTooSmall .. | notAChannel | unsupportedVersion _ | bandOutside => .invalidData

def message : SetupError → String
  | overflow => "size out of range"
  | emptyRegion => "region size must be greater than zero"
  | sizeTooLarge => "invalid parameters to Layout::from_size_align"
  | allocationFailed size => s!"failed to allocate {size} byte region"
  | cannotCreate name cause =>
    s!"Failed to create shared memory file at {Directory.path name}: {cause.message}"
  | cannotOpen name cause =>
    s!"Failed to open shared memory at {Directory.path name}: {cause.message}"
  | system cause => cause.message
  | fileTooSmall expected found =>
    s!"Shared memory size too small: expected at least {expected} bytes, got {found}"
  | notAChannel => "Invalid magic number - channel not initialized"
  | unsupportedVersion found => s!"unsupported channel version {found}"
  | bandOutside => "channel header describes a band outside the region"
  | settings cause => cause.message

end SetupError

inductive Backing where
  | heap
  | file
  deriving DecidableEq

/-- A mapped region: where its bytes are, and how many of them are mapped. -/
structure Region where
  id : Nat
  size : Nat
  backing : Backing
  deriving DecidableEq

namespace Region

/-- Region sizes and band starts are multiples of this number. -/
def alignment : Nat := 128

/-- Larger regions are refused whatever memory there is. -/
def largestLayout : Nat := 0x8000000000000000 - alignment

def largestFile : Nat := 0x7FFFFFFFFFFFFFFF

/-- The size of a region that was asked to hold `size` bytes, which with one more step of alignment
must still be a size. -/
def roundedSize (size : Nat) : Except Overflow Nat := do
  let _ ← checkedSize (size + alignment)
  return alignUp alignment size

end Region

namespace Shared

def allocateRegion (size : Nat) (s : Shared) : Except SetupError Region × Shared :=
  if size = 0 then (.error .emptyRegion, s)
  else match Region.roundedSize size with
    | .error _ => (.error .overflow, s)
    | .ok size =>
      if Region.largestLayout < size then (.error .sizeTooLarge, s)
      else if s.system.hasMemory size then
        (.ok ⟨s.freshRegion, size, .heap⟩, { s with freshRegion := s.freshRegion + 1 })
      else (.error (.allocationFailed size), s)

def mapFile (name : String) (id size : Nat) (s : Shared) : Except SetupError Region :=
  if size = 0 then .error (.system .invalidArgument)
  else match s.system.mapFault? name size with
    | some cause => .error (.system cause)
    | none => .ok ⟨id, size, .file⟩

/-- Empties the file of this name, or makes a new one. -/
def truncateFile (name : String) (s : Shared) : Nat × Shared :=
  match s.directory.find? name with
  | some file =>
    (file.region,
      { s with
        regions := s.regions.set file.region .blank
        directory := s.directory.insert name ⟨file.region, 0⟩ })
  | none =>
    (s.freshRegion,
      { s with
        freshRegion := s.freshRegion + 1
        directory := s.directory.insert name ⟨s.freshRegion, 0⟩ })

/-- A named region, all zeros. What a file of this name held is lost, also if a later step fails. -/
def createFile (name : String) (size : Nat) (s : Shared) : Except SetupError Region × Shared :=
  match Region.roundedSize size with
  | .error _ => (.error .overflow, s)
  | .ok size =>
    match s.directory.checkNewName s.system name with
    | .error cause => (.error (.cannotCreate name cause), s)
    | .ok () =>
      let (id, s) := s.truncateFile name
      if Region.largestFile < size then (.error (.system .invalidArgument), s)
      else
        (s.mapFile name id size, { s with directory := s.directory.insert name ⟨id, size⟩ })

/-- Maps the whole file of this name, which must have at least `size` bytes. -/
def openFile (name : String) (size : Nat) (s : Shared) : Except SetupError Region :=
  match s.directory.checkName s.system name with
  | .error cause => .error (.cannotOpen name cause)
  | .ok () =>
    match s.directory.find? name with
    | none => .error (.cannotOpen name .notFound)
    | some file =>
      if file.size < size then .error (.fileTooSmall size file.size)
      else s.mapFile name file.region file.size

/-- Removes a name. It is no error if there is none. -/
def unlink (name : String) (s : Shared) : Except SetupError Unit × Shared :=
  match s.directory.checkName s.system name with
  | .ok () | .error .notFound => (.ok (), { s with directory := s.directory.erase name })
  | .error cause => (.error (.system cause), s)

end Shared

namespace Region

def covers (r : Region) (offset len : Nat) : Bool := offset + len ≤ r.size

def peek (r : Region) (offset len : Nat) (s : Shared) : Bytes :=
  (s.regions.get r.id).load offset len

def poke (r : Region) (offset : Nat) (bytes : Bytes) (s : Shared) : Shared :=
  s.onRegion r.id (·.store offset bytes)

end Region
end ChainRelay
