/-!
The operating system under the program: what it grants, and what it answers when it refuses.
-/

namespace ChainRelay

/-- What the operating system answers when it refuses. -/
inductive SystemError where
  | notFound
  | invalidArgument
  | outOfMemory
  | nameTooLong
  | notADirectory
  | isADirectory
  /-- A file name with a zero character in it. -/
  | unusableName
  deriving DecidableEq

def SystemError.message : SystemError → String
  | notFound => "No such file or directory (os error 2)"
  | invalidArgument => "Invalid argument (os error 22)"
  | outOfMemory => "Cannot allocate memory (os error 12)"
  | nameTooLong => "File name too long (os error 36)"
  | notADirectory => "Not a directory (os error 20)"
  | isADirectory => "Is a directory (os error 21)"
  | unusableName => "file name contained an unexpected NUL byte"

/-- The limits of a system, and where it refuses for reasons of its own. -/
structure System where
  /-- Bytes that the name of a file may have. -/
  longestName : Nat := 255
  /-- Bytes that the path of a file may have. -/
  longestPath : Nat := 4095
  /-- Whether there is memory for a private region of this size. -/
  hasMemory : Nat → Bool := fun _ => true
  /-- Why that many bytes of the file of this name are not mapped, where they are not. -/
  mapFault? : String → Nat → Option SystemError := fun _ _ => none

end ChainRelay
