import ChainRelay.System

/-!
The directory of named regions. A name stands for a file until it is unlinked; a file that is
created again under its name stays the same file.
-/

namespace ChainRelay

/-- A named file: the region that holds its bytes, and its size. -/
structure SharedFile where
  region : Nat
  size : Nat
  deriving DecidableEq

structure Directory where
  entries : List (String × SharedFile) := []

namespace Directory

def find? (d : Directory) (name : String) : Option SharedFile := d.entries.lookup name

def erase (d : Directory) (name : String) : Directory := ⟨d.entries.filter (·.1 ≠ name)⟩

def insert (d : Directory) (name : String) (file : SharedFile) : Directory :=
  ⟨(name, file) :: (d.erase name).entries⟩

def path (name : String) : String := "/dev/shm/" ++ name

def checkPath (system : System) (name : String) : Except SystemError Unit :=
  if name.contains '\x00' then .error .unusableName
  else if system.longestPath < (path name).utf8ByteSize then .error .nameTooLong
  else .ok ()

/-- What stands in front of the first slash. -/
def baseName (name : String) : String := String.ofList (name.toList.takeWhile (· ≠ '/'))

/-- Why a name cannot stand for a file. There are no directories inside the directory: a slash
follows the name of a file, or of nothing. -/
def checkName (d : Directory) (system : System) (name : String) : Except SystemError Unit := do
  checkPath system name
  if system.longestName < (baseName name).utf8ByteSize then .error .nameTooLong
  else if baseName name = name then .ok ()
  else if (d.find? (baseName name)).isSome then .error .notADirectory
  else .error .notFound

/-- Whether slashes follow the name, and nothing behind them. -/
def namesDirectory (name : String) : Bool :=
  let rest := name.toList.dropWhile (· ≠ '/')
  !rest.isEmpty && rest.all (· = '/')

/-- As `checkName`, for a file that is to be created. A name with slashes at its end is refused
before anything is looked up. -/
def checkNewName (d : Directory) (system : System) (name : String) : Except SystemError Unit := do
  checkPath system name
  if namesDirectory name then .error .isADirectory else d.checkName system name

end Directory
end ChainRelay
