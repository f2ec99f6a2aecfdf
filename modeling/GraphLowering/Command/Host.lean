import GraphLowering.Lower.Timed

/-! # What commands need from outside

A command reads files, creates files and measures time. It is written for any monad that can do so:
the program runs it on the machine, and a directory of files in memory is enough to reason about it. -/

namespace GraphLowering.Command

/-- Why a file cannot be used. -/
inductive FileFault where
  | missing
  | isDirectory
  /-- Something on the way to the file is no directory. -/
  | notDirectory
  | other (reason : String)
deriving DecidableEq, Repr

def FileFault.reason : FileFault → String
  | missing => "no such file or directory"
  | isDirectory => "is a directory"
  | notDirectory => "not a directory"
  | other reason => reason

/-- What is said about a file that cannot be opened. -/
def FileFault.opening (path : String) (f : FileFault) : String := "open " ++ path ++ ": " ++ f.reason

/-- What is said about a file that cannot be read. A directory can be opened, but not read. -/
def FileFault.reading (path : String) (f : FileFault) : String :=
  match f with
  | isDirectory => "read " ++ path ++ ": " ++ f.reason
  | _ => f.opening path

structure Host (m : Type → Type) where
  read : String → m (Except FileFault (List UInt8))
  /-- Makes an empty file. -/
  create : String → m (Except FileFault Unit)
  clock : Lower.Clock m

/-! ## Files in memory -/

structure Directory where
  files : List (String × List UInt8) := []

namespace Directory

/-- The parts of a path without those that lead nowhere. -/
def parts (path : String) : List String :=
  (path.splitOn "/").filter fun s => s ≠ "" && s ≠ "."

/-- A path that is not below the directory. -/
def isOutside (path : String) : Bool := path.isEmpty || path.startsWith "/"

/-- Whether the path can only be that of a directory. -/
def endsInSlash (path : String) : Bool := path.endsWith "/"

def contents? (d : Directory) (ps : List String) : Option (List UInt8) :=
  (d.files.find? fun (path, _) => parts path = ps).map (·.2)

def hasBelow (d : Directory) (ps : List String) : Bool :=
  ps.isEmpty || d.files.any fun (path, _) => ps.isPrefixOf (parts path) && parts path ≠ ps

def isBlocked (d : Directory) (ps : List String) : Bool :=
  d.files.any fun (path, _) => (parts path).isPrefixOf ps && parts path ≠ ps

def read (d : Directory) (path : String) : Except FileFault (List UInt8) :=
  let ps := parts path
  if isOutside path then .error .missing
  else if d.hasBelow ps then .error .isDirectory
  else if d.isBlocked ps then .error .notDirectory
  else match d.contents? ps with
    | none => .error .missing
    | some bytes => if endsInSlash path then .error .notDirectory else .ok bytes

def create (d : Directory) (path : String) : Except FileFault Unit :=
  let ps := parts path
  if isOutside path then .error .missing
  else if d.hasBelow ps then .error .isDirectory
  else if d.isBlocked ps then .error .notDirectory
  else if !d.hasBelow ps.dropLast then .error .missing
  else if endsInSlash path then .error .isDirectory
  else .ok ()

def write (d : Directory) (path : String) (bytes : List UInt8) : Directory :=
  { files := (path, bytes) :: d.files }

def host (d : Directory) : Host Id where
  read := d.read
  create := d.create
  clock := Lower.Clock.stopped

end Directory

end GraphLowering.Command
