import Retention.CommandLine.Run

namespace Retention.CommandLine

/-- Why a path cannot be opened. -/
inductive PathFault where
  | missing
  | notADirectory
  | isADirectory
  | nameTooLong
  deriving DecidableEq

namespace PathFault

def code : PathFault → Nat
  | missing => 2
  | notADirectory => 20
  | isADirectory => 21
  | nameTooLong => 36

def ofCode? (code : Nat) : Option PathFault :=
  [missing, notADirectory, isADirectory, nameTooLong].find? (·.code == code)

def reason : PathFault → String
  | missing => "No such file or directory"
  | notADirectory => "Not a directory"
  | isADirectory => "Is a directory"
  | nameTooLong => "File name too long"

def message (fault : PathFault) : String := fault.reason ++ s!" (os error {fault.code})"

end PathFault

/-- Where a path leads: to a directory, or to a name in the working directory or outside of it. -/
inductive Place where
  | directory
  | entry (outside : Bool) (name : String)
  deriving DecidableEq

namespace Place

/-- A path of this many bytes is not followed. -/
def pathLimit : Nat := 4096

/-- The most bytes a name can have. -/
def nameLimit : Nat := 255

def isTooLong (name : String) : Bool := nameLimit < name.utf8ByteSize

/-- The names of a path; slashes may be repeated. -/
def names (path : String) : List String := (path.splitOn "/").filter (· != "")

/-- A slash at the end asks for a directory. -/
def endsInSlash (path : String) : Bool := path.toList.getLast? == some '/'

end Place

structure Directory where
  files : List (String × Wire.Bytes)

namespace Directory

/-- The content of a file, if the working directory holds it. -/
def content? (d : Directory) (outside : Bool) (name : String) : Option Wire.Bytes :=
  if outside then none else d.files.lookup name

/-- Follows names from the working directory or from outside of it. -/
def follow (d : Directory) (outside : Bool) : List String → Except PathFault Place
  | [] => .ok .directory
  | name :: rest =>
    if name = "." then d.follow outside rest
    else if name = ".." then d.follow true rest
    else if rest.isEmpty then .ok (.entry outside name)
    else if Place.isTooLong name then .error .nameTooLong
    else if (d.content? outside name).isSome then .error .notADirectory
    else .error .missing

def resolve (d : Directory) (path : String) : Except PathFault Place :=
  if path = "" then .error .missing
  else if Place.pathLimit ≤ path.utf8ByteSize then .error .nameTooLong
  else d.follow (path.toList.head? == some '/') (Place.names path)

def read (d : Directory) (path : String) : Except PathFault Wire.Bytes := do
  match ← d.resolve path with
  | .directory => throw .isADirectory
  | .entry outside name =>
    if Place.isTooLong name then throw .nameTooLong
    else
      match d.content? outside name with
      | none => throw .missing
      | some bytes => if Place.endsInSlash path then throw .notADirectory else pure bytes

/-- A new file takes the place of one of its name. -/
def create (d : Directory) (path : String) : Except PathFault Unit := do
  match ← d.resolve path with
  | .directory => throw .isADirectory
  | .entry _ name =>
    if Place.endsInSlash path then throw .isADirectory
    else if Place.isTooLong name then throw .nameTooLong
    else pure ()

def storage (d : Directory) : Storage :=
  { read := fun path => (d.read path).mapError PathFault.message
    create := fun path => (d.create path).mapError PathFault.message }

/-- What a finished run has written to the file at a path. -/
def artifactAt (d : Directory) (exit : Exit) (path : String) : Option Artifact :=
  match exit.written with
  | none => none
  | some (target, artifact) =>
    match d.resolve target, d.resolve path with
    | .ok written, .ok asked =>
      if written = asked ∧ Place.endsInSlash path = false then some artifact else none
    | _, _ => none

end Directory

end Retention.CommandLine
