import Retention.CommandLine.Directory

namespace Retention.CommandLine

/-- What is said about a file that cannot be used. -/
def faultText (e : IO.Error) : String :=
  let known := match e with
    | .noFileOrDirectory _ code _ => PathFault.ofCode? code.toNat
    | .inappropriateType _ code _ => PathFault.ofCode? code.toNat
    | .invalidArgument _ code _ => PathFault.ofCode? code.toNat
    | _ => none
  known.elim (toString e) PathFault.message

def readStream (path : String) : IO (String × Except String Wire.Bytes) := do
  try
    let bytes ← IO.FS.readBinFile path
    pure (path, .ok bytes.data.toList)
  catch e => pure (path, .error (faultText e))

def writeArtifact (path : String) : Artifact → IO Unit
  | .text content => IO.FS.writeFile path content
  | .table content => IO.FS.writeFile path content.csv

/-- Runs the program on files. -/
def runFiles (args : List String) : IO UInt32 := do
  let paths := (parse args).toOption.elim [] Arguments.paths
  let streams ← paths.mapM readStream
  let storage : Storage :=
    { read := fun path => (streams.lookup path).getD (.error "not read"), create := fun _ => .ok () }
  let exit := execute storage args
  IO.print exit.shown
  if let some complaint := exit.complaint then IO.eprint complaint
  match exit.written with
  | none => pure (UInt32.ofNat exit.code)
  | some (path, artifact) =>
    try
      writeArtifact path artifact
      pure (UInt32.ofNat exit.code)
    catch e =>
      IO.eprintln ("Error: " ++ faultText e)
      pure 1

end Retention.CommandLine

def main (args : List String) : IO UInt32 := Retention.CommandLine.runFiles args
