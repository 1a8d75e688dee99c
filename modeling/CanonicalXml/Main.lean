import CanonicalXml.CommandLine.Job
/-! # The program

The outer layer: files and standard streams. Everything it writes and every
fault it reports is decided by `CommandLine.Job`.
-/

namespace CanonicalXml.CommandLine

def refusalOf : IO.Error → PathRefusal
  | .noFileOrDirectory _ _ _ => .missing
  | .noSuchThing _ _ _ => .missing
  | .inappropriateType _ _ details =>
    if details.toLower = "not a directory" then .notDirectory else .isDirectory
  | .permissionDenied _ _ _ => .notPermitted
  | .invalidArgument file code details =>
    if details.endsWith "name too long" then .nameTooLong
    else .other (toString (IO.Error.invalidArgument file code details))
  | error => .other (toString error)

def withFile {α : Type} (path : String) (act : IO α) : IO (Except Fault α) := do
  try
    return .ok (← act)
  catch error =>
    return .error (.io (.file path (refusalOf error)))

def reportFault (fault : Fault) : IO UInt32 := do
  IO.eprintln s!"Error: {fault.message}"
  return 1

def deliver (out : IO.FS.Stream) : Transcript String Unit → IO UInt32
  | .done () => do
    out.flush
    return 0
  | .failed fault => do
    out.flush
    reportFault fault
  | .wrote piece rest => do
    out.putStr piece
    deliver out rest

def Job.perform (job : Job) : IO UInt32 := do
  match ← withFile job.file (IO.FS.readBinFile job.file) with
  | .error fault => reportFault fault
  | .ok bytes =>
    match job.select bytes.toList with
    | .error fault => reportFault fault
    | .ok apex =>
      match job.output with
      | none => deliver (← IO.getStdout) (job.transcript apex)
      | some path =>
        match ← withFile path (IO.FS.Handle.mk path .write) with
        | .error fault => reportFault fault
        | .ok handle => deliver (IO.FS.Stream.ofHandle handle) (job.transcript apex)

end CanonicalXml.CommandLine

open CanonicalXml.CommandLine in
def main (args : List String) : IO UInt32 := do
  match Invocation.parse args with
  | .misuse =>
    IO.eprintln "usage: stilla c14n [OPTIONS] <FILE> | info | --version"
    return 2
  | .version =>
    IO.print versionText
    return 0
  | .info =>
    IO.print infoText
    return 0
  | .canonicalize job => job.perform
