import CanonicalXml.CommandLine.Directory
import CanonicalXml.CommandLine.Job
/-! # Runs of the program

The program as a function on the directory that it runs in.

* `Report` — what a run leaves behind: exit code, printed text, fault, files.
* `Job.run` — a canonicalization; `run` — the whole program.
-/

namespace CanonicalXml.CommandLine

/-- What a run of the program leaves behind. -/
structure Report where
  exitCode : Nat
  printed : String := ""
  fault : Option Fault := none
  files : Directory

/-- The report of a run that a fault ended before anything was written. -/
def Report.failed (dir : Directory) (fault : Fault) : Report :=
  { exitCode := 1, fault := some fault, files := dir }

def endOf {α : Type} : Except Fault α → Nat × Option Fault
  | .ok _ => (0, none)
  | .error fault => (1, some fault)

def Job.run (job : Job) (dir : Directory) : Report :=
  match dir.read job.file >>= job.select with
  | .error fault => .failed dir fault
  | .ok apex =>
    let transcript := job.transcript apex
    let (exitCode, fault) := endOf transcript.outcome
    match job.output with
    | none => { exitCode, fault, printed := transcript.text, files := dir }
    | some path =>
      match dir.create path (Utf8.encode transcript.text) with
      | .error fault => .failed dir fault
      | .ok files => { exitCode, fault, files }

def run (args : List String) (dir : Directory) : Report :=
  match Invocation.parse args with
  | .misuse => { exitCode := 2, files := dir }
  | .version => { exitCode := 0, printed := versionText, files := dir }
  | .info => { exitCode := 0, printed := infoText, files := dir }
  | .canonicalize job => job.run dir

end CanonicalXml.CommandLine
