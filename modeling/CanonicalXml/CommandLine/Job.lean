import CanonicalXml.Canonicalizer
import CanonicalXml.CommandLine.Invocation
import CanonicalXml.Selection
/-! # What the program does

* `Job.select`, `Job.transcript` — the two halves of a canonicalization: before
  the output is opened, and after.
* `infoText`, `versionText` — what the other commands print.
-/

namespace CanonicalXml.CommandLine

def versionText : String := "stilla 0.1.0\n"

def padded (width : Nat) (name : String) : String :=
  name ++ String.ofList (List.replicate (width - name.length) ' ')

def infoText : String :=
  "Stilla: Pure Rust XML Canonicalization\n\nSupported canonicalization algorithms:\n" ++
    String.join (Registry.defaults.uris.map fun uri =>
      "  " ++ padded 18 (((Mode.ofUri? uri).map Mode.shortName).getD "") ++ " " ++ uri ++ "\n")

namespace Job

def limits? (job : Job) : Option Limits :=
  if job.secure then some {} else none

def select (job : Job) (bytes : List UInt8) : Except Fault Place := do
  let d ← Document.readBytes bytes ((job.limits?.map Limits.readOptions).getD {})
  match job.reference with
  | none => return .document d.content
  | some reference => d.select (d.ids job.idNames) reference

def transcript (job : Job) (apex : Place) : Transcript String Unit := do
  let uri := ((Mode.ofName? job.algorithm).map Mode.uri).getD job.algorithm
  let mode ← .ofExcept (Registry.defaults.lookup uri)
  mode.run (.subtree apex) {
    inclusivePrefixes := splitPrefixList job.inclusivePrefixes
    propagateDefault := job.propagateDefault
    limits := job.limits? }

end Job

end CanonicalXml.CommandLine
