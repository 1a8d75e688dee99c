import CanonicalXml.Registry
import CanonicalXml.Sink
/-! # Canonicalizers

One algorithm together with the settings that hold from call to call.

* `Canonicalizer.new` finds the algorithm in a registry.
* `Canonicalizer.document`, `.tree`, `.subtree`, `.nodeSet` canonicalize. The
  result is returned, or, once there is an output, delivered to it.
-/

namespace CanonicalXml

structure Canonicalizer where
  mode : Mode
  sink : Option Sink := none
  secure : Bool := false
  limits : Limits := {}

namespace Canonicalizer

def new (registry : Registry) (uri : String) : Except Fault Canonicalizer :=
  (registry.lookup uri).map fun mode => { mode }

def uri (c : Canonicalizer) : String :=
  c.mode.uri

def setOutput (c : Canonicalizer) (sink : Sink) : Canonicalizer :=
  { c with sink := some sink }

def setSecure (c : Canonicalizer) (secure : Bool) : Canonicalizer :=
  { c with secure }

def setLimits (c : Canonicalizer) (limits : Limits) : Canonicalizer :=
  { c with limits, secure := true }

def limits? (c : Canonicalizer) : Option Limits :=
  if c.secure then some c.limits else none

/-- Canonicalizes an input. An output is flushed after everything has been delivered. -/
def run (c : Canonicalizer) (input : Input) (inclusivePrefixes : List String)
    (propagateDefault : Bool) : Canonicalizer × Except Fault String :=
  let transcript := c.mode.run input { inclusivePrefixes, propagateDefault, limits := c.limits? }
  match c.sink with
  | none => (c, transcript.result)
  | some sink =>
    match sink.deliver transcript with
    | (sink, .error fault) => (c.setOutput sink, .error fault)
    | (sink, .ok ()) =>
      let (sink, outcome) := sink.flush
      (c.setOutput sink, outcome.map fun () => "")

def tree (c : Canonicalizer) (d : Document) : Canonicalizer × Except Fault String :=
  c.run (.document d) [] false

/-- Reads a document and canonicalizes it. Secure validation applies to reading, too. -/
def document (c : Canonicalizer) (bytes : List UInt8) : Canonicalizer × Except Fault String :=
  match Document.readBytes bytes ((c.limits?.map Limits.readOptions).getD {}) with
  | .ok d => c.tree d
  | .error fault => (c, .error fault)

def subtree (c : Canonicalizer) (apex : Place) (inclusivePrefixes : List String)
    (propagateDefault : Bool) : Canonicalizer × Except Fault String :=
  c.run (.subtree apex) inclusivePrefixes propagateDefault

def nodeSet (c : Canonicalizer) (d : Document) (s : NodeSet) (inclusivePrefixes : List String) :
    Canonicalizer × Except Fault String :=
  c.run (.nodeSet d s) inclusivePrefixes false

end Canonicalizer

end CanonicalXml
