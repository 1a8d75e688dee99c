import CanonicalXml.Fault
import CanonicalXml.Reading
/-! # Limits of secure validation

* `Limits` — the bounds that hardened callers set. Each one that is exceeded
  fails the whole call; nothing is truncated.
* `Limits.readOptions` — what they mean for reading.
* `checkAttributes`, `checkDepth`, `checkComments` — what they mean for a walk,
  which may also be unlimited.
-/

namespace CanonicalXml

/-- Bounds on documents and their canonical forms. -/
structure Limits where
  /-- Attributes and namespace declarations of one element. -/
  maxAttributes : Nat := 256
  /-- Comments written by one call. -/
  maxComments : Nat := 1024
  /-- Nesting of elements, counted from the document element. -/
  maxDepth : Nat := 512
  /-- Nodes of a document that is read. -/
  maxNodes : Nat := 1000000
  /-- Whether documents that are read may not have a document type declaration. -/
  forbidDoctype : Bool := true
deriving DecidableEq

def Limits.readOptions (limits : Limits) : ReadOptions where
  allowDoctype := !limits.forbidDoctype
  nodeLimit := limits.maxNodes

/-- Fails with `excess` if there is a limit and the count exceeds it. -/
def checkLimit (limit : Option Nat) (count : Nat) (excess : Nat → Excess) : Except Fault Unit :=
  match limit with
  | some limit => if limit < count then .error (.excess (excess limit)) else .ok ()
  | none => .ok ()

/-- Checks the number of attributes and declarations of the element of this name. -/
def checkAttributes (limits : Option Limits) (qname : String) (count : Nat) : Except Fault Unit :=
  checkLimit (limits.map (·.maxAttributes)) count (.attributes qname count)

def checkDepth (limits : Option Limits) (depth : Nat) : Except Fault Unit :=
  checkLimit (limits.map (·.maxDepth)) depth .depth

/-- Checks the number of comments, the one to be written included. -/
def checkComments (limits : Option Limits) (count : Nat) : Except Fault Unit :=
  checkLimit (limits.map (·.maxComments)) count .comments

end CanonicalXml
