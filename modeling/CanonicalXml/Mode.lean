import CanonicalXml.Canonical.Walk
import CanonicalXml.Physical
/-! # Algorithms

* `Mode` — the seven algorithms, with their identifiers and short names.
* `Mode.ofUri?`, `Mode.ofName?` find an algorithm.
* `Mode.run` runs one; `canonicalText` and `canonicalTextOf` are the two ways
  to do so in one step.
-/

namespace CanonicalXml

inductive Family where
  | inclusive
  | inclusive11
  | exclusive
deriving DecidableEq

inductive Mode where
  | canonical (family : Family) (withComments : Bool)
  | physical
deriving DecidableEq

namespace Mode

/-- All algorithms, in the order in which they are registered. -/
def all : List Mode :=
  [canonical .inclusive false, canonical .inclusive true,
   canonical .inclusive11 false, canonical .inclusive11 true,
   canonical .exclusive false, canonical .exclusive true,
   physical]

def uri : Mode → String
  | canonical .inclusive false => "http://www.w3.org/TR/2001/REC-xml-c14n-20010315"
  | canonical .inclusive true => "http://www.w3.org/TR/2001/REC-xml-c14n-20010315#WithComments"
  | canonical .inclusive11 false => "http://www.w3.org/2006/12/xml-c14n11"
  | canonical .inclusive11 true => "http://www.w3.org/2006/12/xml-c14n11#WithComments"
  | canonical .exclusive false => "http://www.w3.org/2001/10/xml-exc-c14n#"
  | canonical .exclusive true => "http://www.w3.org/2001/10/xml-exc-c14n#WithComments"
  | physical => "http://santuario.apache.org/c14n/physical"

/-- The name of an algorithm on the command line. -/
def shortName : Mode → String
  | canonical .inclusive false => "c14n"
  | canonical .inclusive true => "c14n-comments"
  | canonical .inclusive11 false => "c14n11"
  | canonical .inclusive11 true => "c14n11-comments"
  | canonical .exclusive false => "exc-c14n"
  | canonical .exclusive true => "exc-c14n-comments"
  | physical => "physical"

def ofUri? (uri : String) : Option Mode :=
  all.find? (·.uri = uri)

def ofName? (name : String) : Option Mode :=
  (all.find? (·.shortName = name)).or (ofUri? name)

def withComments : Mode → Bool
  | canonical _ withComments => withComments
  | physical => true

def method (family : Family) (withComments : Bool) : Method :=
  match family with
  | .inclusive => ⟨withComments, .inclusive, .everything⟩
  | .inclusive11 => ⟨withComments, .inclusive, .revised⟩
  | .exclusive => ⟨withComments, .exclusive, .nothing⟩

/-- Writes what an algorithm makes of an input. -/
def run (mode : Mode) (input : Input) (params : Params) : Transcript String Unit :=
  match mode with
  | canonical family withComments =>
    canonicalize (method family withComments) input params >>= fun _ => pure ()
  | physical => CanonicalXml.physical input params >>= fun _ => pure ()

end Mode

/-- The whole document, or the nodes of the set if there is one. -/
def Input.ofParts (d : Document) : Option NodeSet → Input
  | some s => .nodeSet d s
  | none => .document d

/-- What an algorithm makes of a document, or of the nodes of a set. -/
def canonicalTextOf (d : Document) (mode : Mode) (nodes : Option NodeSet)
    (inclusivePrefixes : List String) : Except Fault String :=
  (mode.run (.ofParts d nodes) { inclusivePrefixes }).result

/-- What an algorithm makes of the document that a text spells. -/
def canonicalText (text : String) (mode : Mode) (nodes : Option NodeSet)
    (inclusivePrefixes : List String) : Except Fault String := do
  canonicalTextOf (← Document.read text) mode nodes inclusivePrefixes

end CanonicalXml
