import CanonicalXml.Utf8
import CanonicalXml.Markup.Prolog
import CanonicalXml.Reading.Draft
/-! # Reading documents

* `Document.read` — the document that a text spells.
* `Document.readBytes` — the same from UTF-8.
-/

namespace CanonicalXml

export Reading (ReadOptions)

namespace Document

/-- The document of a text that has been read completely: nothing is open any more, and
there is a document element. -/
def ofDraft (text : String) (d : Reading.Draft) : Except Fault Document :=
  if d.opened.isEmpty && d.siblings.hasElement then .ok ⟨text, d.siblings.reverse⟩
  else .error .malformed

/-- The document that a text spells. Faults are found in reading order. -/
def read (text : String) (options : ReadOptions := {}) : Except Fault Document :=
  Reading.Draft.readAll Reading.maxNesting false (Markup.ofDocument text.toList)
    (.empty text.toList options) >>= ofDraft text

def readBytes (bytes : List UInt8) (options : ReadOptions := {}) : Except Fault Document := do
  match Utf8.decode bytes with
  | .error fault => throw (.encoding fault)
  | .ok text => read text options

end Document

end CanonicalXml
