import CanonicalXml.Escape
import CanonicalXml.Location
/-! # Written leaves

How text, comments and instructions are written, each as one piece.

* `Leaf.write` — the node by itself.
* `Location.writeSeparated` — with the line breaks that keep it apart from the
  document element, if it stands beside that.
-/

namespace CanonicalXml

def Leaf.write : Leaf → String
  | .text value => escapeText value
  | .comment value => "<!--" ++ escapeData value ++ "-->"
  | .instruction target none => "<?" ++ target ++ "?>"
  | .instruction target (some data) =>
    if data.isEmpty then "<?" ++ target ++ "?>"
    else "<?" ++ target ++ " " ++ escapeData data ++ "?>"

namespace Location

/-- Whether the place lies outside of the document element and after it. -/
def followsRoot (loc : Location) : Bool :=
  loc.isTop && loc.before.contains .element

/-- Whether the place lies outside of the document element and before it. -/
def precedesRoot (loc : Location) : Bool :=
  loc.isTop && loc.after.hasElement

/-- The written form of a leaf, on a line of its own outside of the document element. -/
def writeSeparated (loc : Location) (l : Leaf) : String :=
  (if loc.followsRoot then "\n" else "") ++ l.write ++ (if loc.precedesRoot then "\n" else "")

end Location

end CanonicalXml
