import CanonicalXml.QName
/-! # Lexemes

What a document is made of before anything is known of its tree: tags, runs of
text, comments, instructions and declarations, in the order of the source.

Lexemes keep raw text: references are not replaced, line ends are as they
stand. A malformed piece of markup is a lexeme of its own, the last one, so that
whatever comes before it is still taken in order.

Offsets count characters from the beginning of the document's text.
-/

namespace CanonicalXml.Markup

/-- An attribute of a start tag, `offset` being that of its first character. -/
structure TagAttribute where
  name : QName
  value : List Char
  offset : Nat
deriving DecidableEq

/-- How a start tag ends. -/
inductive TagEnding where
  /-- With `>`: content follows. -/
  | opens
  /-- With `/>`: the element is empty. -/
  | empties
  /-- The text ends before the tag does. -/
  | unfinished
deriving DecidableEq

/-- A start tag: from the offset `start` of its angle bracket to `stop`, which is
that of the first character after it. The tag is what `text` begins with; all the rest of
the text being read follows. -/
structure Tag where
  name : QName
  text : List Char
  start : Nat
  attributes : List TagAttribute
  ending : TagEnding
  stop : Nat
deriving DecidableEq

/-- A piece of a document's text. -/
inductive Lexeme where
  | startTag (tag : Tag)
  /-- An end tag; `stop` is the offset after it. -/
  | endTag (name : QName) (stop : Nat)
  | text (raw : List Char)
  | cdata (raw : List Char)
  | comment (text : List Char)
  | instruction (target data : List Char)
  /-- The beginning of a document type declaration. -/
  | doctype
  /-- The declaration of an internal entity; `stop` is the offset after its value. -/
  | entity (name value : List Char) (stop : Nat)
  /-- Markup that cannot be read. -/
  | malformed
deriving DecidableEq

/-- The number of elements open after the lexeme, when `level` were open before it. -/
def Lexeme.levelAfter (level : Nat) : Lexeme → Nat
  | .startTag tag => if tag.ending = .opens then level + 1 else level
  | .endTag _ _ => level - 1
  | _ => level

end CanonicalXml.Markup
