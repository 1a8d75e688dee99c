/-! # Character classes of XML

The classes of XML 1.0, fifth edition, that reading depends on. Each is a
Boolean test on one character.

* `isSpace` — the four white space characters.
* `isXml` — characters that may stand in a document at all.
* `isNameStart`, `isName` — characters that may begin, or continue, a name.
-/

namespace CanonicalXml.Chars

/-- Space, tab, line feed or carriage return. -/
def isSpace (c : Char) : Bool :=
  c = ' ' || c = '\t' || c = '\n' || c = '\r'

/-- A character that XML admits: of those below the space only the white space
characters, and neither of U+FFFE and U+FFFF. -/
def isXml (c : Char) : Bool :=
  if c.val < 0x20 then c = '\t' || c = '\n' || c = '\r'
  else c.val ≠ 0xFFFE && c.val ≠ 0xFFFF

def inRanges (ranges : List (UInt32 × UInt32)) (c : Char) : Bool :=
  ranges.any fun (low, high) => low ≤ c.val && c.val ≤ high

/-- The ranges of NameStartChar, the colon included. -/
def nameStartRanges : List (UInt32 × UInt32) :=
  [(0x61, 0x7A), (0x41, 0x5A), (0x3A, 0x3A), (0x5F, 0x5F),
   (0xC0, 0xD6), (0xD8, 0xF6), (0xF8, 0x2FF), (0x370, 0x37D), (0x37F, 0x1FFF),
   (0x200C, 0x200D), (0x2070, 0x218F), (0x2C00, 0x2FEF), (0x3001, 0xD7FF),
   (0xF900, 0xFDCF), (0xFDF0, 0xFFFD), (0x10000, 0xEFFFF)]

/-- What NameChar adds to NameStartChar. -/
def nameExtraRanges : List (UInt32 × UInt32) :=
  [(0x30, 0x39), (0x2D, 0x2E), (0xB7, 0xB7), (0x300, 0x36F), (0x203F, 0x2040)]

def isNameStart (c : Char) : Bool :=
  inRanges nameStartRanges c

def isName (c : Char) : Bool :=
  isNameStart c || inRanges nameExtraRanges c

end CanonicalXml.Chars
