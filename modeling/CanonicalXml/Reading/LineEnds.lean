/-! # Line ends in character data

A carriage return, alone or before a line feed, is read as one line feed.
Characters arrive one at a time, some of them from references, which are taken
as they are; the buffer therefore holds a carriage return until the next
character shows what becomes of it.

* `LineBuffer.push` adds a character of the text, `LineBuffer.keep` one that is
  taken as it is.
* `convertLineEnds` reads a whole section.
-/

namespace CanonicalXml.Reading

/-- Characters read so far, the last one first. -/
abbrev LineBuffer := List Char

namespace LineBuffer

def keep (buffer : LineBuffer) (c : Char) : LineBuffer :=
  c :: buffer

/-- Adds a character of the text, which turns a carriage return before it into a line
feed. `last` says that no character follows. -/
def push (buffer : LineBuffer) (last : Bool) (c : Char) : LineBuffer :=
  match buffer with
  | '\r' :: rest =>
    -- Here it is known what follows the carriage return.
    if last && c = '\r' then '\n' :: '\n' :: rest
    else if c = '\n' then '\n' :: rest
    else c :: '\n' :: rest
  | _ => if last && c = '\r' then '\n' :: buffer else c :: buffer

def text (buffer : LineBuffer) : String :=
  String.ofList buffer.reverse

def pushAll (buffer : LineBuffer) : List Char → LineBuffer
  | [] => buffer
  | c :: cs => pushAll (buffer.push cs.isEmpty c) cs

end LineBuffer

def convertLineEnds (cs : List Char) : String :=
  (LineBuffer.pushAll [] cs).text

end CanonicalXml.Reading
