import CanonicalXml.Transcript
import CanonicalXml.Utf8
/-! # Sinks

Outputs that may refuse to take more.

* `Sink` — takes a number of bytes in all; flushing it may fail.
* `Sink.deliver` writes a transcript piece by piece, up to the first failure.
-/

namespace CanonicalXml

/-- An output. -/
structure Sink where
  /-- How many bytes it still takes; any number if nothing is said. -/
  capacity : Option Nat := none
  failsFlush : Bool := false
  received : List UInt8 := []
  flushes : Nat := 0
deriving DecidableEq

namespace Sink

/-- Writes bytes. Those that do not fit are refused, and the output is closed. -/
def accept (sink : Sink) (bytes : List UInt8) : Sink × Except Fault Unit :=
  match sink.capacity with
  | none => ({ sink with received := sink.received ++ bytes }, .ok ())
  | some capacity =>
    let taken := bytes.take capacity
    ({ sink with
        capacity := some (capacity - taken.length)
        received := sink.received ++ taken },
      if bytes.length ≤ capacity then .ok () else .error (.io .closed))

def flush (sink : Sink) : Sink × Except Fault Unit :=
  if sink.failsFlush then (sink, .error (.io .noFlush))
  else ({ sink with flushes := sink.flushes + 1 }, .ok ())

/-- Writes the pieces of a transcript in order. The first piece that is refused ends it. -/
def deliver {α : Type} (sink : Sink) : Transcript String α → Sink × Except Fault α
  | .done a => (sink, .ok a)
  | .failed fault => (sink, .error fault)
  | .wrote piece rest =>
    match sink.accept (Utf8.encode piece) with
    | (sink, .ok ()) => sink.deliver rest
    | (sink, .error fault) => (sink, .error fault)

end Sink

end CanonicalXml
