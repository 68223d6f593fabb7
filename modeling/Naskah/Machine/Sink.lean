/-!
# Sinks

A sink keeps the bytes written to it. One with a limit takes bytes up to the
limit and then closes: of a text that does not fit it keeps what does, and
the writer learns that the text was not taken whole.
-/

namespace Naskah

structure Sink where
  written : ByteArray
  limit : Option Nat

namespace Sink

def empty (limit : Option Nat) : Sink :=
  ⟨.empty, limit⟩

def room (s : Sink) (size : Nat) : Nat :=
  match s.limit with
  | none => size
  | some limit => min size (limit - s.written.size)

def write (s : Sink) (text : String) : Sink × Bool :=
  let bytes := text.toUTF8
  let taken := s.room bytes.size
  (⟨s.written ++ bytes.extract 0 taken, s.limit⟩, taken = bytes.size)

def writeLine (s : Sink) (text : String) : Sink × Bool :=
  s.write (text ++ "\n")

def closedReason : String := "sink closed"

/-- Writes lines up to the first that is not taken whole. -/
def writeLines (s : Sink) : List String → Sink × Bool
  | [] => (s, true)
  | line :: lines =>
    match s.writeLine line with
    | (s, true) => s.writeLines lines
    | (s, false) => (s, false)

end Sink

end Naskah
