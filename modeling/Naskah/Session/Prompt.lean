import Naskah.Session.Status

/-!
# The interactive session

Lines are gathered into an entry until it has no open brace, and the entry is
run on the machine of the session. Each line read answers a prompt. At the end
of the input an entry that is still open is run as it is, and decides the
exit code.
-/

namespace Naskah

structure Session where
  machine : Machine
  /-- The lines of the open entry; empty if none is open. -/
  entry : String

inductive Line where
  | text (line : String)
  /-- A line whose bytes are no text. -/
  | garbled
  deriving DecidableEq

inductive Progress where
  | goesOn (session : Session)
  | ends (exitCode : Nat) (machine : Machine)

/-- Reads a line of bytes: without its newline and, only before one, a
carriage return. -/
def Line.ofBytes (bytes : ByteArray) : Line :=
  match String.fromUTF8? bytes with
  | none => .garbled
  | some line =>
    match line.toList.reverse with
    | '\n' :: '\r' :: cs => .text (String.ofList cs.reverse)
    | '\n' :: cs => .text (String.ofList cs.reverse)
    | _ => .text line

def byteLines : List UInt8 → List (List UInt8)
  | [] => []
  | b :: bs =>
    if b = 10 then [b] :: byteLines bs
    else
      match byteLines bs with
      | [] => [[b]]
      | line :: lines => (b :: line) :: lines

def Line.ofInput (input : ByteArray) : List Line :=
  (byteLines input.toList).map fun bytes => Line.ofBytes ⟨bytes.toArray⟩

namespace Session

def start (machine : Machine) : Session :=
  ⟨machine, ""⟩

def say (s : Session) (text : String) : Session :=
  { s with machine := { s.machine with out := (s.machine.out.write text).1 } }

def prompt (s : Session) : String :=
  if s.entry.isEmpty then "> " else "... "

/-- Adds a line to the entry, and runs it unless it has an open brace. -/
def feed (fuel : Nat) (line : String) (s : Session) : Option Session :=
  let entry := s.entry ++ line ++ "\n"
  if needsMoreInput entry then some { s with entry }
  else (s.machine.run fuel entry).map fun (_, machine) => ⟨machine, ""⟩

def finish (fuel : Nat) (s : Session) : Option (Nat × Machine) :=
  let s := s.say "\n"
  if s.entry.isEmpty then some (Status.completed.exitCode, s.machine)
  else (s.machine.run fuel s.entry).map fun (status, machine) => (status.exitCode, machine)

def abort (s : Session) : Nat × Machine :=
  (Status.runtimeError.exitCode,
    { s.machine with
      diagnostics :=
        (s.machine.diagnostics.writeLine
          "Failed to read input: stream did not contain valid UTF-8").1 })

def step (fuel : Nat) (s : Session) : Option Line → Option Progress
  | some (.text line) => (s.feed fuel line).map .goesOn
  | some .garbled => let (code, machine) := s.abort; some (.ends code machine)
  | none => (s.finish fuel).map fun (code, machine) => .ends code machine

def overLines (fuel : Nat) (s : Session) : List Line → Option (Nat × Machine)
  | [] => (s.say s.prompt).finish fuel
  | line :: lines =>
    match (s.say s.prompt).step fuel (some line) with
    | some (.goesOn s) => s.overLines fuel lines
    | some (.ends code machine) => some (code, machine)
    | none => none

end Session

end Naskah
