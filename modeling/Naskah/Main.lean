import Naskah.Session.Invocation

/-!
# The command line

Reads arguments, files and lines, and writes what the machine wrote.
-/

namespace Naskah

def flush (m : Machine) : IO Machine := do
  let out ← IO.getStdout
  let err ← IO.getStderr
  out.write m.out.written
  out.flush
  err.write m.diagnostics.written
  err.flush
  return { m with out := .empty m.out.limit, diagnostics := .empty m.diagnostics.limit }

/-- Reads up to and with the next newline; empty at the end of the input. -/
partial def readLine (input : IO.FS.Stream) (line : ByteArray) : IO ByteArray := do
  let bytes ← input.read 1
  if bytes.isEmpty then return line
  let line := line ++ bytes
  if bytes.toList = [10] then return line else readLine input line

partial def interact (input : IO.FS.Stream) (s : Session) : IO Nat := do
  let s := s.say s.prompt
  let s := { s with machine := (← flush s.machine) }
  let bytes ← readLine input .empty
  match s.step ampleFuel (if bytes.isEmpty then none else some (Line.ofBytes bytes)) with
  | some (.goesOn s) => interact input s
  | some (.ends code machine) =>
    let _ ← flush machine
    return code
  | none => return Status.runtimeError.exitCode

def conclude : Option (Nat × Machine) → IO Nat
  | some (code, machine) => do
    let _ ← flush machine
    return code
  | none => return Status.runtimeError.exitCode

def readFile? (path : String) : IO (Option ByteArray) :=
  try
    return some (← IO.FS.readBinFile path)
  catch _ => return none

def carryOut : Invocation → IO Nat
  | .interactive => do
    interact (← IO.getStdin) (.start (.fresh none none))
  | .inline source => conclude (Invocation.runAlone ampleFuel source)
  | .file path => do
    conclude (Invocation.runFile ampleFuel path (← readFile? path))

end Naskah

def main (args : List String) : IO UInt32 := do
  match Naskah.Invocation.ofArguments? args with
  | some invocation => return (← Naskah.carryOut invocation).toUInt32
  | none =>
    (← IO.getStderr).putStrLn Naskah.Invocation.usage
    return Naskah.Invocation.usageExitCode.toUInt32
