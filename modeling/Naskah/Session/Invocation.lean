import Naskah.Session.Prompt

/-!
# Invocations

What the command line asks for: the session, a program given as an argument,
or one in a file. The flag for a file means nothing without an argument.
-/

namespace Naskah

inductive Invocation where
  | interactive
  | inline (source : String)
  | file (path : String)
  deriving DecidableEq

structure Arguments where
  fileFlag : Bool
  contents : Option String

namespace Arguments

def none : Arguments := ⟨false, .none⟩

def withContents (a : Arguments) (contents : String) : Option Arguments :=
  if a.contents.isSome then .none else some { a with contents := some contents }

/-- Reads arguments; `--` makes those behind it plain. Fails on one that has
no meaning. -/
def read? (a : Arguments) (plain : Bool) : List String → Option Arguments
  | [] => some a
  | arg :: args =>
    if plain then (a.withContents arg).bind fun a => a.read? true args
    else if arg = "--" then a.read? true args
    else if arg = "-f" || arg = "--file" then
      if a.fileFlag then .none else { a with fileFlag := true }.read? false args
    else if arg.startsWith "-" && arg ≠ "-" then .none
    else (a.withContents arg).bind fun a => a.read? false args

end Arguments

namespace Invocation

def ofArguments? (args : List String) : Option Invocation :=
  (Arguments.none.read? false args).map fun a =>
    match a.contents with
    | none => .interactive
    | some contents => if a.fileFlag then .file contents else .inline contents

def usage : String := "Usage: naskah [--file] [--] [CONTENTS]"

def usageExitCode : Nat := 2

def unreadableExitCode : Nat := 66

def unreadable (path : String) : String :=
  "Failed to read the input file '" ++ path ++ "'. Perhaps this file does not exist?"

def runAlone (fuel : Nat) (source : String) : Option (Nat × Machine) :=
  ((Machine.fresh none none).run fuel source).map fun (status, machine) =>
    (status.exitCode, machine)

/-- Runs the contents of a file, if they could be read as text. -/
def runFile (fuel : Nat) (path : String) (contents : Option ByteArray) : Option (Nat × Machine) :=
  match contents.bind String.fromUTF8? with
  | some source => runAlone fuel source
  | none =>
    let m := Machine.fresh none none
    some (unreadableExitCode,
      { m with diagnostics := (m.diagnostics.writeLine (unreadable path)).1 })

end Invocation

end Naskah
