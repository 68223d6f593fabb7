import Naskah.Machine.Run
import Naskah.Token.Scan
import Naskah.Tree.Statement

/-!
# Running sources

A source runs on a machine that keeps its global scope for the next. Syntax
errors are written to the diagnostics, pieces that are no token before tokens
out of place, and then nothing is carried out. Without any, the statements are
carried out up to the first fault, which is written to the diagnostics.
-/

namespace Naskah

inductive Status where
  | completed | syntaxError | runtimeError
  deriving DecidableEq

def Status.exitCode : Status → Nat
  | completed => 0
  | syntaxError => 65
  | runtimeError => 70

namespace Machine

/-- Carries out statements in the global scope, and tells whether a fault
stopped them. A diagnostic that is not taken is lost. -/
def interpret (fuel : Nat) (program : List Stmt) (m : Machine) : Option (Bool × Machine) :=
  match Stmt.execsWithin fuel program Store.globalScope m with
  | .done _ m => some (false, m)
  | .failed fault m =>
    some (true, { m with diagnostics := (m.diagnostics.writeLine fault.message).1 })
  | .unfinished => none

/-- Writes syntax errors: each of the first list, taken or not, and of the
second those up to the first that is not taken whole. -/
def reportSyntax (stray wrong : List SyntaxError) (m : Machine) : Machine :=
  let diagnostics := stray.foldl (fun d e => (d.writeLine e.message).1) m.diagnostics
  { m with diagnostics := (diagnostics.writeLines (wrong.map (·.message))).1 }

/-- Runs a source; `none` if it does not end within the fuel. -/
def run (fuel : Nat) (source : String) (m : Machine) : Option (Status × Machine) :=
  let scan := tokenize source
  let program := parse scan.tokens
  if scan.errors.isEmpty && program.errors.isEmpty then
    match m.interpret fuel program.statements with
    | some (false, m) => some (.completed, m)
    | some (true, m) => some (.runtimeError, m)
    | none => none
  else some (.syntaxError, m.reportSyntax scan.errors program.errors)

end Machine

def ampleFuel : Nat := Nat.pow 2 62

/-! ## Open entries -/

def braceBalance (tokens : List Token) : Int :=
  (tokens.countP (·.isMark .leftBrace) : Int) - tokens.countP (·.isMark .rightBrace)

def needsMoreInput (source : String) : Bool :=
  0 < braceBalance (tokenize source).tokens

end Naskah
