import Naskah.Token.Piece
import Naskah.Token.Error
import Naskah.Decimal.Basic

/-!
# The tokens of a source

Blanks, newlines and comments only separate. Every other piece is a token or,
if it is no word of the language, an error; both carry the line on which the
piece stands. An ending on the last line closes the tokens.
-/

namespace Naskah

/-- The number that a numeral stands for: the double nearest to its decimal
value, infinity beyond the largest. -/
def numeralValue (text : List Char) : Float :=
  let whole := text.takeWhile isDigit
  let places := (text.drop whole.length).drop 1
  Float.ofScientific (Decimal.ofDigits (whole ++ places)) true places.length

namespace Piece

def kind? (p : Piece) : Option Kind :=
  match p.shape with
  | .word =>
    match Keyword.ofSpelling? (String.ofList p.text) with
    | some word => some (.keyword word)
    | none => some .name
  | .numeral => some (.number (numeralValue p.text))
  | .mark sign => some (.mark sign)
  | .quoted => some (.text (String.ofList p.text.tail.dropLast))
  | _ => none

def token? (line : Nat) (p : Piece) : Option Token :=
  p.kind?.map fun kind => ⟨kind, String.ofList p.text, line⟩

def error? (line : Nat) (p : Piece) : Option SyntaxError :=
  match p.shape, p.text with
  | .unclosed, _ => some (.unterminatedString line)
  | .stray, c :: _ => some (.unexpectedCharacter c line)
  | _, _ => none

def lines (p : Piece) : Nat :=
  if p.shape = .newline then 1 else 0

def linesOf : List Piece → Nat
  | [] => 0
  | p :: ps => p.lines + linesOf ps

def numbered (line : Nat) : List Piece → List (Nat × Piece)
  | [] => []
  | p :: ps => (line, p) :: numbered (line + p.lines) ps

end Piece

structure Scan where
  tokens : List Token
  errors : List SyntaxError
  deriving BEq

def Scan.ofPieces (line : Nat) (pieces : List Piece) : Scan :=
  let placed := Piece.numbered line pieces
  { tokens := placed.filterMap (fun (line, p) => p.token? line) ++
      [⟨.ending, "", line + Piece.linesOf pieces⟩]
    errors := placed.filterMap fun (line, p) => p.error? line }

def tokenize (source : String) : Scan :=
  Scan.ofPieces 1 (Piece.split source.toList)

end Naskah
