import Naskah.Token.Basic

/-!
# Pieces of a text

A text falls into pieces from left to right, each the longest that its place
allows: a run of blanks, a newline, a comment, a word, a numeral, a mark, a
quoted text, a quoted text that its line leaves open, and where nothing else
fits a single stray character. `Piece.first` takes the piece at the front,
`Piece.split` all of them, and their texts in order are the whole text.
-/

namespace Naskah

inductive Shape where
  | blank | newline | comment | word | numeral
  | mark (sign : Mark)
  | quoted | unclosed | stray
  deriving DecidableEq

structure Piece where
  shape : Shape
  text : List Char
  deriving DecidableEq

/-! ## Classes of characters -/

def isBlank (c : Char) : Bool :=
  c = ' ' || c = '\t' || c = '\r' || c = '\x0c'

def isWordStart (c : Char) : Bool :=
  ('a' ≤ c && c ≤ 'z') || ('A' ≤ c && c ≤ 'Z') || c = '_'

def isDigit (c : Char) : Bool :=
  '0' ≤ c && c ≤ '9'

def isWordPart (c : Char) : Bool :=
  isWordStart c || isDigit c

def isQuotable (c : Char) : Bool :=
  c ≠ '"' && c ≠ '\n'

/-! ## The piece at the front -/

def Mark.ofChar? : Char → Option Mark
  | '(' => some .leftParen
  | ')' => some .rightParen
  | '\x7b' => some .leftBrace
  | '\x7d' => some .rightBrace
  | ',' => some .comma
  | '.' => some .dot
  | ';' => some .semicolon
  | '+' => some .plus
  | '-' => some .minus
  | '*' => some .star
  | '/' => some .slash
  | '=' => some .equals
  | '!' => some .bang
  | '>' => some .greater
  | '<' => some .less
  | _ => none

def Mark.withEquals? : Mark → Option Mark
  | .equals => some .equalEqual
  | .bang => some .bangEqual
  | .greater => some .greaterEqual
  | .less => some .lessEqual
  | _ => none

namespace Piece

def fraction : List Char → List Char
  | '.' :: c :: cs => if isDigit c then '.' :: c :: cs.takeWhile isDigit else []
  | _ => []

def numeral (c : Char) (cs : List Char) : Piece :=
  let whole := cs.takeWhile isDigit
  ⟨.numeral, c :: whole ++ fraction (cs.drop whole.length)⟩

def quoted (c : Char) (cs : List Char) : Piece :=
  let body := cs.takeWhile isQuotable
  match cs.drop body.length with
  | '"' :: _ => ⟨.quoted, c :: body ++ ['"']⟩
  | _ => ⟨.unclosed, c :: body⟩

def mark (c : Char) (cs : List Char) : Piece :=
  match Mark.ofChar? c with
  | none => ⟨.stray, [c]⟩
  | some m =>
    match m.withEquals?, cs with
    | some longer, '=' :: _ => ⟨.mark longer, [c, '=']⟩
    | _, _ => ⟨.mark m, [c]⟩

def first (c : Char) (cs : List Char) : Piece :=
  if isBlank c then ⟨.blank, c :: cs.takeWhile isBlank⟩
  else if c = '\n' then ⟨.newline, [c]⟩
  else if c = '/' && cs.head? = some '/' then ⟨.comment, c :: cs.takeWhile (· ≠ '\n')⟩
  else if isWordStart c then ⟨.word, c :: cs.takeWhile isWordPart⟩
  else if isDigit c then numeral c cs
  else if c = '"' then quoted c cs
  else mark c cs

/-! ## All pieces -/

/-- The pieces of a text of which the first `taken` characters belong to a
piece already given. -/
def splitFrom : Nat → List Char → List Piece
  | _, [] => []
  | 0, c :: cs =>
    let piece := first c cs
    piece :: splitFrom (piece.text.length - 1) cs
  | taken + 1, _ :: cs => splitFrom taken cs

def split (text : List Char) : List Piece :=
  splitFrom 0 text

end Piece

end Naskah
