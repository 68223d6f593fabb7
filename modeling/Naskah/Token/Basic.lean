/-!
# Tokens

A token is a word of the language with its spelling and the line it stands
on. Two tokens are the same if kind, spelling and line agree; the payloads of
number tokens are compared as numbers, so a token that holds no number (NaN)
differs from itself.
-/

namespace Naskah

inductive Keyword where
  | misal | jika | lain | fungsi | balikin | kosong | benar | salah | selama | cetak | dan | atau
  deriving DecidableEq

def Keyword.all : List Keyword :=
  [.misal, .jika, .lain, .fungsi, .balikin, .kosong, .benar, .salah, .selama, .cetak, .dan, .atau]

def Keyword.spelling : Keyword → String
  | misal => "misal"
  | jika => "jika"
  | lain => "lain"
  | fungsi => "fungsi"
  | balikin => "balikin"
  | kosong => "kosong"
  | benar => "benar"
  | salah => "salah"
  | selama => "selama"
  | cetak => "cetak"
  | dan => "dan"
  | atau => "atau"

def Keyword.ofSpelling? (word : String) : Option Keyword :=
  Keyword.all.find? (·.spelling = word)

inductive Mark where
  | leftParen | rightParen | leftBrace | rightBrace | comma | dot | semicolon
  | plus | minus | star | slash
  | equals | equalEqual | bang | bangEqual | greater | greaterEqual | less | lessEqual
  deriving DecidableEq

inductive Kind where
  | keyword (word : Keyword)
  | mark (sign : Mark)
  | name
  | number (value : Float)
  | text (value : String)
  | unclosedText
  | comment
  | newline
  | ending
  deriving BEq

structure Token where
  kind : Kind
  lexeme : String
  line : Nat
  deriving BEq

inductive Literal where
  | number (value : Float)
  | text (value : String)
  | truth (value : Bool)
  | nil
  deriving BEq

namespace Token

def isKeyword (t : Token) (k : Keyword) : Bool :=
  match t.kind with
  | .keyword word => word = k
  | _ => false

def isMark (t : Token) (m : Mark) : Bool :=
  match t.kind with
  | .mark sign => sign = m
  | _ => false

def isName (t : Token) : Bool :=
  match t.kind with
  | .name => true
  | _ => false

def isEnding (t : Token) : Bool :=
  match t.kind with
  | .ending => true
  | _ => false

def literal? (t : Token) : Option Literal :=
  match t.kind with
  | .number x => some (.number x)
  | .text s => some (.text s)
  | .keyword .benar => some (.truth true)
  | .keyword .salah => some (.truth false)
  | .keyword .kosong => some .nil
  | _ => none

def shown (t : Token) : String :=
  if t.isEnding then "end" else "'" ++ t.lexeme ++ "'"

/-- The token that stands for the end of a list which has no ending. -/
def noMore : Token := ⟨.ending, "", 0⟩

end Token

end Naskah
