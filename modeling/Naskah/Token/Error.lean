import Naskah.Token.Basic

/-!
# Syntax errors

An error is its cause: a character or a quote that begins no token, or a token
found where the grammar expects something else. `SyntaxError.message` is the
only place that words it.
-/

namespace Naskah

inductive Expectation where
  | expression
  | groupEnd
  | argumentsEnd
  | functionName
  | parametersStart
  | parameterName
  | parametersEnd
  | bodyStart
  | variableName
  | initializer
  | declarationEnd
  | assignmentEnd
  | printEnd
  | branchStart
  | otherwiseStart
  | loopStart
  | returnEnd
  | expressionEnd
  | blockEnd
  /-- No closing brace, since none is open. -/
  | openBlock
  deriving DecidableEq

def Expectation.text : Expectation → String
  | expression => "Expect expression."
  | groupEnd => "Expect ')' after expression."
  | argumentsEnd => "Expect ')' after arguments."
  | functionName => "Expect function name."
  | parametersStart => "Expect '(' after function name."
  | parameterName => "Expect parameter name."
  | parametersEnd => "Expect ')' after parameters."
  | bodyStart => "Expect '\x7b' before function body."
  | variableName => "Expect variable name."
  | initializer => "Expect '=' after variable name; declarations need an initializer."
  | declarationEnd => "Expect ';' after variable declaration."
  | assignmentEnd => "Expect ';' after assignment."
  | printEnd => "Expect ';' after value."
  | branchStart => "Expect '\x7b' after condition."
  | otherwiseStart => "Expect '\x7b' after 'lain'."
  | loopStart => "Expect '\x7b' after loop condition."
  | returnEnd => "Expect ';' after return value."
  | expressionEnd => "Expect ';' after expression."
  | blockEnd => "Expect '\x7d' after block."
  | openBlock => "Unmatched '\x7d'."

inductive SyntaxError where
  | unexpectedCharacter (found : Char) (line : Nat)
  | unterminatedString (line : Nat)
  | unexpectedToken (found : Token) (expected : Expectation)
  deriving BEq

namespace SyntaxError

def line : SyntaxError → Nat
  | unexpectedCharacter _ line => line
  | unterminatedString line => line
  | unexpectedToken found _ => found.line

def about (found : Token) (text : String) : String :=
  "[line " ++ toString found.line ++ "] Error at " ++ found.shown ++ ": " ++ text

def message : SyntaxError → String
  | unexpectedCharacter found line =>
    "[line " ++ toString line ++ "] Error: Unexpected character '" ++ found.toString ++ "'."
  | unterminatedString line => "[line " ++ toString line ++ "] Error: Unterminated string."
  | unexpectedToken found expected => about found expected.text

end SyntaxError

end Naskah
