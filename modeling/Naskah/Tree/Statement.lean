import Naskah.Tree.Expression

/-!
# Reading statements

A declaration that fails is reported and skipped to the next boundary, inside
a block as at the top level; a closing brace ends the block it stands in and
is an error where no block is open. As for expressions, a bound that falls
with each token taken makes the recursion through blocks end.
-/

namespace Naskah

namespace Parser

/-! ## Blocks -/

def blockItem (declaration : Parser Stmt) : Parser (Option (Option Stmt)) := do
  let t ← peek
  if t.isMark .rightBrace || t.isEnding then pure none
  else
    let s ← recover declaration
    pure (some s)

def block (bound : Nat) (declaration : Parser Stmt) : Parser (List Stmt) := do
  let items ← many (blockItem declaration) bound
  let _ ← mark .rightBrace .blockEnd
  pure (items.filterMap id)

def bracedBlock (bound : Nat) (declaration : Parser Stmt) (missing : Expectation) :
    Parser (List Stmt) := do
  let _ ← mark .leftBrace missing
  block bound declaration

/-! ## Statements, each behind its keyword -/

def closedExpression (bound : Nat) (missing : Expectation) : Parser Expr := do
  let e ← expressionWithin bound
  let _ ← mark .semicolon missing
  pure e

def function (bound : Nat) (declaration : Parser Stmt) : Parser Stmt := do
  let f ← name .functionName
  let _ ← mark .leftParen .parametersStart
  let (params, _) ← commaList bound (name .parameterName) .parametersEnd
  let body ← bracedBlock bound declaration .bodyStart
  pure (.function f params body)

def declare (bound : Nat) : Parser Stmt := do
  let x ← name .variableName
  let _ ← mark .equals .initializer
  let e ← closedExpression bound .declarationEnd
  pure (.declare x e)

/-- The part of a branch behind `lain`: another branch, or a block. Only a
branch is read by `declaration` here. -/
def otherwise (bound : Nat) (declaration : Parser Stmt) : Parser (List Stmt) := do
  let t ← peek
  if t.isKeyword .lain then
    skip
    let u ← peek
    if u.isKeyword .jika then
      let s ← declaration
      pure [s]
    else bracedBlock bound declaration .otherwiseStart
  else pure []

def branch (bound : Nat) (declaration : Parser Stmt) : Parser Stmt := do
  let e ← expressionWithin bound
  let body ← bracedBlock bound declaration .branchStart
  let rest ← otherwise bound declaration
  pure (.branch e body rest)

def loop (bound : Nat) (declaration : Parser Stmt) : Parser Stmt := do
  let e ← expressionWithin bound
  let body ← bracedBlock bound declaration .loopStart
  pure (.loop e body)

def giveBack (bound : Nat) (keyword : Token) : Parser Stmt := do
  let t ← peek
  if t.isMark .semicolon then
    skip
    pure (.giveBack keyword none)
  else
    let e ← closedExpression bound .returnEnd
    pure (.giveBack keyword (some e))

/-- A statement that declares and assigns nothing. -/
def plainStatement (bound : Nat) (declaration : Parser Stmt) : Parser Stmt := do
  let t ← peek
  match t.kind with
  | .keyword .cetak =>
    skip
    let e ← closedExpression bound .printEnd
    pure (.print t e)
  | .keyword .jika =>
    skip
    branch bound declaration
  | .keyword .selama =>
    skip
    loop bound declaration
  | .keyword .balikin =>
    skip
    giveBack bound t
  | .mark .leftBrace =>
    skip
    let body ← block bound declaration
    pure (.block body)
  | _ =>
    let e ← closedExpression bound .expressionEnd
    pure (.expression e)

def assigned? : Parser (Option Token) := fun ts =>
  match ts with
  | x :: t :: _ => ⟨.ok (if x.isName && t.isMark .equals then some x else none), [], ts⟩
  | _ => ⟨.ok none, [], ts⟩

def anyStatement (bound : Nat) (declaration : Parser Stmt) : Parser Stmt := do
  let t ← peek
  match t.kind with
  | .keyword .fungsi =>
    skip
    function bound declaration
  | .keyword .misal =>
    skip
    declare bound
  | _ =>
    match ← assigned? with
    | some x =>
      skip
      skip
      let e ← closedExpression bound .assignmentEnd
      pure (.assign x e)
    | none => plainStatement bound declaration

def declarationWithin : Nat → Parser Stmt
  | 0 => fail .expression
  | bound + 1 => anyStatement (bound + 1) (declarationWithin bound)

/-! ## Programs -/

def programItem (declaration : Parser Stmt) : Parser (Option (Option Stmt)) := do
  let t ← peek
  if t.isEnding then pure none
  else if t.isMark .rightBrace then
    report .openBlock
    skip
    pure (some none)
  else
    let s ← recover declaration
    pure (some s)

def programWithin (bound : Nat) : Parser (List Stmt) := do
  let items ← many (programItem (declarationWithin bound)) bound
  pure (items.filterMap id)

/-! ## Parts by themselves -/

def statement : Parser Stmt :=
  fun ts => plainStatement ts.length (declarationWithin ts.length) ts

def declaration : Parser (Option Stmt) :=
  fun ts => recover (declarationWithin ts.length) ts

def openedBlock : Parser (List Stmt) :=
  fun ts => block ts.length (declarationWithin ts.length) ts

end Parser

structure Program where
  statements : List Stmt
  errors : List SyntaxError

/-- The statements of a token list and the errors in it. Reading a program
gets over every error, so nothing is lost to one. -/
def parse (tokens : List Token) : Program :=
  let p := Parser.programWithin tokens.length tokens
  { statements := p.result.toOption.getD []
    errors := p.reported }

end Naskah
