import Naskah.Token.Error

/-!
# Parsers over token lists

A parser reads tokens from the front of a list. It ends in a result or in an
error at the token it could not use, and leaves the rest of the list; on the
way it may have reported errors that it got over. An ending is looked at but
never taken, so what stands behind one is never read.
-/

namespace Naskah

structure Parsed (α : Type) where
  result : Except SyntaxError α
  reported : List SyntaxError
  rest : List Token

def Parser (α : Type) : Type :=
  List Token → Parsed α

namespace Parser

@[always_inline, inline]
protected def pure {α : Type} (a : α) : Parser α :=
  fun ts => ⟨.ok a, [], ts⟩

@[always_inline, inline]
protected def bind {α β : Type} (p : Parser α) (f : α → Parser β) : Parser β := fun ts =>
  match p ts with
  | ⟨.ok a, es, rest⟩ =>
    match f a rest with
    | ⟨result, es', rest'⟩ => ⟨result, es ++ es', rest'⟩
  | ⟨.error e, es, rest⟩ => ⟨.error e, es, rest⟩

instance : Monad Parser where
  pure := Parser.pure
  bind := Parser.bind

end Parser

/-! ## Looking and taking -/

def front : List Token → Token
  | [] => .noMore
  | t :: _ => t

/-- The list without its front token, which an ending keeps. -/
def afterFront : List Token → List Token
  | [] => []
  | t :: ts => if t.isEnding then t :: ts else ts

namespace Parser

def peek : Parser Token :=
  fun ts => ⟨.ok (front ts), [], ts⟩

def skip : Parser Unit :=
  fun ts => ⟨.ok (), [], afterFront ts⟩

def fail {α : Type} (expected : Expectation) : Parser α :=
  fun ts => ⟨.error (.unexpectedToken (front ts) expected), [], ts⟩

def report (expected : Expectation) : Parser Unit :=
  fun ts => ⟨.ok (), [.unexpectedToken (front ts) expected], ts⟩

def take (p : Token → Bool) (expected : Expectation) : Parser Token := do
  let t ← peek
  if p t then
    skip
    pure t
  else fail expected

def mark (m : Mark) (expected : Expectation) : Parser Token :=
  take (·.isMark m) expected

def name (expected : Expectation) : Parser Token :=
  take (·.isName) expected

/-- Items up to the first place that has none, at most `bound` of them. An
item takes a token, so the length of the list is bound enough. -/
def many {α : Type} (item : Parser (Option α)) : Nat → Parser (List α)
  | 0 => pure []
  | bound + 1 => do
    match ← item with
    | none => pure []
    | some a => do
      let more ← many item bound
      pure (a :: more)

def commaItem {α : Type} (item : Parser α) : Parser (Option α) := do
  let t ← peek
  if t.isMark .comma then
    skip
    let a ← item
    pure (some a)
  else pure none

def commaList {α : Type} (bound : Nat) (item : Parser α) (missing : Expectation) :
    Parser (List α × Token) := do
  let t ← peek
  if t.isMark .rightParen then
    skip
    pure ([], t)
  else
    let first ← item
    let more ← many (commaItem item) bound
    let close ← mark .rightParen missing
    pure (first :: more, close)

/-! ## Recovery -/

def startsStatement (t : Token) : Bool :=
  t.isKeyword .fungsi || t.isKeyword .misal || t.isKeyword .selama || t.isKeyword .jika ||
    t.isKeyword .cetak || t.isKeyword .balikin

/-- Skips to a likely boundary of statements, given the token before. -/
def skipPast (previous : Token) : List Token → List Token
  | [] => []
  | t :: ts =>
    if previous.isMark .semicolon || t.isEnding || t.isMark .rightBrace ||
      startsStatement t then t :: ts
    else skipPast t ts

/-- Where reading goes on after an error at the front: the front token is
skipped and all up to a boundary, but no closing brace and no ending. -/
def synchronize : List Token → List Token
  | [] => []
  | t :: ts => if t.isMark .rightBrace || t.isEnding then t :: ts else skipPast t ts

/-- Turns an error into a report, and goes on behind it with nothing read. -/
def recover {α : Type} (p : Parser α) : Parser (Option α) := fun ts =>
  match p ts with
  | ⟨.ok a, es, rest⟩ => ⟨.ok (some a), es, rest⟩
  | ⟨.error e, es, rest⟩ => ⟨.ok none, es ++ [e], synchronize rest⟩

end Parser

end Naskah
