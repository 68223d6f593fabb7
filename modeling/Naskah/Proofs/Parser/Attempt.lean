import Naskah.Proofs.Parser.Reading

/-!
# Reading with fuel

The readers are bounded, and one whose bound is used up stops without a sign of
it. Here they are with fuel in place of bounds: out of fuel they have no result
at all, so a result is the end of a reading that nothing cut short. Beside it
stands a record of the declarations that the loops of blocks and programs asked
for.
-/

namespace Naskah

/-- A declaration that a loop asked for: the list where it began, and what it left. -/
structure Request where
  start : List Token
  rest : List Token

/-- It began at a token that is no closing brace and no ending, and took it. -/
def Request.Advances (c : Request) : Prop :=
  ∃ t d, c.start = t :: d ++ c.rest ∧ t.kind ≠ .mark .rightBrace ∧ t.kind ≠ .ending

/-- A reader that may run out of fuel, with the requests made on the way. -/
def Attempt (α : Type) : Type :=
  List Token → Option (Parsed α × List Request)

namespace Attempt

open Naskah.Parser

variable {α β : Type}

protected def pure (a : α) : Attempt α :=
  fun ts => some (⟨.ok a, [], ts⟩, [])

protected def bind (p : Attempt α) (f : α → Attempt β) : Attempt β := fun ts =>
  match p ts with
  | none => none
  | some (⟨.error e, es, rest⟩, cs) => some (⟨.error e, es, rest⟩, cs)
  | some (⟨.ok a, es, rest⟩, cs) =>
    (f a rest).map fun (o, cs') => (⟨o.result, es ++ o.reported, o.rest⟩, cs ++ cs')

instance : Monad Attempt where
  pure := Attempt.pure
  bind := Attempt.bind

instance : LawfulMonad Attempt := LawfulMonad.mk' _
  (by
    intro α p
    funext ts
    simp only [Functor.map, Attempt.bind, Attempt.pure, Function.comp, id]
    rcases p ts with _ | ⟨⟨e | a, es, r⟩, cs⟩ <;> simp)
  (by
    intro α β a f
    funext ts
    simp [Bind.bind, Pure.pure, Attempt.bind, Attempt.pure])
  (by
    intro α β γ p f g
    funext ts
    simp only [Bind.bind, Attempt.bind]
    rcases p ts with _ | ⟨⟨e | a, es, r⟩, cs⟩
    · rfl
    · rfl
    · simp only
      rcases f a r with _ | ⟨⟨e | b, es', r'⟩, cs'⟩
      · rfl
      · rfl
      · simp only [Option.map_some, Option.map_map]
        congr 1
        funext o
        simp)

def outOfFuel : Attempt α := fun _ => none

def step (p : Parser α) : Attempt α := fun ts => some (p ts, [])

def request (p : Attempt α) : Attempt α :=
  fun ts => (p ts).map fun (o, cs) => (o, cs ++ [⟨ts, o.rest⟩])

/-! ## Recovery -/

/-- Looks for a boundary token by token. An ending stays in front however often it is taken. -/
def skipPast : Nat → Token → List Token → Option (List Token)
  | 0, _, _ => none
  | fuel + 1, previous, ts =>
    let t := front ts
    if previous.isMark .semicolon || t.isEnding || t.isMark .rightBrace ||
      startsStatement t then some ts
    else skipPast fuel t (afterFront ts)

def synchronize (fuel : Nat) (ts : List Token) : Option (List Token) :=
  if (front ts).isMark .rightBrace then some ts else skipPast fuel (front ts) (afterFront ts)

def recover (fuel : Nat) (p : Attempt α) : Attempt (Option α) := fun ts =>
  match p ts with
  | none => none
  | some (⟨.ok a, es, rest⟩, cs) => some (⟨.ok (some a), es, rest⟩, cs)
  | some (⟨.error e, es, rest⟩, cs) =>
    (synchronize fuel rest).map fun behind => (⟨.ok none, es ++ [e], behind⟩, cs)

/-! ## The readers -/

/-- Loops and readers that lead back to themselves run out of fuel. -/
instance : Reading Attempt where
  peek := step peek
  skip := step skip
  fail x := step (fail x)
  report x := step (report x)
  assigned? := step assigned?
  recover fuel p := request (recover fuel p)
  spent := outOfFuel
  stuck := outOfFuel
  fail_bind _ _ := rfl

def declaration (fuel : Nat) : Attempt (Option Stmt) :=
  recover fuel (Reading.declaration fuel)

def openedBlock (fuel : Nat) : Attempt (List Stmt) :=
  Reading.block fuel (Reading.declaration fuel)

def program (fuel : Nat) : Attempt (List Stmt) :=
  Reading.program fuel

def parse (fuel : Nat) (tokens : List Token) : Option (Program × List Request) :=
  (program fuel tokens).map fun (o, cs) => (⟨o.result.toOption.getD [], o.reported⟩, cs)

end Attempt

end Naskah
