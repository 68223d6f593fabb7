import Naskah.Proofs.Parser.Step

/-!
# How readers are made up

The readers of expressions, statements and programs are made of a few steps:
looking at the front token, taking it, failing at it, and recovery. Here they
are over any such steps. What a bound that is used up comes to is a step as
well. Over the steps of parsers the readers are the parsers themselves.
-/

namespace Naskah

class Reading (F : Type → Type) extends Monad F, LawfulMonad F where
  peek : F Token
  skip : F Unit
  fail {α : Type} : Expectation → F α
  report : Expectation → F Unit
  assigned? : F (Option Token)
  recover : Nat → F Stmt → F (Option Stmt)
  /-- A loop whose bound is used up. -/
  spent {α : Type} : F (List α)
  /-- A reader that leads back to itself, with its bound used up. -/
  stuck {α : Type} : F α
  fail_bind {α β : Type} (x : Expectation) (f : α → F β) : fail x >>= f = fail x

namespace Reading

variable {F : Type → Type} [Reading F] {α : Type}

/-! ## Loops -/

def take (test : Token → Bool) (expected : Expectation) : F Token := do
  let t ← peek
  if test t then
    skip
    pure t
  else fail expected

def mark (m : Mark) (expected : Expectation) : F Token := take (·.isMark m) expected

def name (expected : Expectation) : F Token := take (·.isName) expected

def many (item : F (Option α)) : Nat → F (List α)
  | 0 => spent
  | bound + 1 => do
    match ← item with
    | none => pure []
    | some a => do
      let more ← many item bound
      pure (a :: more)

def item (asked : Token → Option (F α)) : F (Option α) := do
  let t ← peek
  (asked t).elim (pure none) fun p => do
    let a ← p
    pure (some a)

def behind (p : F α) : F α := do
  skip
  p

def commaItem (p : F α) : F (Option α) :=
  item fun t => if t.isMark .comma then some (behind p) else none

def commaList (bound : Nat) (p : F α) (missing : Expectation) : F (List α × Token) := do
  let t ← peek
  if t.isMark .rightParen then
    skip
    pure ([], t)
  else
    let first ← p
    let more ← many (commaItem p) bound
    let close ← mark .rightParen missing
    pure (first :: more, close)

theorem many_item_succ (asked : Token → Option (F α)) (b : Nat) :
    many (item asked) (b + 1) = peek >>= fun t => (asked t).elim (pure []) fun p =>
      p >>= fun a => many (item asked) b >>= fun more => pure (a :: more) := by
  rw [many]
  refine Eq.trans (bind_assoc peek _ _) ?_
  congr 1
  funext t
  cases asked t <;> simp

/-! ## Expressions -/

def operation (rank : Nat) (operand : F Expr) : F (Option (Operator × Token × Expr)) :=
  item fun t => (Operator.ofKind? t.kind).bind fun op =>
    if op.rank = rank then some (behind (operand >>= fun right => pure (op, t, right))) else none

def ranked (bound : Nat) (unary : F Expr) : Nat → F Expr
  | 0 => unary
  | rank + 1 => do
    let first ← ranked bound unary rank
    let more ← many (operation (rank + 1) (ranked bound unary rank)) bound
    pure (more.foldl (fun left (op, t, right) => op.node t left right) first)

def primary (expr : F Expr) : F Expr := do
  let t ← peek
  match t.literal? with
  | some value =>
    skip
    pure (.literal value t.line)
  | none =>
    if t.isName then
      skip
      pure (.name t)
    else if t.isMark .leftParen then
      skip
      let inner ← expr
      let _ ← mark .rightParen .groupEnd
      pure (.group inner)
    else fail .expression

def arguments (bound : Nat) (expr : F Expr) : F (Option (List Expr × Token)) :=
  item fun t => if t.isMark .leftParen then some (behind (commaList bound expr .argumentsEnd))
    else none

def calls (bound : Nat) (expr : F Expr) : F Expr := do
  let callee ← primary expr
  let more ← many (arguments bound expr) bound
  pure (more.foldl (fun callee (args, paren) => .call callee args paren) callee)

def unary : Nat → F Expr
  | 0 => stuck
  | bound + 1 => do
    let t ← peek
    match UnaryOp.ofKind? t.kind with
    | some op =>
      skip
      let operand ← unary bound
      pure (.unary op t operand)
    | none => calls (bound + 1) (ranked (bound + 1) (unary bound) Rank.disjunction)

def expression (bound : Nat) : F Expr := ranked bound (unary bound) Rank.disjunction

def closedExpression (bound : Nat) (missing : Expectation) : F Expr := do
  let e ← expression bound
  let _ ← mark .semicolon missing
  pure e

/-! ## Statements -/

def blockItem (bound : Nat) (declaration : F Stmt) : F (Option (Option Stmt)) :=
  item fun t => if t.isMark .rightBrace || t.isEnding then none
    else some (recover bound declaration)

def block (bound : Nat) (declaration : F Stmt) : F (List Stmt) := do
  let items ← many (blockItem bound declaration) bound
  let _ ← mark .rightBrace .blockEnd
  pure (items.filterMap id)

def bracedBlock (bound : Nat) (declaration : F Stmt) (missing : Expectation) : F (List Stmt) := do
  let _ ← mark .leftBrace missing
  block bound declaration

def function (bound : Nat) (declaration : F Stmt) : F Stmt := do
  let f ← name .functionName
  let _ ← mark .leftParen .parametersStart
  let (params, _) ← commaList bound (name .parameterName) .parametersEnd
  let body ← bracedBlock bound declaration .bodyStart
  pure (.function f params body)

def declare (bound : Nat) : F Stmt := do
  let x ← name .variableName
  let _ ← mark .equals .initializer
  let e ← closedExpression bound .declarationEnd
  pure (.declare x e)

def otherwise (bound : Nat) (declaration : F Stmt) : F (List Stmt) := do
  let t ← peek
  if t.isKeyword .lain then
    skip
    let u ← peek
    if u.isKeyword .jika then
      let s ← declaration
      pure [s]
    else bracedBlock bound declaration .otherwiseStart
  else pure []

def branch (bound : Nat) (declaration : F Stmt) : F Stmt := do
  let e ← expression bound
  let body ← bracedBlock bound declaration .branchStart
  let rest ← otherwise bound declaration
  pure (.branch e body rest)

def loop (bound : Nat) (declaration : F Stmt) : F Stmt := do
  let e ← expression bound
  let body ← bracedBlock bound declaration .loopStart
  pure (.loop e body)

def giveBack (bound : Nat) (keyword : Token) : F Stmt := do
  let t ← peek
  if t.isMark .semicolon then
    skip
    pure (.giveBack keyword none)
  else
    let e ← closedExpression bound .returnEnd
    pure (.giveBack keyword (some e))

def plainStatement (bound : Nat) (declaration : F Stmt) : F Stmt := do
  let t ← peek
  match t.kind with
  | .keyword .cetak =>
    skip
    let e ← closedExpression bound .printEnd
    pure (.print t e)
  | .keyword .jika =>
    skip
    branch bound declaration
  | .keyword .selama =>
    skip
    loop bound declaration
  | .keyword .balikin =>
    skip
    giveBack bound t
  | .mark .leftBrace =>
    skip
    let body ← block bound declaration
    pure (.block body)
  | _ =>
    let e ← closedExpression bound .expressionEnd
    pure (.expression e)

def assignment (assign : Token → F α) (other : F α) : F α := do
  match ← assigned? with
  | some x =>
    skip
    skip
    assign x
  | none => other

def anyStatement (bound : Nat) (declaration : F Stmt) : F Stmt := do
  let t ← peek
  match t.kind with
  | .keyword .fungsi =>
    skip
    function bound declaration
  | .keyword .misal =>
    skip
    declare bound
  | _ =>
    assignment (fun x => do
      let e ← closedExpression bound .assignmentEnd
      pure (.assign x e)) (plainStatement bound declaration)

def declaration : Nat → F Stmt
  | 0 => stuck
  | bound + 1 => anyStatement (bound + 1) (declaration bound)

/-! ## Programs -/

def programItem (bound : Nat) (declaration : F Stmt) : F (Option (Option Stmt)) :=
  item fun t =>
    if t.isEnding then none
    else if t.isMark .rightBrace then
      some do
        report .openBlock
        skip
        pure none
    else some (recover bound declaration)

def program (bound : Nat) : F (List Stmt) := do
  let items ← many (programItem bound (declaration bound)) bound
  pure (items.filterMap id)

end Reading

/-! ## The parsers -/

instance : Reading Parser where
  peek := Parser.peek
  skip := Parser.skip
  fail := Parser.fail
  report := Parser.report
  assigned? := Parser.assigned?
  recover _ := Parser.recover
  spent := pure []
  stuck := Parser.fail .expression
  fail_bind _ _ := rfl

namespace Reading

variable {α : Type}

theorem many_eq (p : Parser (Option α)) : ∀ b, many p b = Parser.many p b
  | 0 => rfl
  | b + 1 => by
    rw [many, many_eq p b]
    rfl

theorem commaItem_eq (p : Parser α) : commaItem p = Parser.commaItem p := by
  unfold commaItem item Parser.commaItem
  congr 1
  funext t
  by_cases ht : t.isMark .comma = true
  · simp [ht, behind]
    rfl
  · simp [ht]

theorem commaList_eq (b : Nat) (p : Parser α) (x : Expectation) :
    commaList b p x = Parser.commaList b p x := by
  unfold commaList
  rw [many_eq, commaItem_eq]
  rfl

theorem operation_eq (rank : Nat) (p : Parser Expr) :
    operation rank p = Parser.operation rank p := by
  unfold operation item Parser.operation
  congr 1
  funext t
  cases hop : Operator.ofKind? t.kind with
  | none => simp [hop]
  | some op =>
    by_cases hrank : op.rank = rank
    · simp [hop, hrank, behind]
      rfl
    · simp [hop, hrank]

theorem ranked_eq (b : Nat) (p : Parser Expr) : ∀ rank, ranked b p rank = Parser.ranked b p rank
  | 0 => rfl
  | rank + 1 => by
    rw [ranked, Parser.ranked, ranked_eq b p rank, many_eq, operation_eq]
    rfl

theorem arguments_eq (b : Nat) (p : Parser Expr) : arguments b p = Parser.arguments b p := by
  unfold arguments item Parser.arguments
  congr 1
  funext t
  by_cases ht : t.isMark .leftParen = true
  · simp [ht, behind, commaList_eq]
    rfl
  · simp [ht]

theorem calls_eq (b : Nat) (p : Parser Expr) : calls b p = Parser.calls b p := by
  unfold calls
  rw [many_eq, arguments_eq]
  rfl

theorem unary_eq : ∀ b, unary b = Parser.unaryWithin b
  | 0 => rfl
  | b + 1 => by
    unfold unary
    rw [calls_eq, ranked_eq, unary_eq b]
    rfl

theorem expression_eq (b : Nat) : expression b = Parser.expressionWithin b := by
  rw [expression, ranked_eq, unary_eq]
  rfl

theorem closedExpression_eq (b : Nat) (x : Expectation) :
    closedExpression b x = Parser.closedExpression b x := by
  rw [closedExpression, expression_eq]
  rfl

section
variable (b : Nat) (p : Parser Stmt)

theorem blockItem_eq : blockItem b p = Parser.blockItem p := by
  unfold blockItem item Parser.blockItem
  congr 1
  funext t
  by_cases ht : (t.isMark .rightBrace || t.isEnding) = true
  · simp only [if_pos ht]
    rfl
  · simp only [if_neg ht]
    rfl

theorem block_eq : block b p = Parser.block b p := by
  rw [block, many_eq, blockItem_eq]
  rfl

theorem bracedBlock_eq (x : Expectation) : bracedBlock b p x = Parser.bracedBlock b p x := by
  rw [bracedBlock, block_eq]
  rfl

theorem function_eq : function b p = Parser.function b p := by
  unfold function
  rw [commaList_eq, bracedBlock_eq]
  rfl

theorem declare_eq : declare b = Parser.declare b := by
  unfold declare
  rw [closedExpression_eq]
  rfl

theorem otherwise_eq : otherwise b p = Parser.otherwise b p := by
  unfold otherwise
  rw [bracedBlock_eq]
  rfl

theorem branch_eq : branch b p = Parser.branch b p := by
  unfold branch
  rw [expression_eq, bracedBlock_eq, otherwise_eq]
  rfl

theorem loop_eq : loop b p = Parser.loop b p := by
  unfold loop
  rw [expression_eq, bracedBlock_eq]
  rfl

theorem giveBack_eq (t : Token) : giveBack b t = Parser.giveBack b t := by
  unfold giveBack
  rw [closedExpression_eq]
  rfl

theorem plainStatement_eq : plainStatement b p = Parser.plainStatement b p := by
  unfold plainStatement
  simp only [closedExpression_eq, branch_eq, loop_eq, giveBack_eq, block_eq]
  rfl

theorem anyStatement_eq : anyStatement b p = Parser.anyStatement b p := by
  unfold anyStatement
  simp only [function_eq, declare_eq, closedExpression_eq, plainStatement_eq]
  rfl

theorem programItem_eq : programItem b p = Parser.programItem p := by
  unfold programItem item Parser.programItem
  congr 1
  funext t
  by_cases he : t.isEnding = true
  · simp [he]
  by_cases ht : t.isMark .rightBrace = true
  · simp [he, ht]
    rfl
  · simp [he, ht]
    rfl

end

theorem declaration_eq : ∀ b, declaration b = Parser.declarationWithin b
  | 0 => rfl
  | b + 1 => by rw [declaration, anyStatement_eq, declaration_eq b, Parser.declarationWithin]

theorem program_eq (b : Nat) : program b = Parser.programWithin b := by
  rw [program, many_eq, programItem_eq, declaration_eq]
  rfl

end Reading

end Naskah
