import Naskah.Tree.Basic

/-!
# The grammar

Which token lists are written for which trees, said without a reader:

    program := declaration*
    declaration := function | variable | assignment | statement
    branch := "jika" expression block ("lain" (branch | block))?
    block := "{" declaration* "}"
    expression := operands with operators of six ranks between them
    unary := ("-" | "!") unary | call
    call := primary ("(" arguments? ")")*

A rank is left-recursive, so its operators group to the left. A branch without
`lain` has an empty other part, and behind `lain jika` that part is the one
branch. The trees keep tokens of the list itself.
-/

namespace Naskah

/-- Token lists, each with what it is written for. -/
abbrev Phrases (α : Type) := List Token → α → Prop

namespace Grammar

/-! ## Words -/

inductive Sign : Nat → Kind → Operator → Prop
  | or : Sign Rank.disjunction (.keyword .atau) (.logical .or)
  | and : Sign Rank.conjunction (.keyword .dan) (.logical .and)
  | equal : Sign Rank.equality (.mark .equalEqual) (.binary .equal)
  | notEqual : Sign Rank.equality (.mark .bangEqual) (.binary .notEqual)
  | less : Sign Rank.comparison (.mark .less) (.binary .less)
  | lessEqual : Sign Rank.comparison (.mark .lessEqual) (.binary .lessEqual)
  | greater : Sign Rank.comparison (.mark .greater) (.binary .greater)
  | greaterEqual : Sign Rank.comparison (.mark .greaterEqual) (.binary .greaterEqual)
  | add : Sign Rank.sum (.mark .plus) (.binary .add)
  | sub : Sign Rank.sum (.mark .minus) (.binary .sub)
  | mul : Sign Rank.product (.mark .star) (.binary .mul)
  | div : Sign Rank.product (.mark .slash) (.binary .div)

inductive UnarySign : Kind → UnaryOp → Prop
  | negate : UnarySign (.mark .minus) .negate
  | not : UnarySign (.mark .bang) .not

inductive Constant : Kind → Literal → Prop
  | number (x : Float) : Constant (.number x) (.number x)
  | text (s : String) : Constant (.text s) (.text s)
  | benar : Constant (.keyword .benar) (.truth true)
  | salah : Constant (.keyword .salah) (.truth false)
  | kosong : Constant (.keyword .kosong) .nil

inductive Name : Phrases Token
  | mk {t} : t.kind = .name → Name [t] t

/-! ## Lists -/

inductive Separated {α : Type} (Item : Phrases α) : Phrases (List α)
  | one {c a} : Item c a → Separated Item c [a]
  | more {c comma d a as} : Item c a → comma.kind = .mark .comma → Separated Item d as →
      Separated Item (c ++ comma :: d) (a :: as)

inductive Listed {α : Type} (Item : Phrases α) : Phrases (List α)
  | none : Listed Item [] []
  | some {c as} : Separated Item c as → Listed Item c as

/-! ## Expressions -/

mutual
/-- Expressions whose operators have at most the given rank. -/
inductive Ranked : Nat → Phrases Expr
  | unary {c e} : Unary c e → Ranked 0 c e
  | operand {rank c e} : Ranked rank c e → Ranked (rank + 1) c e
  | operation {rank c t op d left right} : Ranked (rank + 1) c left → Sign (rank + 1) t.kind op →
      Ranked rank d right → Ranked (rank + 1) (c ++ t :: d) (op.node t left right)
inductive Unary : Phrases Expr
  | sign {t op c e} : UnarySign t.kind op → Unary c e → Unary (t :: c) (.unary op t e)
  | call {c e} : Call c e → Unary c e
inductive Call : Phrases Expr
  | primary {c e} : Primary c e → Call c e
  | call {c callee left d args right} : Call c callee → left.kind = .mark .leftParen →
      Listed (Ranked Rank.disjunction) d args → right.kind = .mark .rightParen →
      Call (c ++ left :: (d ++ [right])) (.call callee args right)
inductive Primary : Phrases Expr
  | constant {t v} : Constant t.kind v → Primary [t] (.literal v t.line)
  | name {t} : t.kind = .name → Primary [t] (.name t)
  | group {left c e right} : left.kind = .mark .leftParen → Ranked Rank.disjunction c e →
      right.kind = .mark .rightParen → Primary (left :: (c ++ [right])) (.group e)
end

abbrev Expression : Phrases Expr := Ranked Rank.disjunction

inductive Closed : Phrases Expr
  | mk {c e stop} : Expression c e → stop.kind = .mark .semicolon → Closed (c ++ [stop]) e

/-! ## Statements -/

mutual
inductive Declaration : Phrases Stmt
  | function {keyword name left c params right d body} : keyword.kind = .keyword .fungsi →
      name.kind = .name → left.kind = .mark .leftParen → Listed Name c params →
      right.kind = .mark .rightParen → Block d body →
      Declaration (keyword :: name :: left :: (c ++ right :: d)) (.function name params body)
  | declare {keyword name sign c e} : keyword.kind = .keyword .misal → name.kind = .name →
      sign.kind = .mark .equals → Closed c e →
        Declaration (keyword :: name :: sign :: c) (.declare name e)
  | assign {name sign c e} : name.kind = .name → sign.kind = .mark .equals → Closed c e →
      Declaration (name :: sign :: c) (.assign name e)
  | statement {c s} : Statement c s → Declaration c s
/-- Statements that declare and assign nothing. -/
inductive Statement : Phrases Stmt
  | print {keyword c e} : keyword.kind = .keyword .cetak → Closed c e →
      Statement (keyword :: c) (.print keyword e)
  | block {c body} : Block c body → Statement c (.block body)
  | branch {c s} : Branch c s → Statement c s
  | loop {keyword c e d body} : keyword.kind = .keyword .selama → Expression c e → Block d body →
      Statement (keyword :: (c ++ d)) (.loop e body)
  | giveBackNothing {keyword stop} : keyword.kind = .keyword .balikin →
      stop.kind = .mark .semicolon → Statement [keyword, stop] (.giveBack keyword none)
  | giveBack {keyword c e} : keyword.kind = .keyword .balikin → Closed c e →
      Statement (keyword :: c) (.giveBack keyword (some e))
  | expression {c e} : Closed c e → Statement c (.expression e)
inductive Branch : Phrases Stmt
  | mk {keyword c e d body o rest} : keyword.kind = .keyword .jika → Expression c e → Block d body →
      Otherwise o rest → Branch (keyword :: (c ++ (d ++ o))) (.branch e body rest)
inductive Otherwise : Phrases (List Stmt)
  | missing : Otherwise [] []
  | branch {keyword c s} : keyword.kind = .keyword .lain → Branch c s → Otherwise (keyword :: c) [s]
  | block {keyword c body} : keyword.kind = .keyword .lain → Block c body →
      Otherwise (keyword :: c) body
inductive Block : Phrases (List Stmt)
  | mk {left c body right} : left.kind = .mark .leftBrace → Declarations c body →
      right.kind = .mark .rightBrace → Block (left :: (c ++ [right])) body
inductive Declarations : Phrases (List Stmt)
  | nil : Declarations [] []
  | cons {c s d ss} : Declaration c s → Declarations d ss → Declarations (c ++ d) (s :: ss)
end

abbrev Program : Phrases (List Stmt) := Declarations

end Grammar

end Naskah
