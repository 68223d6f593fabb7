import Mathlib.Data.List.Forall2
import Naskah.Tree.Basic
import Naskah.Token.Error

/-!
# Trees over related tokens

Given a relation between tokens, two trees are alike if they have one shape and
related tokens at corresponding places. A relation under which tokens differ in
their lines only makes trees alike that differ in line numbers only.
-/

namespace Naskah

/-! ## Kinds without their payloads -/

/-- A kind, with one number for all numbers and one text for all texts. -/
def Kind.bare : Kind → Kind
  | .number _ => .number 0
  | .text _ => .text ""
  | k => k

theorem Kind.eq_of_bare_eq {k k' : Kind} (h : k.bare = k'.bare) (hnumber : ∀ x, k ≠ .number x)
    (htext : ∀ s, k ≠ .text s) : k' = k := by
  cases k with
  | number x => exact absurd rfl (hnumber x)
  | text s => exact absurd rfl (htext s)
  | _ => cases k' <;> simp_all [Kind.bare]

theorem Kind.bare_eq_cases {k k' : Kind} (h : k.bare = k'.bare) :
    (∃ x y, k = .number x ∧ k' = .number y) ∨ (∃ s s', k = .text s ∧ k' = .text s') ∨ k' = k := by
  cases k with
  | number x => cases k' <;> simp [Kind.bare] at h ⊢
  | text s => cases k' <;> simp [Kind.bare] at h ⊢
  | _ => exact .inr (.inr (Kind.eq_of_bare_eq h (by simp) (by simp)))

/-! ## Tests on tokens of one kind -/

section
variable {t u : Token} (h : t.kind.bare = u.kind.bare)
include h

theorem isMark_congr (m : Mark) : t.isMark m = u.isMark m := by
  obtain ⟨x, y, ht, hu⟩ | ⟨s, s', ht, hu⟩ | hu := Kind.bare_eq_cases h <;> simp [Token.isMark, *]

theorem isKeyword_congr (w : Keyword) : t.isKeyword w = u.isKeyword w := by
  obtain ⟨x, y, ht, hu⟩ | ⟨s, s', ht, hu⟩ | hu := Kind.bare_eq_cases h <;> simp [Token.isKeyword, *]

theorem isName_congr : t.isName = u.isName := by
  obtain ⟨x, y, ht, hu⟩ | ⟨s, s', ht, hu⟩ | hu := Kind.bare_eq_cases h <;> simp [Token.isName, *]

theorem isEnding_congr : t.isEnding = u.isEnding := by
  obtain ⟨x, y, ht, hu⟩ | ⟨s, s', ht, hu⟩ | hu := Kind.bare_eq_cases h <;> simp [Token.isEnding, *]

theorem operator_congr : Operator.ofKind? t.kind = Operator.ofKind? u.kind := by
  obtain ⟨x, y, ht, hu⟩ | ⟨s, s', ht, hu⟩ | hu := Kind.bare_eq_cases h
  · rw [ht, hu]; rfl
  · rw [ht, hu]; rfl
  · rw [hu]

theorem unaryOp_congr : UnaryOp.ofKind? t.kind = UnaryOp.ofKind? u.kind := by
  obtain ⟨x, y, ht, hu⟩ | ⟨s, s', ht, hu⟩ | hu := Kind.bare_eq_cases h
  · rw [ht, hu]; rfl
  · rw [ht, hu]; rfl
  · rw [hu]

theorem literal?_congr : t.literal?.isSome = u.literal?.isSome := by
  obtain ⟨x, y, ht, hu⟩ | ⟨s, s', ht, hu⟩ | hu := Kind.bare_eq_cases h <;> simp [Token.literal?, *]

end

/-! ## Trees -/

/-- A literal is alike to that of a related token. -/
inductive Expr.Alike (R : Token → Token → Prop) : Expr → Expr → Prop
  | literal {t u v w} : R t u → t.literal? = some v → u.literal? = some w →
      Alike R (.literal v t.line) (.literal w u.line)
  | name {t u} : R t u → Alike R (.name t) (.name u)
  | group {e f} : Alike R e f → Alike R (.group e) (.group f)
  | unary {op t u e f} : R t u → Alike R e f → Alike R (.unary op t e) (.unary op u f)
  | binary {op t u e f e' f'} : R t u → Alike R e f → Alike R e' f' →
      Alike R (.binary op t e e') (.binary op u f f')
  | logical {op t u e f e' f'} : R t u → Alike R e f → Alike R e' f' →
      Alike R (.logical op t e e') (.logical op u f f')
  | call {e f es fs t u} : Alike R e f → List.Forall₂ (Alike R) es fs → R t u →
      Alike R (.call e es t) (.call f fs u)

inductive Stmt.Alike (R : Token → Token → Prop) : Stmt → Stmt → Prop
  | expression {e f} : e.Alike R f → Alike R (.expression e) (.expression f)
  | print {t u e f} : R t u → e.Alike R f → Alike R (.print t e) (.print u f)
  | declare {t u e f} : R t u → e.Alike R f → Alike R (.declare t e) (.declare u f)
  | assign {t u e f} : R t u → e.Alike R f → Alike R (.assign t e) (.assign u f)
  | block {ss ss'} : List.Forall₂ (Alike R) ss ss' → Alike R (.block ss) (.block ss')
  | branch {e f b b' o o'} : e.Alike R f → List.Forall₂ (Alike R) b b' →
      List.Forall₂ (Alike R) o o' → Alike R (.branch e b o) (.branch f b' o')
  | loop {e f b b'} : e.Alike R f → List.Forall₂ (Alike R) b b' → Alike R (.loop e b) (.loop f b')
  | function {t u ps qs b b'} : R t u → List.Forall₂ R ps qs → List.Forall₂ (Alike R) b b' →
      Alike R (.function t ps b) (.function u qs b')
  | giveBack {t u e f} : R t u → Option.Rel (Expr.Alike R) e f →
      Alike R (.giveBack t e) (.giveBack u f)

inductive SyntaxError.Alike (R : Token → Token → Prop) : SyntaxError → SyntaxError → Prop
  | unexpectedToken {t u x} : R t u → Alike R (.unexpectedToken t x) (.unexpectedToken u x)

/-! ## Trees over equal tokens -/

mutual
theorem Expr.Alike.eq {e f : Expr} : e.Alike Eq f → e = f
  | .literal h hv hw => by
    subst h
    rw [Option.some.inj (hv.symm.trans hw)]
  | .name h => by rw [h]
  | .group h => by rw [h.eq]
  | .unary ht h => by rw [ht, h.eq]
  | .binary ht h h' => by rw [ht, h.eq, h'.eq]
  | .logical ht h h' => by rw [ht, h.eq, h'.eq]
  | .call h hs ht => by rw [h.eq, exprs_eq hs, ht]
theorem exprs_eq {es fs : List Expr} : List.Forall₂ (Expr.Alike Eq) es fs → es = fs
  | .nil => rfl
  | .cons h hs => by rw [h.eq, exprs_eq hs]
end

mutual
theorem Stmt.Alike.eq {s s' : Stmt} : s.Alike Eq s' → s = s'
  | .expression h => by rw [h.eq]
  | .print ht h => by rw [ht, h.eq]
  | .declare ht h => by rw [ht, h.eq]
  | .assign ht h => by rw [ht, h.eq]
  | .block hs => by rw [stmts_eq hs]
  | .branch h hb ho => by rw [h.eq, stmts_eq hb, stmts_eq ho]
  | .loop h hb => by rw [h.eq, stmts_eq hb]
  | .function ht hps hb => by
    rw [List.forall₂_eq_eq_eq] at hps
    rw [ht, hps, stmts_eq hb]
  | .giveBack ht .none => by rw [ht]
  | .giveBack ht (.some h) => by rw [ht, h.eq]
theorem stmts_eq {ss ss' : List Stmt} : List.Forall₂ (Stmt.Alike Eq) ss ss' → ss = ss'
  | .nil => rfl
  | .cons h hs => by rw [h.eq, stmts_eq hs]
end

theorem Literal.exists_token (v : Literal) (line : Nat) :
    ∃ t : Token, t.literal? = some v ∧ t.line = line := by
  cases v with
  | number x => exact ⟨⟨.number x, "", line⟩, rfl, rfl⟩
  | text s => exact ⟨⟨.text s, "", line⟩, rfl, rfl⟩
  | truth b => cases b with
    | true => exact ⟨⟨.keyword .benar, "", line⟩, rfl, rfl⟩
    | false => exact ⟨⟨.keyword .salah, "", line⟩, rfl, rfl⟩
  | nil => exact ⟨⟨.keyword .kosong, "", line⟩, rfl, rfl⟩

mutual
theorem Expr.alike_eq : ∀ e : Expr, e.Alike Eq e
  | .literal v line => by
    obtain ⟨t, hv, rfl⟩ := v.exists_token line
    exact .literal rfl hv hv
  | .name _ => .name rfl
  | .group e => .group e.alike_eq
  | .unary _ _ e => .unary rfl e.alike_eq
  | .binary _ _ e f => .binary rfl e.alike_eq f.alike_eq
  | .logical _ _ e f => .logical rfl e.alike_eq f.alike_eq
  | .call e es _ => .call e.alike_eq (exprs_alike_eq es) rfl
theorem exprs_alike_eq : ∀ es : List Expr, List.Forall₂ (Expr.Alike Eq) es es
  | [] => .nil
  | e :: es => .cons e.alike_eq (exprs_alike_eq es)
end

mutual
theorem Stmt.alike_eq : ∀ s : Stmt, s.Alike Eq s
  | .expression e => .expression e.alike_eq
  | .print _ e => .print rfl e.alike_eq
  | .declare _ e => .declare rfl e.alike_eq
  | .assign _ e => .assign rfl e.alike_eq
  | .block b => .block (stmts_alike_eq b)
  | .branch e b o => .branch e.alike_eq (stmts_alike_eq b) (stmts_alike_eq o)
  | .loop e b => .loop e.alike_eq (stmts_alike_eq b)
  | .function _ _ b => .function rfl (List.forall₂_same.mpr fun _ _ => rfl) (stmts_alike_eq b)
  | .giveBack _ none => .giveBack rfl .none
  | .giveBack _ (some e) => .giveBack rfl (.some e.alike_eq)
theorem stmts_alike_eq : ∀ ss : List Stmt, List.Forall₂ (Stmt.Alike Eq) ss ss
  | [] => .nil
  | s :: ss => .cons s.alike_eq (stmts_alike_eq ss)
end

/-! ## The other way round -/

variable {R : Token → Token → Prop}

mutual
theorem Expr.Alike.flip {e f : Expr} : e.Alike R f → f.Alike (flip R) e
  | .literal h hv hw => .literal h hw hv
  | .name h => .name h
  | .group h => .group h.flip
  | .unary ht h => .unary ht h.flip
  | .binary ht h h' => .binary ht h.flip h'.flip
  | .logical ht h h' => .logical ht h.flip h'.flip
  | .call h hs ht => .call h.flip (exprs_flip hs) ht
theorem exprs_flip {es fs : List Expr} :
    List.Forall₂ (Expr.Alike R) es fs → List.Forall₂ (Expr.Alike (flip R)) fs es
  | .nil => .nil
  | .cons h hs => .cons h.flip (exprs_flip hs)
end

mutual
theorem Stmt.Alike.flip {s s' : Stmt} : s.Alike R s' → s'.Alike (flip R) s
  | .expression h => .expression h.flip
  | .print ht h => .print ht h.flip
  | .declare ht h => .declare ht h.flip
  | .assign ht h => .assign ht h.flip
  | .block hs => .block (stmts_flip hs)
  | .branch h hb ho => .branch h.flip (stmts_flip hb) (stmts_flip ho)
  | .loop h hb => .loop h.flip (stmts_flip hb)
  | .function ht hps hb => .function ht hps.flip (stmts_flip hb)
  | .giveBack ht .none => .giveBack ht .none
  | .giveBack ht (.some h) => .giveBack ht (.some h.flip)
theorem stmts_flip {ss ss' : List Stmt} :
    List.Forall₂ (Stmt.Alike R) ss ss' → List.Forall₂ (Stmt.Alike (flip R)) ss' ss
  | .nil => .nil
  | .cons h hs => .cons h.flip (stmts_flip hs)
end

/-! ## Things made of tokens -/

/-- Things that a relation between tokens relates, as equality does by equal tokens. -/
class Likened (α : Type) where
  rel : (Token → Token → Prop) → α → α → Prop
  rel_eq : ∀ {a b : α}, rel Eq a b ↔ a = b

namespace Likened

variable {α β : Type} [Likened α] [Likened β]

theorem unit_eq {a b : Unit} : True ↔ a = b := by simp

theorem expr_eq {e f : Expr} : e.Alike Eq f ↔ e = f :=
  ⟨Expr.Alike.eq, fun h => h ▸ e.alike_eq⟩

theorem stmt_eq {s s' : Stmt} : s.Alike Eq s' ↔ s = s' :=
  ⟨Stmt.Alike.eq, fun h => h ▸ s.alike_eq⟩

theorem rel_eq_eq : rel Eq = @Eq α := by
  funext a b
  exact propext rel_eq

theorem option_eq {o o' : Option α} : Option.Rel (rel Eq) o o' ↔ o = o' := by
  rw [rel_eq_eq]
  constructor
  · intro h
    cases h with
    | none => rfl
    | some h => rw [h]
  · rintro rfl
    cases o with
    | none => exact .none
    | some a => exact .some rfl

theorem list_eq {as bs : List α} : List.Forall₂ (rel Eq) as bs ↔ as = bs := by
  rw [rel_eq_eq, List.forall₂_eq_eq_eq]

theorem prod_eq {a b : α × β} : rel Eq a.1 b.1 ∧ rel Eq a.2 b.2 ↔ a = b := by
  rw [rel_eq, rel_eq, Prod.ext_iff]

instance : Likened Token := ⟨id, Iff.rfl⟩
instance : Likened Unit := ⟨fun _ _ _ => True, unit_eq⟩
instance : Likened Operator := ⟨fun _ => Eq, Iff.rfl⟩
instance : Likened Expr := ⟨Expr.Alike, expr_eq⟩
instance : Likened Stmt := ⟨Stmt.Alike, stmt_eq⟩
instance : Likened (Option α) := ⟨fun R => Option.Rel (rel R), option_eq⟩
instance : Likened (List α) := ⟨fun R => List.Forall₂ (rel R), list_eq⟩
instance : Likened (α × β) := ⟨fun R a b => rel R a.1 b.1 ∧ rel R a.2 b.2, prod_eq⟩

end Likened

end Naskah
