import Naskah.Proofs.Grammar.Words

/-!
# Trees and their tokens

A tree keeps a token for each place where it may fail and for each name that it
binds. In the trees of the grammar each of them is a token of the list that was
read, of the kind that belongs to its place: an operator stands at the token
that is this operator, a call at its closing parenthesis.
-/

namespace Naskah

/-! ## Trees that fit their tokens -/

/-- The tokens kept for names and faults are in `T` and of the kinds of their places. -/
inductive Expr.Fits (T : Token → Prop) : Expr → Prop
  | literal (v : Literal) (line : Nat) : Fits T (.literal v line)
  | name {t} : T t → t.kind = .name → Fits T (.name t)
  | group {e} : Fits T e → Fits T (.group e)
  | unary {op t e} : T t → UnaryOp.ofKind? t.kind = some op → Fits T e → Fits T (.unary op t e)
  | binary {op t e e'} : T t → BinaryOp.ofKind? t.kind = some op → Fits T e → Fits T e' →
      Fits T (.binary op t e e')
  | logical {op t e e'} : Fits T e → Fits T e' → Fits T (.logical op t e e')
  | call {e es t} : Fits T e → (∀ e ∈ es, Fits T e) → T t → t.kind = .mark .rightParen →
      Fits T (.call e es t)

inductive Stmt.Fits (T : Token → Prop) : Stmt → Prop
  | expression {e} : e.Fits T → Fits T (.expression e)
  | print {t e} : T t → t.kind = .keyword .cetak → e.Fits T → Fits T (.print t e)
  | declare {t e} : T t → t.kind = .name → e.Fits T → Fits T (.declare t e)
  | assign {t e} : T t → t.kind = .name → e.Fits T → Fits T (.assign t e)
  | block {b} : (∀ s ∈ b, Fits T s) → Fits T (.block b)
  | branch {e b o} : e.Fits T → (∀ s ∈ b, Fits T s) → (∀ s ∈ o, Fits T s) → Fits T (.branch e b o)
  | loop {e b} : e.Fits T → (∀ s ∈ b, Fits T s) → Fits T (.loop e b)
  | function {t ps b} : T t → t.kind = .name → (∀ p ∈ ps, T p ∧ p.kind = .name) →
      (∀ s ∈ b, Fits T s) → Fits T (.function t ps b)
  | giveBack {t value} : T t → t.kind = .keyword .balikin → (∀ e, value = some e → e.Fits T) →
      Fits T (.giveBack t value)

namespace Grammar

variable {T : Token → Prop}

/-! ## Expressions -/

theorem Sign.ofKind? {rank : Nat} {k : Kind} {op : BinaryOp} (h : Sign rank k (.binary op)) :
    BinaryOp.ofKind? k = some op := by
  cases h <;> rfl

theorem node_fits {rank : Nat} {t : Token} {op : Operator} {left right : Expr} (hT : T t)
    (ht : Sign rank t.kind op) (hl : left.Fits T) (hr : right.Fits T) :
    (op.node t left right).Fits T := by
  cases op with
  | binary op => exact .binary hT ht.ofKind? hl hr
  | logical op => exact .logical hl hr

mutual
theorem Ranked.fits {rank : Nat} {c : List Token} {e : Expr} :
    Ranked rank c e → (∀ t ∈ c, T t) → e.Fits T
  | .unary h, hc => h.fits hc
  | .operand h, hc => h.fits hc
  | .operation hl ht hr, hc => by
    obtain ⟨hc, hd⟩ := List.forall_mem_append.mp hc
    obtain ⟨hT, hd⟩ := List.forall_mem_cons.mp hd
    exact node_fits hT ht (hl.fits hc) (hr.fits hd)
theorem Unary.fits {c : List Token} {e : Expr} : Unary c e → (∀ t ∈ c, T t) → e.Fits T
  | .sign ht h, hc => by
    obtain ⟨hT, hc⟩ := List.forall_mem_cons.mp hc
    exact .unary hT (unarySign_iff.mp ht) (h.fits hc)
  | .call h, hc => h.fits hc
theorem Call.fits {c : List Token} {e : Expr} : Call c e → (∀ t ∈ c, T t) → e.Fits T
  | .primary h, hc => h.fits hc
  | .call h _ ha hr, hc => by
    obtain ⟨hc, hd⟩ := List.forall_mem_append.mp hc
    obtain ⟨hd, hT⟩ := List.forall_mem_append.mp (List.forall_mem_cons.mp hd).2
    exact .call (h.fits hc) (arguments_fits ha hd) (hT _ List.mem_cons_self) hr
theorem Primary.fits {c : List Token} {e : Expr} : Primary c e → (∀ t ∈ c, T t) → e.Fits T
  | .constant _, _ => .literal _ _
  | .name ht, hc => .name (hc _ List.mem_cons_self) ht
  | .group _ h _, hc => by
    obtain ⟨hc, -⟩ := List.forall_mem_append.mp (List.forall_mem_cons.mp hc).2
    exact .group (h.fits hc)
theorem arguments_fits {c : List Token} {es : List Expr} :
    Listed (Ranked Rank.disjunction) c es → (∀ t ∈ c, T t) → ∀ e ∈ es, e.Fits T
  | .none, _ => by simp
  | .some h, hc => separated_fits h hc
theorem separated_fits {c : List Token} {es : List Expr} :
    Separated (Ranked Rank.disjunction) c es → (∀ t ∈ c, T t) → ∀ e ∈ es, e.Fits T
  | .one h, hc => by
    have he := h.fits hc
    simpa using he
  | .more h _ hs, hc => by
    obtain ⟨hc, hd⟩ := List.forall_mem_append.mp hc
    exact List.forall_mem_cons.mpr ⟨h.fits hc, separated_fits hs (List.forall_mem_cons.mp hd).2⟩
end

theorem Closed.fits {c : List Token} {e : Expr} : Closed c e → (∀ t ∈ c, T t) → e.Fits T
  | .mk h _, hc => h.fits (List.forall_mem_append.mp hc).1

/-! ## Statements -/

theorem names_fit {c ps : List Token} (h : Separated Name c ps) (hc : ∀ t ∈ c, T t) :
    ∀ p ∈ ps, T p ∧ p.kind = .name := by
  induction h with
  | one hp =>
    cases hp with
    | mk hp =>
      rw [List.forall_mem_singleton] at hc ⊢
      exact ⟨hc, hp⟩
  | more hp _ _ ih =>
    cases hp with
    | mk hp =>
      simp only [List.forall_mem_cons, List.forall_mem_append] at hc ⊢
      exact ⟨⟨hc.1.1, hp⟩, ih hc.2.2⟩

theorem params_fit {c ps : List Token} (h : Listed Name c ps) (hc : ∀ t ∈ c, T t) :
    ∀ p ∈ ps, T p ∧ p.kind = .name := by
  cases h with
  | none => simp
  | some h => exact names_fit h hc

mutual
theorem Declaration.fits {c : List Token} {s : Stmt} : Declaration c s → (∀ t ∈ c, T t) → s.Fits T
  | .function _ hname _ hps _ h, hc => by
    simp only [List.forall_mem_cons, List.forall_mem_append] at hc
    obtain ⟨-, hT, -, hc, -, hd⟩ := hc
    exact .function hT hname (params_fit hps hc) (h.fits hd)
  | .declare _ hname _ h, hc => by
    simp only [List.forall_mem_cons] at hc
    exact .declare hc.2.1 hname (h.fits hc.2.2.2)
  | .assign hname _ h, hc => by
    simp only [List.forall_mem_cons] at hc
    exact .assign hc.1 hname (h.fits hc.2.2)
  | .statement h, hc => h.fits hc
theorem Statement.fits {c : List Token} {s : Stmt} : Statement c s → (∀ t ∈ c, T t) → s.Fits T
  | .print hk h, hc => by
    obtain ⟨hT, hc⟩ := List.forall_mem_cons.mp hc
    exact .print hT hk (h.fits hc)
  | .block h, hc => .block (h.fits hc)
  | .branch h, hc => h.fits hc
  | .loop _ h hb, hc => by
    obtain ⟨hc, hd⟩ := List.forall_mem_append.mp (List.forall_mem_cons.mp hc).2
    exact .loop (h.fits hc) (hb.fits hd)
  | .giveBackNothing hk _, hc => .giveBack (hc _ List.mem_cons_self) hk nofun
  | .giveBack hk h, hc => by
    obtain ⟨hT, hc⟩ := List.forall_mem_cons.mp hc
    refine .giveBack hT hk fun e he => ?_
    cases he
    exact h.fits hc
  | .expression h, hc => .expression (h.fits hc)
theorem Branch.fits {c : List Token} {s : Stmt} : Branch c s → (∀ t ∈ c, T t) → s.Fits T
  | .mk _ h hb ho, hc => by
    obtain ⟨hc, hd⟩ := List.forall_mem_append.mp (List.forall_mem_cons.mp hc).2
    obtain ⟨hd, hrest⟩ := List.forall_mem_append.mp hd
    exact .branch (h.fits hc) (hb.fits hd) (ho.fits hrest)
theorem Otherwise.fits {c : List Token} {ss : List Stmt} :
    Otherwise c ss → (∀ t ∈ c, T t) → ∀ s ∈ ss, s.Fits T
  | .missing, _ => by simp
  | .branch _ h, hc => by
    have hs := h.fits (List.forall_mem_cons.mp hc).2
    simpa using hs
  | .block _ h, hc => h.fits (List.forall_mem_cons.mp hc).2
theorem Block.fits {c : List Token} {ss : List Stmt} :
    Block c ss → (∀ t ∈ c, T t) → ∀ s ∈ ss, s.Fits T
  | .mk _ h _, hc => h.fits (List.forall_mem_append.mp (List.forall_mem_cons.mp hc).2).1
theorem Declarations.fits {c : List Token} {ss : List Stmt} :
    Declarations c ss → (∀ t ∈ c, T t) → ∀ s ∈ ss, s.Fits T
  | .nil, _ => by simp
  | .cons h hs, hc => by
    obtain ⟨hc, hd⟩ := List.forall_mem_append.mp hc
    exact List.forall_mem_cons.mpr ⟨h.fits hc, hs.fits hd⟩
end

end Grammar

end Naskah
