import Naskah.Proofs.Grammar.Words
import Naskah.Session.Status

/-!
# Braces in programs

A block opens and closes one brace and no other phrase has braces of its own.
So in a program no brace is closed before one is open, and at its end none is
left open.
-/

namespace Naskah

@[simp] theorem braceBalance_nil : braceBalance [] = 0 := rfl

@[simp] theorem braceBalance_append (c d : List Token) :
    braceBalance (c ++ d) = braceBalance c + braceBalance d := by
  simp only [braceBalance, List.countP_append]
  omega

theorem braceBalance_cons (t : Token) (c : List Token) :
    braceBalance (t :: c) = braceBalance [t] + braceBalance c :=
  braceBalance_append [t] c

theorem braceBalance_left {t : Token} (h : t.kind = .mark .leftBrace) : braceBalance [t] = 1 := by
  simp [braceBalance, Token.isMark, h]

theorem braceBalance_right {t : Token} (h : t.kind = .mark .rightBrace) :
    braceBalance [t] = -1 := by
  simp [braceBalance, Token.isMark, h]

def Kind.NoBrace (k : Kind) : Prop := k ≠ .mark .leftBrace ∧ k ≠ .mark .rightBrace

theorem braceBalance_other {t : Token} (h : t.kind.NoBrace) : braceBalance [t] = 0 := by
  have hleft : t.isMark .leftBrace = false := by
    rw [Bool.eq_false_iff]
    exact mt Token.isMark_iff.mp h.1
  have hright : t.isMark .rightBrace = false := by
    rw [Bool.eq_false_iff]
    exact mt Token.isMark_iff.mp h.2
  simp [braceBalance, hleft, hright]

namespace Grammar

/-- A token list in which every brace is closed, and none before it is open. -/
structure Braced (c : List Token) : Prop where
  front : ∀ n, 0 ≤ braceBalance (c.take n)
  whole : braceBalance c = 0

theorem braced_nil : Braced [] := ⟨by simp, rfl⟩

theorem Braced.append {c d : List Token} (hc : Braced c) (hd : Braced d) : Braced (c ++ d) where
  front n := by
    have hcn := hc.front n
    have hdn := hd.front (n - c.length)
    rw [List.take_append, braceBalance_append]
    omega
  whole := by
    rw [braceBalance_append, hc.whole, hd.whole]
    rfl

theorem braced_singleton {t : Token} (h : t.kind.NoBrace) : Braced [t] where
  front n := by
    cases n with
    | zero => simp
    | succ n => simp [braceBalance_other h]
  whole := braceBalance_other h

theorem Braced.cons {t : Token} {c : List Token} (ht : t.kind.NoBrace) (hc : Braced c) :
    Braced (t :: c) :=
  (braced_singleton ht).append hc

theorem braced_of_noBrace {c : List Token} (h : ∀ t ∈ c, t.kind.NoBrace) : Braced c := by
  induction c with
  | nil => exact braced_nil
  | cons t c ih =>
    obtain ⟨ht, hc⟩ := List.forall_mem_cons.mp h
    exact (ih hc).cons ht

theorem Braced.enclose {left right : Token} {c : List Token} (hl : left.kind = .mark .leftBrace)
    (hr : right.kind = .mark .rightBrace) (hc : Braced c) : Braced (left :: (c ++ [right])) where
  front n := by
    cases n with
    | zero => simp
    | succ n =>
      have hcn := hc.front n
      -- the closing brace is in the first `n` tokens or not, and the opening one is
      have hright : -1 ≤ braceBalance ([right].take (n - c.length)) := by
        cases n - c.length with
        | zero => simp
        | succ k => simp [braceBalance_right hr]
      rw [List.take_succ_cons, List.take_append, braceBalance_cons, braceBalance_append,
        braceBalance_left hl]
      omega
  whole := by
    rw [braceBalance_cons, braceBalance_append, braceBalance_left hl,
      braceBalance_right hr, hc.whole]
    rfl

/-! ## Phrases -/

theorem noBrace_keyword {t : Token} {w : Keyword} (h : t.kind = .keyword w) : t.kind.NoBrace := by
  simp [Kind.NoBrace, h]

theorem noBrace_name {t : Token} (h : t.kind = .name) : t.kind.NoBrace := by
  simp [Kind.NoBrace, h]

theorem noBrace_ending {t : Token} (h : t.kind = .ending) : t.kind.NoBrace := by
  simp [Kind.NoBrace, h]

theorem noBrace_mark {t : Token} {m : Mark} (h : t.kind = .mark m)
    (hm : m ∉ [.leftBrace, .rightBrace]) : t.kind.NoBrace := by
  simpa [Kind.NoBrace, h] using hm

theorem InExpression.noBrace {k : Kind} (h : InExpression k) : k.NoBrace := by
  constructor <;> intro hk <;> subst hk <;> simp [InExpression] at h

theorem Ranked.braced {rank : Nat} {c : List Token} {e : Expr} (h : Ranked rank c e) : Braced c :=
  braced_of_noBrace fun t ht => (h.words t ht).noBrace

theorem Closed.braced {c : List Token} {e : Expr} : Closed c e → Braced c
  | .mk h hs => h.braced.append (braced_singleton (noBrace_mark hs (by decide)))

theorem parameters_braced {c params : List Token} (h : Listed Name c params) : Braced c := by
  cases h with
  | none => exact braced_nil
  | some h =>
    induction h with
    | one h =>
      obtain ⟨ht⟩ := h
      exact braced_singleton (noBrace_name ht)
    | more h hcomma _ ih =>
      obtain ⟨ht⟩ := h
      exact (ih.cons (noBrace_mark hcomma (by decide))).cons (noBrace_name ht)

mutual
theorem Declaration.braced {c : List Token} {s : Stmt} : Declaration c s → Braced c
  | .function hk hf hl hc hr hd => by
    have hbody := hd.braced.cons (noBrace_mark hr (by decide))
    have hparams := (parameters_braced hc).append hbody
    exact ((hparams.cons (noBrace_mark hl (by decide))).cons (noBrace_name hf)).cons
      (noBrace_keyword hk)
  | .declare hk hx hs hc =>
    ((hc.braced.cons (noBrace_mark hs (by decide))).cons (noBrace_name hx)).cons
      (noBrace_keyword hk)
  | .assign hx hs hc => (hc.braced.cons (noBrace_mark hs (by decide))).cons (noBrace_name hx)
  | .statement h => h.braced
theorem Statement.braced {c : List Token} {s : Stmt} : Statement c s → Braced c
  | .print hk hc => hc.braced.cons (noBrace_keyword hk)
  | .block h => h.braced
  | .branch h => h.braced
  | .loop hk hc hd => (hc.braced.append hd.braced).cons (noBrace_keyword hk)
  | .giveBackNothing hk hs =>
    (braced_singleton (noBrace_mark hs (by decide))).cons (noBrace_keyword hk)
  | .giveBack hk hc => hc.braced.cons (noBrace_keyword hk)
  | .expression h => h.braced
theorem Branch.braced {c : List Token} {s : Stmt} : Branch c s → Braced c
  | .mk hk hc hd ho => (hc.braced.append (hd.braced.append ho.braced)).cons (noBrace_keyword hk)
theorem Otherwise.braced {c : List Token} {ss : List Stmt} : Otherwise c ss → Braced c
  | .missing => braced_nil
  | .branch hk h => h.braced.cons (noBrace_keyword hk)
  | .block hk h => h.braced.cons (noBrace_keyword hk)
theorem Block.braced {c : List Token} {ss : List Stmt} : Block c ss → Braced c
  | .mk hl h hr => h.braced.enclose hl hr
theorem Declarations.braced {c : List Token} {ss : List Stmt} : Declarations c ss → Braced c
  | .nil => braced_nil
  | .cons h hs => h.braced.append hs.braced
end

end Grammar

end Naskah
