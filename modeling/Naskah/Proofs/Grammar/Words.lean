import Naskah.Proofs.Grammar.Basic
import Naskah.Tree.Parser

/-!
# The words of phrases

Which tokens an expression can hold, and with which tokens expressions and
declarations begin. What ends an expression in a statement is never part of
one, what ends a block or a branch begins no declaration, and no phrase holds
the ending of a list.
-/

namespace Naskah

theorem Token.isMark_iff {t : Token} {m : Mark} : t.isMark m = true ↔ t.kind = .mark m := by
  unfold Token.isMark
  cases h : t.kind <;> simp

theorem Token.isKeyword_iff {t : Token} {k : Keyword} :
    t.isKeyword k = true ↔ t.kind = .keyword k := by
  unfold Token.isKeyword
  cases h : t.kind <;> simp

theorem Token.isName_iff {t : Token} : t.isName = true ↔ t.kind = .name := by
  unfold Token.isName
  cases h : t.kind <;> simp

theorem Token.isEnding_iff {t : Token} : t.isEnding = true ↔ t.kind = .ending := by
  unfold Token.isEnding
  cases h : t.kind <;> simp

namespace Grammar

theorem sign_iff {rank : Nat} {k : Kind} {op : Operator} :
    Sign rank k op ↔ Operator.ofKind? k = some op ∧ op.rank = rank := by
  constructor
  · intro h
    cases h <;> exact ⟨rfl, rfl⟩
  · rintro ⟨h, rfl⟩
    cases k with
    | keyword w =>
      cases w <;> simp [Operator.ofKind?, BinaryOp.ofKind?, LogicalOp.ofKind?] at h <;>
        subst h <;> constructor
    | mark m =>
      cases m <;> simp [Operator.ofKind?, BinaryOp.ofKind?, LogicalOp.ofKind?] at h <;>
        subst h <;> constructor
    | _ => simp [Operator.ofKind?, BinaryOp.ofKind?, LogicalOp.ofKind?] at h

theorem unarySign_iff {k : Kind} {op : UnaryOp} : UnarySign k op ↔ UnaryOp.ofKind? k = some op := by
  constructor
  · intro h
    cases h <;> rfl
  · intro h
    unfold UnaryOp.ofKind? at h
    split at h
    · cases h; exact .negate
    · cases h; exact .not
    · cases h

theorem constant_iff {t : Token} {v : Literal} : Constant t.kind v ↔ t.literal? = some v := by
  unfold Token.literal?
  constructor
  · intro h
    generalize t.kind = k at h
    cases h <;> rfl
  · intro h
    split at h <;> cases h
    all_goals rename_i hk; rw [hk]; constructor

theorem Listed.imp {α : Type} {D D' : Phrases α} (hD : ∀ c a, D c a → D' c a)
    {c : List Token} {as : List α} (h : Listed D c as) : Listed D' c as := by
  cases h with
  | none => exact .none
  | some h =>
    refine .some ?_
    induction h with
    | one h => exact .one (hD _ _ h)
    | more h hc _ ih => exact .more (hD _ _ h) hc ih

theorem Primary.expression {c : List Token} {e : Expr} (h : Primary c e) : Expression c e :=
  .operand (.operand (.operand (.operand (.operand (.operand (.unary (.call (.primary h))))))))

/-! ## The words of expressions -/

def InExpression : Kind → Prop
  | .name | .number _ | .text _ => True
  | .keyword w => w ∈ [.benar, .salah, .kosong, .dan, .atau]
  | .mark m => m ∉ [.leftBrace, .rightBrace, .semicolon, .equals, .dot]
  | _ => False

def BeginsPrimary : Kind → Prop
  | .name | .number _ | .text _ => True
  | .keyword w => w ∈ [.benar, .salah, .kosong]
  | .mark m => m = .leftParen
  | _ => False

def BeginsExpression (k : Kind) : Prop :=
  BeginsPrimary k ∨ k = .mark .minus ∨ k = .mark .bang

theorem BeginsPrimary.inExpression {k : Kind} (h : BeginsPrimary k) : InExpression k := by
  cases k with
  | keyword w => cases w <;> simp_all [BeginsPrimary, InExpression]
  | mark m => cases m <;> simp_all [BeginsPrimary, InExpression]
  | _ => exact h

theorem BeginsPrimary.unaryOp {k : Kind} (h : BeginsPrimary k) : UnaryOp.ofKind? k = none := by
  unfold UnaryOp.ofKind?
  split <;> simp_all [BeginsPrimary]

theorem Sign.inExpression {rank : Nat} {k : Kind} {op : Operator} (h : Sign rank k op) :
    InExpression k := by
  cases h <;> simp [InExpression]

theorem UnarySign.inExpression {k : Kind} {op : UnaryOp} (h : UnarySign k op) : InExpression k := by
  cases h <;> simp [InExpression]

theorem UnarySign.begins {k : Kind} {op : UnaryOp} (h : UnarySign k op) : BeginsExpression k := by
  cases h <;> simp [BeginsExpression]

theorem Constant.begins {k : Kind} {v : Literal} (h : Constant k v) : BeginsPrimary k := by
  cases h <;> simp [BeginsPrimary]

theorem inExpression_mark {t : Token} {m : Mark} (h : t.kind = .mark m)
    (hm : m ∉ [.leftBrace, .rightBrace, .semicolon, .equals, .dot]) : InExpression t.kind := by
  rw [h]; exact hm

mutual
theorem Ranked.words {rank : Nat} {c : List Token} {e : Expr} :
    Ranked rank c e → ∀ t ∈ c, InExpression t.kind
  | .unary h => h.words
  | .operand h => h.words
  | .operation hl ht hr =>
    List.forall_mem_append.mpr ⟨hl.words, List.forall_mem_cons.mpr ⟨ht.inExpression, hr.words⟩⟩
theorem Unary.words {c : List Token} {e : Expr} : Unary c e → ∀ t ∈ c, InExpression t.kind
  | .sign ht h => List.forall_mem_cons.mpr ⟨ht.inExpression, h.words⟩
  | .call h => h.words
theorem Call.words {c : List Token} {e : Expr} : Call c e → ∀ t ∈ c, InExpression t.kind
  | .primary h => h.words
  | .call h hl ha hr => by
    have hl := inExpression_mark hl (by decide)
    have hr := inExpression_mark hr (by decide)
    have ha := arguments_words ha
    simp only [List.forall_mem_append, List.forall_mem_cons]
    exact ⟨h.words, hl, ha, hr, by simp⟩
theorem Primary.words {c : List Token} {e : Expr} : Primary c e → ∀ t ∈ c, InExpression t.kind
  | .constant h => by
    simpa using h.begins.inExpression
  | .name h => by
    simp [h, InExpression]
  | .group hl h hr => by
    have hl := inExpression_mark hl (by decide)
    have hr := inExpression_mark hr (by decide)
    simp only [List.forall_mem_append, List.forall_mem_cons]
    exact ⟨hl, h.words, hr, by simp⟩
theorem arguments_words {c : List Token} {es : List Expr} :
    Listed (Ranked Rank.disjunction) c es → ∀ t ∈ c, InExpression t.kind
  | .none => by simp
  | .some h => separated_words h
theorem separated_words {c : List Token} {es : List Expr} :
    Separated (Ranked Rank.disjunction) c es → ∀ t ∈ c, InExpression t.kind
  | .one h => h.words
  | .more h ht hs =>
    List.forall_mem_append.mpr
      ⟨h.words, List.forall_mem_cons.mpr ⟨inExpression_mark ht (by decide), separated_words hs⟩⟩
end

/-! ## First words -/

def Begins (P : Kind → Prop) (c : List Token) : Prop := ∃ t d, c = t :: d ∧ P t.kind

theorem Begins.append {P : Kind → Prop} {c : List Token} (h : Begins P c) (d : List Token) :
    Begins P (c ++ d) := by
  obtain ⟨t, c, rfl, ht⟩ := h
  exact ⟨t, c ++ d, rfl, ht⟩

theorem Begins.mono {P Q : Kind → Prop} {c : List Token} (h : Begins P c) (hPQ : ∀ k, P k → Q k) :
    Begins Q c := by
  obtain ⟨t, c, rfl, ht⟩ := h
  exact ⟨t, c, rfl, hPQ _ ht⟩

theorem Begins.ne_nil {P : Kind → Prop} {c : List Token} (h : Begins P c) : c ≠ [] := by
  obtain ⟨t, c, rfl, -⟩ := h
  simp

theorem Begins.front {P : Kind → Prop} {c : List Token} (h : Begins P c) (r : List Token) :
    P (front (c ++ r)).kind := by
  obtain ⟨t, c, rfl, ht⟩ := h
  exact ht

theorem Primary.begins {c : List Token} {e : Expr} : Primary c e → Begins BeginsPrimary c
  | .constant h => ⟨_, _, rfl, h.begins⟩
  | .name h => ⟨_, _, rfl, by simp [h, BeginsPrimary]⟩
  | .group h _ _ => ⟨_, _, rfl, by simp [h, BeginsPrimary]⟩

theorem Call.begins {c : List Token} {e : Expr} : Call c e → Begins BeginsPrimary c
  | .primary h => h.begins
  | .call h _ _ _ => h.begins.append _

theorem Unary.begins {c : List Token} {e : Expr} : Unary c e → Begins BeginsExpression c
  | .sign ht _ => ⟨_, _, rfl, ht.begins⟩
  | .call h => h.begins.mono fun _ => Or.inl

theorem Ranked.begins {rank : Nat} {c : List Token} {e : Expr} :
    Ranked rank c e → Begins BeginsExpression c
  | .unary h => h.begins
  | .operand h => h.begins
  | .operation h _ _ => h.begins.append _

def BeginsDeclaration (k : Kind) : Prop :=
  BeginsExpression k ∨ k = .mark .leftBrace ∨
    ∃ w ∈ [Keyword.fungsi, .misal, .cetak, .jika, .selama, .balikin], k = .keyword w

theorem beginsDeclaration_keyword {t : Token} {w : Keyword} {d : List Token}
    (h : t.kind = .keyword w)
    (hw : w ∈ [Keyword.fungsi, .misal, .cetak, .jika, .selama, .balikin]) :
    Begins BeginsDeclaration (t :: d) :=
  ⟨t, d, rfl, .inr (.inr ⟨w, hw, h⟩)⟩

theorem BeginsDeclaration.ne {k : Kind} (h : BeginsDeclaration k) :
    k ≠ .keyword .lain ∧ k ≠ .mark .rightBrace ∧ k ≠ .ending := by
  refine ⟨?_, ?_, ?_⟩ <;> rintro rfl <;>
    simp [BeginsDeclaration, BeginsExpression, BeginsPrimary] at h

theorem Closed.begins {c : List Token} {e : Expr} : Closed c e → Begins BeginsExpression c
  | .mk h _ => h.begins.append _

theorem Block.begins {c : List Token} {ss : List Stmt} :
    Block c ss → Begins (· = .mark .leftBrace) c
  | .mk h _ _ => ⟨_, _, rfl, h⟩

theorem Branch.begins {c : List Token} {s : Stmt} : Branch c s → Begins (· = .keyword .jika) c
  | .mk h _ _ _ => ⟨_, _, rfl, h⟩

theorem Statement.begins {c : List Token} {s : Stmt} : Statement c s → Begins BeginsDeclaration c
  | .print h _ => beginsDeclaration_keyword h (by decide)
  | .block h => h.begins.mono (by rintro _ rfl; simp [BeginsDeclaration])
  | .branch h => h.begins.mono (by rintro _ rfl; simp [BeginsDeclaration])
  | .loop h _ _ => beginsDeclaration_keyword h (by decide)
  | .giveBackNothing h _ => beginsDeclaration_keyword h (by decide)
  | .giveBack h _ => beginsDeclaration_keyword h (by decide)
  | .expression h => h.begins.mono fun _ => Or.inl

theorem Declaration.begins {c : List Token} {s : Stmt} :
    Declaration c s → Begins BeginsDeclaration c
  | .function h _ _ _ _ _ => beginsDeclaration_keyword h (by decide)
  | .declare h _ _ _ => beginsDeclaration_keyword h (by decide)
  | .assign h _ _ => ⟨_, _, rfl, by simp [h, BeginsDeclaration, BeginsExpression, BeginsPrimary]⟩
  | .statement h => h.begins

/-! ## Endings -/

theorem InExpression.ne_ending {k : Kind} (h : InExpression k) : k ≠ .ending := by
  rintro rfl
  exact h

theorem Ranked.unended {rank : Nat} {c : List Token} {e : Expr} (h : Ranked rank c e) :
    ∀ t ∈ c, t.kind ≠ .ending :=
  fun t ht => (h.words t ht).ne_ending

theorem Closed.unended {c : List Token} {e : Expr} : Closed c e → ∀ t ∈ c, t.kind ≠ .ending
  | .mk h hs => by
    have hc := h.unended
    simp only [List.forall_mem_append, List.forall_mem_cons, hs]
    exact ⟨hc, by simp⟩

theorem parameters_unended {c : List Token} {params : List Token} (h : Listed Name c params) :
    ∀ t ∈ c, t.kind ≠ .ending := by
  cases h with
  | none => simp
  | some h =>
    induction h with
    | one h =>
      obtain ⟨ht⟩ := h
      simp [ht]
    | more h hcomma _ ih =>
      obtain ⟨ht⟩ := h
      simp only [List.forall_mem_append, List.forall_mem_cons, hcomma, ht]
      exact ⟨by simp, by simp, ih⟩

mutual
theorem Declaration.unended {c : List Token} {s : Stmt} :
    Declaration c s → ∀ t ∈ c, t.kind ≠ .ending
  | .function hk hf hl hc hr hd => by
    have hc := parameters_unended hc
    have hd := hd.unended
    simp only [List.forall_mem_append, List.forall_mem_cons, hk, hf, hl, hr]
    exact ⟨by simp, by simp, by simp, hc, by simp, hd⟩
  | .declare hk hx hs hc => by
    have hc := hc.unended
    simp only [List.forall_mem_cons, hk, hx, hs]
    exact ⟨by simp, by simp, by simp, hc⟩
  | .assign hx hs hc => by
    have hc := hc.unended
    simp only [List.forall_mem_cons, hx, hs]
    exact ⟨by simp, by simp, hc⟩
  | .statement h => h.unended
theorem Statement.unended {c : List Token} {s : Stmt} : Statement c s → ∀ t ∈ c, t.kind ≠ .ending
  | .print hk hc | .giveBack hk hc => by
    have hc := hc.unended
    simp only [List.forall_mem_cons, hk]
    exact ⟨by simp, hc⟩
  | .block h => h.unended
  | .branch h => h.unended
  | .loop hk hc hd => by
    have hc := hc.unended
    have hd := hd.unended
    simp only [List.forall_mem_append, List.forall_mem_cons, hk]
    exact ⟨by simp, hc, hd⟩
  | .giveBackNothing hk hs => by simp [hk, hs]
  | .expression h => h.unended
theorem Branch.unended {c : List Token} {s : Stmt} : Branch c s → ∀ t ∈ c, t.kind ≠ .ending
  | .mk hk hc hd ho => by
    have hc := hc.unended
    have hd := hd.unended
    have ho := ho.unended
    simp only [List.forall_mem_append, List.forall_mem_cons, hk]
    exact ⟨by simp, hc, hd, ho⟩
theorem Otherwise.unended {c : List Token} {ss : List Stmt} :
    Otherwise c ss → ∀ t ∈ c, t.kind ≠ .ending
  | .missing => by simp
  | .branch hk h => by
    have h := h.unended
    simp only [List.forall_mem_cons, hk]
    exact ⟨by simp, h⟩
  | .block hk h => by
    have h := h.unended
    simp only [List.forall_mem_cons, hk]
    exact ⟨by simp, h⟩
theorem Block.unended {c : List Token} {ss : List Stmt} : Block c ss → ∀ t ∈ c, t.kind ≠ .ending
  | .mk hl h hr => by
    have h := h.unended
    simp only [List.forall_mem_append, List.forall_mem_cons, hl, hr]
    exact ⟨by simp, h, by simp⟩
theorem Declarations.unended {c : List Token} {ss : List Stmt} :
    Declarations c ss → ∀ t ∈ c, t.kind ≠ .ending
  | .nil => by simp
  | .cons h hs => List.forall_mem_append.mpr ⟨h.unended, hs.unended⟩
end

end Grammar

end Naskah
