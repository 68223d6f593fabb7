import Naskah.Proofs.Parser.Step

/-!
# Reading expressions

What the grammar derives is read as such: in front of a token that cannot
prolong it, an expression is read whole, without an error, and as its own
tree. An operator or a further argument list prolongs the phrase before it, so
for a rank and for a call the statement is that reading the phrase leaves its
parser where it is about to go on with the tree of the phrase.
-/

namespace Naskah

namespace Grammar

open Naskah.Parser

/-! ## Comma lists -/

/-- A phrase that `p` reads in front of a comma or a closing parenthesis, in
lists of at most `n` tokens. -/
structure Readable {α : Type} (p : Parser α) (n : Nat) (c : List Token) (a : α) : Prop where
  begins : Begins (· ≠ .mark .rightParen) c
  reads : ∀ r, (c ++ r).length ≤ n → (front r).kind ∈ [.mark .comma, .mark .rightParen] →
    p (c ++ r) = ⟨.ok a, [], r⟩

theorem separated_begins {α : Type} {p : Parser α} {n : Nat} {c : List Token} {as : List α}
    (h : Separated (Readable p n) c as) : Begins (· ≠ .mark .rightParen) c := by
  cases h with
  | one h => exact h.begins
  | more h _ _ => exact h.begins.append _

theorem separated_read {α : Type} {p : Parser α} {n : Nat} {right : Token}
    (hr : right.kind = .mark .rightParen) (r : List Token) {c : List Token} {as : List α}
    (h : Separated (Readable p n) c as) :
    ∀ b, (c ++ right :: r).length ≤ n → c.length ≤ b →
      (do let first ← p; let more ← many (commaItem p) b; pure (first :: more)) (c ++ right :: r) =
        ⟨.ok as, [], right :: r⟩ := by
  induction h with
  | one h =>
    intro b hn _
    rw [bind_of_ok (h.reads _ hn (by simp [front, hr]))]
    have stop : commaItem p (right :: r) = ⟨.ok none, [], right :: r⟩ := by
      unfold commaItem
      rw [peek_bind, if_neg (by simp [front, Token.isMark, hr])]
      rfl
    rw [bind_of_ok (many_of_none stop b)]
    rfl
  | @more c comma d a as h hc hs ih =>
    intro b hn hb
    rw [List.append_assoc, List.cons_append] at hn ⊢
    simp only [List.length_append, List.length_cons] at hn hb
    rw [bind_of_ok (h.reads _ (by simp; omega) (by simp [front, hc]))]
    obtain ⟨b, rfl⟩ : ∃ b', b = b' + 1 := ⟨b - 1, by omega⟩
    have ih := ih b (by simp; omega) (by omega)
    -- behind a comma the items that follow are read as the list was from its start
    have step : many (commaItem p) (b + 1) (comma :: (d ++ right :: r)) =
        (do let first ← p; let more ← many (commaItem p) b; pure (first :: more))
          (d ++ right :: r) := by
      rw [many, commaItem, bind_assoc, peek_bind,
        if_pos (by simp [front, Token.isMark, hc]), bind_assoc, skip_bind (by simp [hc])]
      simp
    rw [bind_of_ok (step.trans ih)]
    rfl

theorem commaList_read {α : Type} {p : Parser α} {n b : Nat} {right : Token}
    (hr : right.kind = .mark .rightParen) {c r : List Token} {as : List α}
    (h : Listed (Readable p n) c as) (hn : (c ++ right :: r).length ≤ n) (hb : n ≤ b)
    (x : Expectation) : commaList b p x (c ++ right :: r) = ⟨.ok (as, right), [], r⟩ := by
  unfold commaList
  rw [peek_bind]
  cases h with
  | none =>
    rw [if_pos (by simp [front, Token.isMark, hr]), List.nil_append, skip_bind (by simp [hr])]
    rfl
  | some h =>
    have hf : ¬ (front (c ++ right :: r)).isMark .rightParen = true := by
      rw [Token.isMark_iff]; exact (separated_begins h).front _
    have hread := separated_read hr r h b hn (by simp at hn; omega)
    have split : (do
        let first ← p
        let more ← many (commaItem p) b
        let close ← mark .rightParen x
        pure (first :: more, close)) =
        (do let first ← p; let more ← many (commaItem p) b; pure (first :: more)) >>= fun as =>
          mark .rightParen x >>= fun close => pure (as, close) := by
      simp
    rw [if_neg hf, split, bind_of_ok hread, mark_bind hr]
    rfl

/-! ## Expressions -/

def Follows (rank : Nat) (t : Token) : Prop :=
  t.kind ≠ .mark .leftParen ∧ ∀ op, Operator.ofKind? t.kind = some op → rank ≤ op.rank

theorem Follows.mono {rank rank' : Nat} {t : Token} (h : Follows rank t) (hr : rank' ≤ rank) :
    Follows rank' t :=
  ⟨h.1, fun op hop => Nat.le_trans hr (h.2 op hop)⟩

theorem Sign.follows {rank : Nat} {t : Token} {op : Operator} (h : Sign rank t.kind op) :
    Follows rank t := by
  obtain ⟨hk, hr⟩ := sign_iff.mp h
  refine ⟨?_, ?_⟩
  · intro ht
    rw [ht] at hk
    cases hk
  · intro op' hop'
    rw [hk] at hop'
    cases hop'
    exact Nat.le_of_eq hr.symm

theorem follows_of_kind {t : Token} {m : Mark} (h : t.kind = .mark m)
    (hm : m ∈ [Mark.comma, .rightParen, .semicolon, .leftBrace]) (rank : Nat) : Follows rank t := by
  unfold Follows
  rw [h]
  cases m <;> simp [Operator.ofKind?, BinaryOp.ofKind?, LogicalOp.ofKind?] at hm ⊢

/-- What is left to read of an expression of a rank, given one already read. -/
def resume (b : Nat) (unary : Parser Expr) (b' : Nat) : Nat → Expr → Parser Expr
  | 0, e => pure e
  | rank + 1, e =>
    goOn (operation (rank + 1) (ranked b unary rank))
      (fun left (op, t, right) => op.node t left right) b' e

theorem operation_stop {rank : Nat} {r : List Token} (h : Follows (rank + 1) (front r))
    (p : Parser Expr) : operation rank p r = ⟨.ok none, [], r⟩ := by
  unfold operation
  rw [peek_bind]
  cases hop : Operator.ofKind? (front r).kind with
  | none => rfl
  | some op =>
    have : ¬ op.rank = rank := by have := h.2 op hop; omega
    simp only [if_neg this]
    rfl

theorem resume_stop {rank : Nat} {r : List Token} (h : Follows (rank + 1) (front r)) (b b' : Nat)
    (unary : Parser Expr) (e : Expr) : resume b unary b' rank e r = ⟨.ok e, [], r⟩ := by
  cases rank with
  | zero => rfl
  | succ rank => exact goOn_of_none (operation_stop h _) _ _ _

theorem operation_read {rank : Nat} {p : Parser Expr} {t : Token} {op : Operator} {right : Expr}
    {ts r : List Token} (h : Sign rank t.kind op) (hp : p ts = ⟨.ok right, [], r⟩) :
    operation rank p (t :: ts) = ⟨.ok (some (op, t, right)), [], r⟩ := by
  obtain ⟨hk, hr⟩ := sign_iff.mp h
  have ht : t.kind ≠ .ending := by intro ht; rw [ht] at hk; cases hk
  unfold operation
  rw [peek_bind, front, hk]
  simp only [if_pos hr]
  rw [skip_bind ht, bind_of_ok hp]
  rfl

theorem readable_of_goesOn {n b : Nat} {unary : Parser Expr} {c : List Token} {e : Expr}
    (hc : Begins BeginsExpression c)
    (h : ∀ r, (c ++ r).length ≤ n → Follows Rank.disjunction (front r) → ∃ b', r.length ≤ b' ∧
      ranked b unary Rank.disjunction (c ++ r) = resume b unary b' Rank.disjunction e r) :
    Readable (ranked b unary Rank.disjunction) n c e := by
  refine ⟨hc.mono ?_, ?_⟩
  · rintro _ hk rfl
    simp [BeginsExpression, BeginsPrimary] at hk
  · intro r hn hr
    have hfollows : ∀ rank, Follows rank (front r) := by
      simp only [List.mem_cons, List.not_mem_nil, or_false] at hr
      rcases hr with hr | hr <;> exact follows_of_kind hr (by decide)
    obtain ⟨b', -, hread⟩ := h r hn (hfollows _)
    rw [hread, resume_stop (hfollows _)]

def resumeCall (b : Nat) (expr : Parser Expr) (b' : Nat) (e : Expr) : Parser Expr :=
  goOn (arguments b expr) (fun callee (args, paren) => .call callee args paren) b' e

theorem arguments_stop {r : List Token} (h : (front r).kind ≠ .mark .leftParen) (b : Nat)
    (p : Parser Expr) : arguments b p r = ⟨.ok none, [], r⟩ := by
  unfold arguments
  rw [peek_bind, if_neg (by rw [Token.isMark_iff]; exact h)]
  rfl

theorem arguments_read {b : Nat} {p : Parser Expr} {left right : Token}
    (hl : left.kind = .mark .leftParen) {ts r : List Token} {args : List Expr}
    (h : commaList b p .argumentsEnd ts = ⟨.ok (args, right), [], r⟩) :
    arguments b p (left :: ts) = ⟨.ok (some (args, right)), [], r⟩ := by
  unfold arguments
  rw [peek_bind, if_pos (by simp [front, Token.isMark, hl]), skip_bind (by simp [hl]), bind_of_ok h]
  rfl

mutual
theorem Ranked.goesOn {rank : Nat} {c : List Token} {e : Expr} :
    Ranked rank c e → ∀ (r : List Token) (n b : Nat),
    (c ++ r).length ≤ n → n ≤ b → Follows rank (front r) →
    ∃ b', r.length ≤ b' ∧
    ranked b (unaryWithin n) rank (c ++ r) = resume b (unaryWithin n) b' rank e r
  | .unary h => by
    intro r n b hn _ hr
    exact ⟨r.length, Nat.le_refl _, h.read r n hn hr.1⟩
  | .operand h => by
    intro r n b hn hb hr
    obtain ⟨b', -, hread⟩ := h.goesOn r n b hn hb (hr.mono (by omega))
    rw [resume_stop hr] at hread
    refine ⟨b, by simp at hn; omega, ?_⟩
    rw [ranked, leftChain, bind_of_ok hread]
    rfl
  | .operation (c := c) (t := t) (d := d) hl ht hd => by
    intro r n b hn hb hr
    rw [List.append_assoc, List.cons_append] at hn ⊢
    simp only [List.length_append, List.length_cons] at hn
    obtain ⟨b₁, hb₁, hleft⟩ := hl.goesOn (t :: (d ++ r)) n b (by simp; omega) hb ht.follows
    obtain ⟨b₂, -, hright⟩ := hd.goesOn r n b (by simp; omega) hb (hr.mono (by omega))
    rw [resume_stop hr] at hright
    simp only [List.length_cons, List.length_append] at hb₁
    obtain ⟨b₁, rfl⟩ : ∃ b', b₁ = b' + 1 := ⟨b₁ - 1, by omega⟩
    refine ⟨b₁, by omega, ?_⟩
    rw [hleft]
    exact goOn_of_some (operation_read ht hright) _ _ _
theorem Unary.read {c : List Token} {e : Expr} :
    Unary c e → ∀ (r : List Token) (n : Nat), (c ++ r).length ≤ n →
    (front r).kind ≠ .mark .leftParen → unaryWithin n (c ++ r) = ⟨.ok e, [], r⟩
  | .sign (t := t) ht h => by
    intro r n hn hr
    obtain ⟨n, rfl⟩ : ∃ n', n = n' + 1 := ⟨n - 1, by simp at hn; omega⟩
    have hread := h.read r n (by simp at hn ⊢; omega) hr
    have hk := unarySign_iff.mp ht
    have he : t.kind ≠ .ending := by intro he; rw [he] at hk; cases hk
    rw [unaryWithin, peek_bind, List.cons_append, front, hk]
    simp only
    rw [skip_bind he, bind_of_ok hread]
    rfl
  | .call (c := c) h => by
    intro r n hn hr
    have hbegins := h.begins
    obtain ⟨n, rfl⟩ : ∃ n', n = n' + 1 := ⟨n - 1, by
      obtain ⟨t, d, rfl, -⟩ := hbegins; simp at hn; omega⟩
    obtain ⟨b', -, hread⟩ := h.goesOn r n (n + 1) hn (Nat.le_refl _)
    rw [unaryWithin, peek_bind, (hbegins.front r).unaryOp]
    simp only
    rw [hread]
    exact goOn_of_none (arguments_stop hr _ _) _ _ _
theorem Call.goesOn {c : List Token} {e : Expr} : Call c e → ∀ (r : List Token) (n b : Nat),
    (c ++ r).length ≤ n + 1 → n + 1 ≤ b →
    ∃ b', r.length ≤ b' ∧ calls b (ranked b (unaryWithin n) Rank.disjunction) (c ++ r) =
      resumeCall b (ranked b (unaryWithin n) Rank.disjunction) b' e r
  | .primary h => by
    intro r n b hn hb
    refine ⟨b, by simp at hn; omega, ?_⟩
    rw [calls, bind_of_ok (h.read r n b hn (by omega))]
    rfl
  | @Call.call c _ left d _ right h hl ha hr => by
    intro r n b hn hb
    rw [List.append_assoc, List.cons_append, List.append_assoc, List.singleton_append] at hn ⊢
    simp only [List.length_append, List.length_cons] at hn
    obtain ⟨b₁, hb₁, hcallee⟩ := h.goesOn (left :: (d ++ right :: r)) n b (by simp; omega) hb
    have hargs := commaList_read hr (arguments_readable ha n b (by omega)) (r := r) (by simp; omega)
      (show n ≤ b by omega) .argumentsEnd
    simp only [List.length_cons, List.length_append] at hb₁
    obtain ⟨b₁, rfl⟩ : ∃ b', b₁ = b' + 1 := ⟨b₁ - 1, by omega⟩
    refine ⟨b₁, by omega, ?_⟩
    rw [hcallee]
    exact goOn_of_some (arguments_read hl hargs) _ _ _
theorem Primary.read {c : List Token} {e : Expr} : Primary c e → ∀ (r : List Token) (n b : Nat),
    (c ++ r).length ≤ n + 1 → n ≤ b →
    primary (ranked b (unaryWithin n) Rank.disjunction) (c ++ r) = ⟨.ok e, [], r⟩
  | .constant (t := t) h => by
    intro r n b _ _
    have hk := constant_iff.mp h
    have he : t.kind ≠ .ending := by intro he; simp [Token.literal?, he] at hk
    rw [primary, peek_bind, List.singleton_append, front, hk]
    simp only
    rw [skip_bind he]
    rfl
  | .name (t := t) h => by
    intro r n b _ _
    have hk : t.literal? = none := by simp [Token.literal?, h]
    rw [primary, peek_bind, List.singleton_append, front, hk]
    simp only
    rw [if_pos (Token.isName_iff.mpr h), skip_bind (by simp [h])]
    rfl
  | @Primary.group left c _ right hl h hr => by
    intro r n b hn hb
    rw [List.cons_append, List.append_assoc, List.singleton_append] at hn ⊢
    simp only [List.length_append, List.length_cons] at hn
    have hk : left.literal? = none := by simp [Token.literal?, hl]
    have hfollows := follows_of_kind hr (by decide)
    obtain ⟨b', -, hread⟩ := h.goesOn (right :: r) n b (by simp; omega) hb (hfollows _)
    rw [resume_stop (hfollows _)] at hread
    rw [primary, peek_bind, front, hk]
    simp only
    rw [if_neg (by simp [Token.isName, hl]), if_pos (Token.isMark_iff.mpr hl),
      skip_bind (by simp [hl]), bind_of_ok hread, mark_bind hr]
    rfl
theorem arguments_readable {c : List Token} {es : List Expr} :
    Listed (Ranked Rank.disjunction) c es →
    ∀ (n b : Nat), n ≤ b → Listed (Readable (ranked b (unaryWithin n) Rank.disjunction) n) c es
  | .none => fun _ _ _ => .none
  | .some h => fun n b hb => .some (separated_readable h n b hb)
theorem separated_readable {c : List Token} {es : List Expr} :
    Separated (Ranked Rank.disjunction) c es →
    ∀ (n b : Nat), n ≤ b → Separated (Readable (ranked b (unaryWithin n) Rank.disjunction) n) c es
  | .one h =>
    fun n b hb => .one (readable_of_goesOn h.begins fun r hn hr => h.goesOn r n b hn hb hr)
  | .more h ht hs => fun n b hb =>
    .more (readable_of_goesOn h.begins fun r hn hr => h.goesOn r n b hn hb hr) ht
      (separated_readable hs n b hb)
end

theorem expression_read {c : List Token} {e : Expr} (h : Expression c e) {r : List Token} {n : Nat}
    (hn : (c ++ r).length ≤ n) (hr : ∀ rank, Follows rank (front r)) :
    expressionWithin n (c ++ r) = ⟨.ok e, [], r⟩ := by
  obtain ⟨b', -, hread⟩ := h.goesOn r n n hn (Nat.le_refl _) (hr _)
  rw [resume_stop (hr _)] at hread
  exact hread

theorem closed_read {c : List Token} {e : Expr} (h : Closed c e) {r : List Token} {n : Nat}
    (hn : (c ++ r).length ≤ n) (x : Expectation) :
    closedExpression n x (c ++ r) = ⟨.ok e, [], r⟩ := by
  cases h with
  | mk h hs =>
    rw [List.append_assoc, List.singleton_append] at hn ⊢
    rw [closedExpression, bind_of_ok (expression_read h hn (follows_of_kind hs (by decide))),
      mark_bind hs]
    rfl

end Grammar

end Naskah
