import Naskah.Proofs.Grammar.ExpressionComplete

/-!
# Reading statements

Declarations are read as their trees in front of any token but `lain`, which
would prolong a branch. An expression holds no equals sign, so the look at two
tokens never takes an expression statement for an assignment.
-/

namespace Naskah

namespace Grammar

open Naskah.Parser

/-! ## Telling statements apart -/

theorem anyStatement_eq_assignmentOrPlain {t : Token} (hf : t.kind ≠ .keyword .fungsi)
    (hm : t.kind ≠ .keyword .misal) (n : Nat) (p : Parser Stmt) (ts : List Token) :
    anyStatement n p (t :: ts) = assignmentOrPlain n p (t :: ts) := by
  rw [anyStatement, peek_bind, front]
  generalize t.kind = k at hf hm
  cases k with
  | keyword w => cases w <;> first | rfl | contradiction
  | _ => rfl

theorem Closed.not_assigned {t : Token} {d : List Token} {e : Expr} (h : Closed (t :: d) e)
    (r : List Token) : (front (d ++ r)).kind ≠ .mark .equals := by
  generalize hc : t :: d = c at h
  cases h with
  | mk h hs =>
    obtain ⟨u, c, rfl, -⟩ := h.begins
    obtain ⟨rfl, rfl⟩ := List.cons.inj hc
    cases c with
    | nil => simp [front, hs]
    | cons v c =>
      have hv := h.words v (by simp)
      intro hk
      change v.kind = _ at hk
      simp [hk, InExpression] at hv

theorem Statement.begins_plain {c : List Token} {s : Stmt} (h : Statement c s) (r : List Token) :
    ∃ t d, c = t :: d ∧ t.kind ≠ .keyword .fungsi ∧ t.kind ≠ .keyword .misal ∧
      (t.kind = .name → (front (d ++ r)).kind ≠ .mark .equals) := by
  cases h with
  | print hk | loop hk | giveBackNothing hk | giveBack hk => exact ⟨_, _, rfl, by simp [hk]⟩
  | block h =>
    obtain ⟨t, d, rfl, hk⟩ := h.begins
    exact ⟨t, d, rfl, by simp [hk]⟩
  | branch h =>
    obtain ⟨t, d, rfl, hk⟩ := h.begins
    exact ⟨t, d, rfl, by simp [hk]⟩
  | expression h =>
    obtain ⟨t, d, rfl, hk⟩ := h.begins
    refine ⟨t, d, rfl, ?_, ?_, fun _ => h.not_assigned r⟩ <;> intro ht <;>
      simp [ht, BeginsExpression, BeginsPrimary] at hk

theorem declarationWithin_plain {c : List Token} {s : Stmt} (h : Statement c s)
    (r : List Token) (n : Nat) :
    declarationWithin (n + 1) (c ++ r) = plainStatement (n + 1) (declarationWithin n) (c ++ r) := by
  obtain ⟨t, d, rfl, hf, hm, ha⟩ := h.begins_plain r
  rw [declarationWithin, List.cons_append, anyStatement_eq_assignmentOrPlain hf hm]
  refine assignmentOrPlain_eq_plain ?_
  rintro x ts hx hname
  cases hx
  exact ha hname

theorem expressionStatement_read {c : List Token} {e : Expr} (h : Closed c e)
    {r : List Token} {n : Nat} (hn : (c ++ r).length ≤ n) (p : Parser Stmt) :
    plainStatement n p (c ++ r) = ⟨.ok (.expression e), [], r⟩ := by
  have hk := h.begins.front r
  have plain : plainStatement n p (c ++ r) =
      (closedExpression n .expressionEnd >>= fun e => pure (.expression e)) (c ++ r) := by
    rw [plainStatement, peek_bind]
    generalize (front (c ++ r)).kind = k at hk
    cases k with
    | keyword w => cases w <;> first | rfl | simp [BeginsExpression, BeginsPrimary] at hk
    | mark m => cases m <;> first | rfl | simp [BeginsExpression, BeginsPrimary] at hk
    | _ => rfl
  rw [plain, bind_of_ok (closed_read h hn _)]
  rfl

/-! ## Blocks -/

theorem Declarations.front_ne {c : List Token} {ss : List Stmt} (h : Declarations c ss)
    {r : List Token} (hr : (front r).kind ≠ .keyword .lain) :
    (front (c ++ r)).kind ≠ .keyword .lain := by
  cases h with
  | nil => exact hr
  | cons h _ => exact ((h.begins.append _).front r).ne.1

theorem recover_read {α : Type} {p : Parser α} {ts r : List Token} {a : α}
    (h : p ts = ⟨.ok a, [], r⟩) : recover p ts = ⟨.ok (some a), [], r⟩ := by
  simp [recover, h]

theorem blockItem_read {p : Parser Stmt} {ts r : List Token} {s : Stmt}
    (ht : BeginsDeclaration (front ts).kind) (h : p ts = ⟨.ok s, [], r⟩) :
    blockItem p ts = ⟨.ok (some (some s)), [], r⟩ := by
  rw [blockItem, peek_bind, if_neg, bind_of_ok (recover_read h)]
  · rfl
  · rw [Bool.or_eq_true, Token.isMark_iff, Token.isEnding_iff, not_or]
    exact ht.ne.2

theorem programItem_read {p : Parser Stmt} {ts r : List Token} {s : Stmt}
    (ht : BeginsDeclaration (front ts).kind) (h : p ts = ⟨.ok s, [], r⟩) :
    programItem p ts = ⟨.ok (some (some s)), [], r⟩ := by
  rw [programItem, peek_bind, if_neg (by rw [Token.isEnding_iff]; exact ht.ne.2.2),
    if_neg (by rw [Token.isMark_iff]; exact ht.ne.2.1), bind_of_ok (recover_read h)]
  rfl

theorem block_of_items {p : Parser Stmt} {b : Nat} {ts r : List Token} {right : Token}
    {ss : List Stmt} (hr : right.kind = .mark .rightBrace)
    (h : many (blockItem p) b ts = ⟨.ok (ss.map some), [], right :: r⟩) :
    block b p ts = ⟨.ok ss, [], r⟩ := by
  rw [block, bind_of_ok h, mark_bind hr, pure_apply]
  simp

theorem bracedBlock_read {p : Parser Stmt} {b : Nat} {left : Token} {ts r : List Token}
    {ss : List Stmt} (hl : left.kind = .mark .leftBrace) (h : block b p ts = ⟨.ok ss, [], r⟩)
    (x : Expectation) :
    bracedBlock b p x (left :: ts) = ⟨.ok ss, [], r⟩ := by
  rw [bracedBlock, mark_bind hl, h]

theorem name_readable {c params : List Token} (h : Listed Name c params) (n : Nat)
    (x : Expectation) : Listed (Readable (name x) n) c params := by
  refine h.imp ?_
  rintro _ t ⟨ht⟩
  exact ⟨⟨t, [], rfl, by simp [ht]⟩, fun r _ _ =>
    take_of (Token.isName_iff.mpr ht) (by simp [ht]) x r⟩

/-! ## Declarations -/

mutual
theorem Declaration.read {c : List Token} {s : Stmt} :
    Declaration c s → ∀ (r : List Token) (n : Nat),
    (c ++ r).length ≤ n → (front r).kind ≠ .keyword .lain →
    declarationWithin n (c ++ r) = ⟨.ok s, [], r⟩
  | .function (c := c) (d := d) hk hf hl hp hr hb => by
    intro r n hn _
    simp only [List.cons_append, List.append_assoc, List.length_cons, List.length_append] at hn ⊢
    obtain ⟨n, rfl⟩ : ∃ n', n = n' + 1 := ⟨n - 1, by omega⟩
    have hparams := commaList_read hr (r := d ++ r) (name_readable hp (n + 1) .parameterName)
      (by simp; omega) (Nat.le_refl _) .parametersEnd
    obtain ⟨left, d, rfl, hleft, hbody⟩ := hb.read r n (n + 1) (by simp; omega) (by omega)
    rw [declarationWithin, anyStatement, peek_bind, front, hk]
    simp only
    rw [skip_bind (by simp [hk]), function, name_bind hf, mark_bind hl, bind_of_ok hparams]
    simp only
    rw [List.cons_append, bind_of_ok (bracedBlock_read hleft hbody .bodyStart)]
    rfl
  | .declare hk hx hs h => by
    intro r n hn _
    simp only [List.cons_append, List.length_cons] at hn ⊢
    obtain ⟨n, rfl⟩ : ∃ n', n = n' + 1 := ⟨n - 1, by omega⟩
    rw [declarationWithin, anyStatement, peek_bind, front, hk]
    simp only
    rw [skip_bind (by simp [hk]), declare, name_bind hx, mark_bind hs,
      bind_of_ok (closed_read h (by omega) _)]
    rfl
  | @Declaration.assign x sign c _ hx hs h => by
    intro r n hn _
    simp only [List.cons_append, List.length_cons] at hn ⊢
    obtain ⟨n, rfl⟩ : ∃ n', n = n' + 1 := ⟨n - 1, by omega⟩
    rw [declarationWithin, anyStatement_eq_assignmentOrPlain (by simp [hx]) (by simp [hx]),
      assignmentOrPlain_eq_assign hx hs, bind_of_ok (closed_read h (by omega) _)]
    rfl
  | .statement (c := c) h => by
    intro r n hn hr
    obtain ⟨n, rfl⟩ : ∃ n', n = n' + 1 := ⟨n - 1, by
      obtain ⟨t, d, rfl, -⟩ := h.begins; simp at hn; omega⟩
    rw [declarationWithin_plain h]
    exact h.read r n hn hr
theorem Statement.read {c : List Token} {s : Stmt} : Statement c s → ∀ (r : List Token) (n : Nat),
    (c ++ r).length ≤ n + 1 → (front r).kind ≠ .keyword .lain →
    plainStatement (n + 1) (declarationWithin n) (c ++ r) = ⟨.ok s, [], r⟩
  | .print hk h => by
    intro r n hn _
    simp only [List.cons_append, List.length_cons] at hn ⊢
    rw [plainStatement, peek_bind, front, hk]
    simp only
    rw [skip_bind (by simp [hk]), bind_of_ok (closed_read h (by omega) _)]
    rfl
  | .block h => by
    intro r n hn _
    obtain ⟨left, d, rfl, hl, hbody⟩ := h.read r n (n + 1) hn (by omega)
    rw [List.cons_append, plainStatement, peek_bind, front, hl]
    simp only
    rw [skip_bind (by simp [hl]), bind_of_ok hbody]
    rfl
  | .branch h => h.read
  | .loop (c := c) (d := d) hk he hb => by
    intro r n hn _
    simp only [List.cons_append, List.append_assoc, List.length_cons, List.length_append] at hn ⊢
    obtain ⟨left, d, rfl, hl, hbody⟩ := hb.read r n (n + 1) (by simp; omega) (by omega)
    have hcond : expressionWithin (n + 1) (c ++ left :: (d ++ r)) = ⟨.ok _, [], left :: (d ++ r)⟩ :=
      expression_read he (by simp at hn ⊢; omega) (follows_of_kind hl (by decide))
    rw [plainStatement, peek_bind, front, hk]
    simp only
    rw [skip_bind (by simp [hk]), loop, List.cons_append, bind_of_ok hcond,
      bind_of_ok (bracedBlock_read hl hbody _)]
    rfl
  | .giveBackNothing hk hs => by
    intro r n _ _
    simp only [List.cons_append, List.nil_append]
    rw [plainStatement, peek_bind, front, hk]
    simp only
    rw [skip_bind (by simp [hk]), giveBack, peek_bind, front, if_pos (Token.isMark_iff.mpr hs),
      skip_bind (by simp [hs])]
    rfl
  | .giveBack (c := c) hk h => by
    intro r n hn _
    simp only [List.cons_append, List.length_cons] at hn ⊢
    have hs : ¬ (front (c ++ r)).isMark .semicolon = true := by
      rw [Token.isMark_iff]
      intro hs
      have := h.begins.front r
      simp [hs, BeginsExpression, BeginsPrimary] at this
    rw [plainStatement, peek_bind, front, hk]
    simp only
    rw [skip_bind (by simp [hk]), giveBack, peek_bind, if_neg hs,
      bind_of_ok (closed_read h (by omega) _)]
    rfl
  | .expression h => by
    intro r n hn _
    exact expressionStatement_read h hn _
theorem Branch.read {c : List Token} {s : Stmt} : Branch c s → ∀ (r : List Token) (n : Nat),
    (c ++ r).length ≤ n + 1 → (front r).kind ≠ .keyword .lain →
    plainStatement (n + 1) (declarationWithin n) (c ++ r) = ⟨.ok s, [], r⟩
  | .mk (c := c) (d := d) (o := o) hk he hb ho => by
    intro r n hn hr
    simp only [List.cons_append, List.append_assoc, List.length_cons, List.length_append] at hn ⊢
    obtain ⟨left, d, rfl, hl, hbody⟩ := hb.read (o ++ r) n (n + 1) (by simp; omega) (by omega)
    have hcond : expressionWithin (n + 1) (c ++ left :: (d ++ (o ++ r))) =
        ⟨.ok _, [], left :: (d ++ (o ++ r))⟩ :=
      expression_read he (by simp at hn ⊢; omega) (follows_of_kind hl (by decide))
    rw [plainStatement, peek_bind, front, hk]
    simp only
    rw [skip_bind (by simp [hk]), branch, List.cons_append, bind_of_ok hcond,
      bind_of_ok (bracedBlock_read hl hbody _),
      bind_of_ok (ho.read r n (n + 1) (by simp; omega) (by omega) hr)]
    rfl
theorem Otherwise.read {c : List Token} {ss : List Stmt} :
    Otherwise c ss → ∀ (r : List Token) (n b : Nat),
    (c ++ r).length ≤ n + 1 → n ≤ b → (front r).kind ≠ .keyword .lain →
    otherwise b (declarationWithin n) (c ++ r) = ⟨.ok ss, [], r⟩
  | .missing => by
    intro r n b _ _ hr
    rw [List.nil_append, otherwise, peek_bind, if_neg (by rw [Token.isKeyword_iff]; exact hr)]
    rfl
  | .branch (c := c) hk h => by
    intro r n b hn hb hr
    simp only [List.cons_append, List.length_cons] at hn ⊢
    obtain ⟨n, rfl⟩ : ∃ n', n = n' + 1 := ⟨n - 1, by
      obtain ⟨t, d, rfl, -⟩ := h.begins; simp at hn; omega⟩
    have hread := h.read r n (by omega) hr
    rw [← declarationWithin_plain (.branch h)] at hread
    rw [otherwise, peek_bind, front, if_pos (Token.isKeyword_iff.mpr hk),
      skip_bind (by simp [hk]), peek_bind,
      if_pos (Token.isKeyword_iff.mpr (h.begins.front r)), bind_of_ok hread]
    rfl
  | .block (c := c) hk h => by
    intro r n b hn hb hr
    simp only [List.cons_append, List.length_cons] at hn ⊢
    obtain ⟨left, d, rfl, hl, hbody⟩ := h.read r n b (by omega) (by omega)
    rw [otherwise, peek_bind, front, if_pos (Token.isKeyword_iff.mpr hk),
      skip_bind (by simp [hk]), peek_bind,
      List.cons_append, front, if_neg (by rw [Token.isKeyword_iff, hl]; simp),
        bracedBlock_read hl hbody]
theorem Block.read {c : List Token} {ss : List Stmt} : Block c ss → ∀ (r : List Token) (n b : Nat),
    (c ++ r).length ≤ n + 1 → n ≤ b →
    ∃ left d, c = left :: d ∧ left.kind = .mark .leftBrace ∧
      block b (declarationWithin n) (d ++ r) = ⟨.ok ss, [], r⟩
  | @Block.mk _ c _ right hl h hr => by
    intro r n b hn hb
    refine ⟨_, _, rfl, hl, block_of_items hr ?_⟩
    simp only [List.cons_append, List.append_assoc, List.nil_append, List.length_cons,
      List.length_append] at hn ⊢
    refine h.read (right :: r) n b _ (by simp; omega) (by omega) (by simp [front, hr])
      (fun ht => blockItem_read ht) ?_
    rw [blockItem, peek_bind, front, if_pos (by simp [Token.isMark, hr])]
    rfl
theorem Declarations.read {c : List Token} {ss : List Stmt} : Declarations c ss →
    ∀ (r : List Token) (n b : Nat) (item : Parser (Option (Option Stmt))), (c ++ r).length ≤ n →
    c.length ≤ b →
    (front r).kind ≠ .keyword .lain →
    (∀ {ts r s}, BeginsDeclaration (front ts).kind → declarationWithin n ts = ⟨.ok s, [], r⟩ →
      item ts = ⟨.ok (some (some s)), [], r⟩) →
    item r = ⟨.ok none, [], r⟩ → many item b (c ++ r) = ⟨.ok (ss.map some), [], r⟩
  | .nil => fun r n b item _ _ _ _ stop => many_of_none stop b
  | .cons (c := c) (d := d) h hs => by
    intro r n b item hn hb hr hitem stop
    simp only [List.append_assoc, List.length_append] at hn hb ⊢
    have hread :=
      hitem (h.begins.front (d ++ r)) (h.read (d ++ r) n (by simp; omega) (hs.front_ne hr))
    obtain ⟨b, rfl⟩ : ∃ b', b = b' + 1 := ⟨b - 1, by
      obtain ⟨t, c, rfl, -⟩ := h.begins; simp at hb; omega⟩
    have hrest := hs.read r n b item (by simp; omega) (by
      obtain ⟨t, c, rfl, -⟩ := h.begins; simp at hb; omega) hr hitem stop
    rw [many_of_some hread, bind_of_ok hrest]
    rfl
end

theorem program_read {c : List Token} {ss : List Stmt} (h : Program c ss) {r : List Token} {n : Nat}
    (hn : (c ++ r).length ≤ n) (hr : (front r).kind = .ending) :
    programWithin n (c ++ r) = ⟨.ok ss, [], r⟩ := by
  have stop : programItem (declarationWithin n) r = ⟨.ok none, [], r⟩ := by
    rw [programItem, peek_bind, if_pos (Token.isEnding_iff.mpr hr)]
    rfl
  have hitems :=
    h.read r n n _ hn (by simp at hn; omega) (by simp [hr]) (fun ht => programItem_read ht) stop
  rw [programWithin, bind_of_ok hitems, pure_apply]
  simp

end Grammar

end Naskah
