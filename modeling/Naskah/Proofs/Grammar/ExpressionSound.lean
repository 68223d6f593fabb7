import Naskah.Proofs.Grammar.Basic
import Naskah.Proofs.Parser.Reads

/-!
# What the readers of expressions have read

Each of them reads the phrases of its part of the grammar in the sense of
`Reads`, under any bounds.
-/

namespace Naskah

namespace Grammar

open Naskah.Parser

/-! ## Endings -/

def FailsAtEnd {α : Type} (p : Parser α) : Prop :=
  ∀ ts, (front ts).kind = .ending → ∃ x, p ts = ⟨.error (.unexpectedToken (front ts) x), [], ts⟩

theorem failsAtEnd_of_asks {α : Type} {p : Parser α} (h : AsksAtEnd p) : FailsAtEnd p :=
  fun ts ht => ⟨.expression, h ts ht⟩

theorem reads_zero {α : Type} {p : Parser α} {p' : Nat → Parser α} {D : Phrases α}
    (hD : ∃ c a, D c a) (hp : FailsAtEnd p) (hp' : ∀ i, FailsAtEnd (p' i)) (n' : Nat → Nat) :
    Reads Anything 0 n' p p' D where
  inhabited := hD
  clean {ts a r} _ hn h := by
    obtain rfl : ts = [] := List.eq_nil_of_length_eq_zero (by omega)
    obtain ⟨x, hx⟩ := hp [] rfl
    rw [hx] at h
    cases h
  stuck {ts e es} _ hn h := by
    obtain rfl : ts = [] := List.eq_nil_of_length_eq_zero (by omega)
    obtain ⟨x, hx⟩ := hp [] rfl
    rw [hx] at h
    cases h
    refine ⟨[], [], x, rfl, rfl, hD, fun i r' hr' _ => ?_⟩
    obtain ⟨y, hy⟩ := hp' i r' (by rw [hr']; rfl)
    simp [hy, Parsed.errors]

/-! ## Comma lists -/

section
variable {α : Type} {p : Parser α} {p' : Nat → Parser α} {D : Phrases α} {n b : Nat}
  {n' b' : Nat → Nat}

theorem commaItem_reads (h : Reads Anything n n' p p' D) :
    Reads Anything n n' (commaItem p) (fun i => commaItem (p' i))
      (Optional fun c a => ∃ comma d, c = comma :: d ∧ comma.kind = .mark .comma ∧ D d a) := by
  refine Reads.peek ⟨[], none, .none⟩ fun t _ => ?_
  by_cases ht : t.isMark .comma = true
  · simp only [if_pos ht]
    rw [Token.isMark_iff] at ht
    refine (Reads.skip (by simp [ht]) ((h.within (Nat.sub_le _ _) fun _ => Nat.sub_le _ _).bind
      fun a => Reads.pure (some a))).mono ?_
    rintro _ _ ⟨_, rfl, c, _, a, rfl, hc, rfl, rfl⟩
    exact .some ⟨t, c, by simp, ht, hc⟩
  · simp only [if_neg ht]
    refine (Reads.pure none).mono ?_
    rintro _ _ ⟨rfl, rfl⟩
    exact .none

theorem commaItem_stops (p : Parser α) : StopsAtEnd (commaItem p) := by
  intro ts ht
  rw [commaItem, peek_bind, if_neg (by simp [Token.isMark, ht])]
  rfl

theorem separated_of_row {c d : List Token} {a : α} {as : List α} (h : D c a)
    (hs : Row (fun c a => ∃ comma d, c = comma :: d ∧ comma.kind = .mark .comma ∧ D d a) d as) :
    Separated D (c ++ d) (a :: as) := by
  induction hs generalizing c a with
  | nil => simpa using Separated.one h
  | cons hd _ ih =>
    obtain ⟨comma, d, rfl, hcomma, hd⟩ := hd
    rw [List.cons_append]
    exact .more h hcomma (ih hd)

theorem commaList_reads (h : Reads Anything n n' p p' D) (hb : n ≤ b) (hb' : ∀ i, n' i ≤ b' i)
    (x : Expectation) : Reads Anything n n' (commaList b p x) (fun i => commaList (b' i) (p' i) x)
      (fun c as => ∃ d, c = d ++ [as.2] ∧ as.2.kind = .mark .rightParen ∧ Listed D d as.1) := by
  have hex : ∃ (c : List Token) (as : List α × Token), ∃ d, c = d ++ [as.2] ∧
      as.2.kind = .mark .rightParen ∧ Listed D d as.1 :=
    ⟨[⟨.mark .rightParen, "", 0⟩], ([], _), [], rfl, rfl, .none⟩
  refine Reads.peek hex fun t _ => ?_
  by_cases ht : t.isMark .rightParen = true
  · simp only [if_pos ht]
    rw [Token.isMark_iff] at ht
    refine (Reads.skip (by simp [ht]) (Reads.pure ([], t))).mono ?_
    rintro _ _ ⟨_, rfl, rfl, rfl⟩
    exact ⟨[], rfl, ht, .none⟩
  · simp only [if_neg ht]
    have hmore :=
      Reads.many (by simp) (fun i => commaItem_stops (p' i)) b b' hb hb' (commaItem_reads h)
    refine ((h.only fun _ _ => trivial).bind fun first => hmore.bind fun more =>
      (Reads.mark .rightParen x).bind fun close => Reads.pure (first :: more, close)).mono ?_
    rintro _ _ ⟨c, _, a, rfl, hc, d, _, as, rfl, hd, _, _, close, rfl, ⟨rfl, hclose⟩, rfl, rfl⟩
    exact ⟨c ++ d, by simp, hclose, .some (separated_of_row hc hd)⟩

end

/-! ## Expressions -/

theorem constant_ne_ending {t : Token} {v : Literal} (h : t.literal? = some v) :
    t.kind ≠ .ending := by
  intro he
  simp [Token.literal?, he] at h

section
variable {n b : Nat} {n' b' : Nat → Nat} {p : Parser Expr} {p' : Nat → Parser Expr}

theorem operation_reads {D : Phrases Expr} (h : Reads Anything n n' p p' D) (rank : Nat) :
    Reads Anything n n' (operation rank p) (fun i => operation rank (p' i))
      (Optional fun c o => ∃ d, c = o.2.1 :: d ∧ Sign rank o.2.1.kind o.1 ∧ D d o.2.2) := by
  refine Reads.peek ⟨[], none, .none⟩ fun t _ => ?_
  have stop : Reads (· = t) n n' (pure none) (fun _ => pure none)
      (Optional fun c (o : Operator × Token × Expr) => ∃ d, c = o.2.1 :: d ∧
        Sign rank o.2.1.kind o.1 ∧ D d o.2.2) := by
    refine (Reads.pure none).mono ?_
    rintro _ _ ⟨rfl, rfl⟩
    exact .none
  cases hop : Operator.ofKind? t.kind with
  | none => exact stop
  | some op =>
    by_cases hr : op.rank = rank
    · simp only [if_pos hr]
      have hs := sign_iff.mpr ⟨hop, hr⟩
      refine (Reads.skip (by intro he; rw [he] at hop; cases hop)
        ((h.within (Nat.sub_le _ _) fun _ => Nat.sub_le _ _).bind fun right =>
          Reads.pure (some (op, t, right)))).mono ?_
      rintro _ _ ⟨_, rfl, c, _, right, rfl, hc, rfl, rfl⟩
      exact .some ⟨c, by simp, hs, hc⟩
    · simp only [if_neg hr]
      exact stop

theorem operation_stops (rank : Nat) (p : Parser Expr) : StopsAtEnd (operation rank p) := by
  intro ts ht
  rw [operation, peek_bind, ht]
  rfl

theorem ranked_of_row {rank : Nat} {c d : List Token} {e : Expr}
    {os : List (Operator × Token × Expr)} (h : Ranked (rank + 1) c e)
    (hs : Row (fun c o => ∃ d, c = o.2.1 :: d ∧ Sign (rank + 1) o.2.1.kind o.1 ∧
      Ranked rank d o.2.2) d os) :
    Ranked (rank + 1) (c ++ d) (os.foldl (fun left (op, t, right) => op.node t left right) e) := by
  induction hs generalizing c e with
  | nil => simpa using h
  | cons hd _ ih =>
    obtain ⟨d, rfl, hs, hd⟩ := hd
    rw [← List.append_assoc]
    exact ih (.operation h hs hd)

theorem ranked_reads (h : Reads Anything n n' p p' Unary) (hb : n ≤ b)
    (hb' : ∀ i, n' i ≤ b' i) : ∀ rank,
    Reads Anything n n' (ranked b p rank) (fun i => ranked (b' i) (p' i) rank) (Ranked rank)
  | 0 => h.mono fun _ _ => Ranked.unary
  | rank + 1 => by
    have hoperand := ranked_reads h hb hb' rank
    have hmore := Reads.many (by simp) (fun _ => operation_stops _ _) b b' hb hb'
      (operation_reads hoperand (rank + 1))
    refine (hoperand.bind fun first => hmore.bind fun more => Reads.pure _).mono ?_
    rintro _ _ ⟨c, _, e, rfl, hc, d, _, os, rfl, hd, rfl, rfl⟩
    simpa using ranked_of_row (.operand hc) hd

theorem exists_primary : ∃ c e, Primary c e :=
  ⟨[⟨.name, "", 0⟩], _, .name rfl⟩

theorem primary_reads (h : Reads Anything (n - 1) (fun i => n' i - 1) p p' Expression) :
    Reads Anything n n' (primary p) (fun i => primary (p' i)) Primary := by
  refine Reads.peek exists_primary fun t _ => ?_
  cases hv : t.literal? with
  | some v =>
    simp only
    refine (Reads.skip (constant_ne_ending hv) (Reads.pure (Expr.literal v t.line))).mono ?_
    rintro _ _ ⟨_, rfl, rfl, rfl⟩
    exact .constant (constant_iff.mpr hv)
  | none =>
    by_cases hx : t.isName = true
    · simp only [if_pos hx]
      rw [Token.isName_iff] at hx
      refine (Reads.skip (by simp [hx]) (Reads.pure (Expr.name t))).mono ?_
      rintro _ _ ⟨_, rfl, rfl, rfl⟩
      exact .name hx
    · by_cases hl : t.isMark .leftParen = true
      · simp only [if_neg hx, if_pos hl]
        rw [Token.isMark_iff] at hl
        refine (Reads.skip (by simp [hl]) (h.bind fun inner =>
          (Reads.mark .rightParen .groupEnd).bind fun _ => Reads.pure (Expr.group inner))).mono ?_
        rintro _ _ ⟨_, rfl, c, _, e, rfl, hc, _, _, right, rfl, ⟨rfl, hr⟩, rfl, rfl⟩
        exact .group hl hc hr
      · simp only [if_neg hx, if_neg hl]
        exact Reads.fail exists_primary .expression

theorem arguments_reads (h : Reads Anything (n - 1) (fun i => n' i - 1) p p' Expression)
    (hb : n ≤ b) (hb' : ∀ i, n' i ≤ b' i) :
    Reads Anything n n' (arguments b p) (fun i => arguments (b' i) (p' i))
      (Optional fun c as => ∃ left d, c = left :: (d ++ [as.2]) ∧ left.kind = .mark .leftParen ∧
        Listed Expression d as.1 ∧ as.2.kind = .mark .rightParen) := by
  refine Reads.peek ⟨[], none, .none⟩ fun t _ => ?_
  by_cases ht : t.isMark .leftParen = true
  · simp only [if_pos ht]
    rw [Token.isMark_iff] at ht
    have hargs := commaList_reads h (Nat.le_trans (Nat.sub_le _ _) hb)
      (fun i => Nat.le_trans (Nat.sub_le _ _) (hb' i)) .argumentsEnd
    refine (Reads.skip (by simp [ht]) (hargs.bind fun args => Reads.pure (some args))).mono ?_
    rintro _ _ ⟨_, rfl, _, _, as, rfl, ⟨d, rfl, hr, hd⟩, rfl, rfl⟩
    exact .some ⟨t, d, by simp, ht, hd, hr⟩
  · simp only [if_neg ht]
    refine (Reads.pure none).mono ?_
    rintro _ _ ⟨rfl, rfl⟩
    exact .none

theorem arguments_stops (b : Nat) (p : Parser Expr) : StopsAtEnd (arguments b p) := by
  intro ts ht
  rw [arguments, peek_bind, if_neg (by simp [Token.isMark, ht])]
  rfl

theorem call_of_row {c d : List Token} {e : Expr} {ass : List (List Expr × Token)} (h : Call c e)
    (hs : Row (fun c as => ∃ left d, c = left :: (d ++ [as.2]) ∧ left.kind = .mark .leftParen ∧
      Listed Expression d as.1 ∧ as.2.kind = .mark .rightParen) d ass) :
    Call (c ++ d) (ass.foldl (fun callee (args, paren) => .call callee args paren) e) := by
  induction hs generalizing c e with
  | nil => simpa using h
  | cons hd _ ih =>
    obtain ⟨left, d, rfl, hl, hd, hr⟩ := hd
    rw [← List.append_assoc]
    exact ih (.call h hl hd hr)

theorem calls_reads (h : Reads Anything (n - 1) (fun i => n' i - 1) p p' Expression) (hb : n ≤ b)
    (hb' : ∀ i, n' i ≤ b' i) :
    Reads Anything n n' (calls b p) (fun i => calls (b' i) (p' i)) Call := by
  have hmore :=
    Reads.many (by simp) (fun _ => arguments_stops _ _) b b' hb hb' (arguments_reads h hb hb')
  refine ((primary_reads h).bind fun callee => hmore.bind fun more => Reads.pure _).mono ?_
  rintro _ _ ⟨c, _, e, rfl, hc, d, _, ass, rfl, hd, rfl, rfl⟩
  simpa using call_of_row (.primary hc) hd

end

theorem exists_unary : ∃ c e, Unary c e := by
  obtain ⟨c, e, h⟩ := exists_primary
  exact ⟨c, e, .call (.primary h)⟩

theorem unaryWithin_reads_succ {n : Nat} {n' : Nat → Nat}
    (ih : Reads Anything n (fun i => n' i - 1) (unaryWithin n)
      (fun i => unaryWithin (n' i - 1)) Unary) :
    Reads Anything (n + 1) n' (unaryWithin (n + 1))
      (fun i => unaryWithin (n' i - 1 + 1)) Unary := by
  refine Reads.peek exists_unary fun t _ => ?_
  cases hop : UnaryOp.ofKind? t.kind with
  | some op =>
    have ht : t.kind ≠ .ending := by intro he; rw [he] at hop; cases hop
    have hoperand : Reads Anything (n + 1 - 1) (fun i => n' i - 1) _ _ _ :=
      ih.bind fun e => Reads.pure (Expr.unary op t e)
    refine (Reads.skip ht hoperand).mono ?_
    rintro _ _ ⟨_, rfl, c, _, e, rfl, hc, rfl, rfl⟩
    simpa using Unary.sign (unarySign_iff.mpr hop) hc
  | none =>
    have hexpr := ranked_reads ih (Nat.le_succ n) (fun i => Nat.le_succ (n' i - 1)) Rank.disjunction
    exact ((calls_reads (n := n + 1) hexpr (Nat.le_refl _) fun i => by omega).only fun _ _ =>
      trivial).mono fun _ _ => Unary.call

theorem unaryWithin_reads :
    ∀ n n', Reads Anything n n' (unaryWithin n) (fun i => unaryWithin (n' i)) Unary
  | 0, n' => reads_zero exists_unary (failsAtEnd_of_asks (unaryWithin_asksAtEnd 0))
    (fun _ => failsAtEnd_of_asks (unaryWithin_asksAtEnd _)) n'
  | n + 1, n' => by
    refine (unaryWithin_reads_succ (unaryWithin_reads n fun i => n' i - 1)).agree fun i ts hn => ?_
    cases hi : n' i with
    | succ m => rfl
    | zero =>
      obtain rfl : ts = [] := List.eq_nil_of_length_eq_zero (by omega)
      rfl

theorem expressionWithin_reads (n : Nat) (n' : Nat → Nat) :
    Reads Anything n n' (expressionWithin n) (fun i => expressionWithin (n' i)) Expression :=
  ranked_reads (unaryWithin_reads n n') (Nat.le_refl n)
    (fun i => Nat.le_refl (n' i)) Rank.disjunction

theorem closedExpression_reads (n : Nat) (n' : Nat → Nat) (x : Expectation) :
    Reads Anything n n' (closedExpression n x) (fun i => closedExpression (n' i) x) Closed := by
  refine ((expressionWithin_reads n n').bind fun e => (Reads.mark .semicolon x).bind fun _ =>
    Reads.pure e).mono ?_
  rintro _ _ ⟨c, _, e, rfl, hc, _, _, stop, rfl, ⟨rfl, hs⟩, rfl, rfl⟩
  exact .mk hc hs

end Grammar

end Naskah
