import Naskah.Proofs.Alike.Tree
import Naskah.Proofs.Parser.Reading
import Naskah.Proofs.Parser.Reads

/-!
# Manners of reading

The readers of expressions and statements are built from a few steps, and
their bounds fall with the tokens they take. So something that the steps have,
that sequences keep and that opening a block keeps is true of all readers; only
blocks take braces. A manner is such a thing, said of a parser and of the same
reader over other steps, under a higher bound or on related tokens. What is
said of the parser alone is a manner that does not look at the other. Readers
fail in many ways but never for want of an open block, which only programs
report.
-/

namespace Naskah

def Kind.Inner (k : Kind) : Prop := k ≠ .ending ∧ k ≠ .mark .leftBrace ∧ k ≠ .mark .rightBrace

def Kind.Inline (k : Kind) : Prop := k.Inner ∧ k ≠ .mark .semicolon

theorem Kind.inline_mark {m : Mark} (h : m ∉ [.leftBrace, .rightBrace, .semicolon]) :
    (Kind.mark m).Inline := by
  simpa [Inline, Inner, and_assoc] using h

theorem Kind.inline_name : Kind.name.Inline := by simp [Inline, Inner]

theorem Kind.inline_keyword (w : Keyword) : (Kind.keyword w).Inline := by simp [Inline, Inner]

theorem Grammar.InExpression.inline {k : Kind} (h : InExpression k) : k.Inline := by
  refine ⟨⟨h.ne_ending, ?_, ?_⟩, ?_⟩ <;> rintro rfl <;> simp [InExpression] at h

namespace Parser

/-! ## Manners -/

/-- What a reader reads of a statement: a part within a line, all of it, or
what may stand behind a block in it. -/
inductive Extent where
  | part
  | whole
  | rest

structure Manner (F : Type → Type) where
  /-- How the tokens of the two are related. -/
  token : Token → Token → Prop
  /-- How much higher the bounds of the second are. -/
  higher : Nat
  /-- A parser and another reader, on lists whose front satisfies a condition
  and which have at most so many tokens before the ending. -/
  Ok : Extent → Nat → (Token → Prop) → {α : Type} → [Likened α] → Parser α → F α → Prop

namespace Manner

abbrev Like {F : Type → Type} (M : Manner F) {α : Type} [Likened α] (a b : α) : Prop :=
  Likened.rel M.token a b

structure Steps {F : Type → Type} [Reading F] (M : Manner F) : Prop where
  kinds : ∀ {t u : Token}, M.token t u → t.kind.bare = u.kind.bare
  only : ∀ {e v T} {α : Type} [Likened α] {p : Parser α} {q : F α}, M.Ok e v Anything p q →
    M.Ok e v T p q
  fewer : ∀ {e v w T} {α : Type} [Likened α] {p : Parser α} {q : F α}, M.Ok e v T p q → w ≤ v →
    M.Ok e w T p q
  rest : ∀ {v T} {α : Type} [Likened α] {p : Parser α} {q : F α}, M.Ok .whole v T p q →
    M.Ok .rest v T p q
  pure : ∀ {e v T} {α : Type} [Likened α] {a b : α}, e ≠ .whole → M.Like a b →
    M.Ok e v T (pure a) (pure b)
  fail : ∀ {e v T} {α : Type} [Likened α] {x : Expectation}, x ≠ .openBlock →
    M.Ok e v T (fail x : Parser α) (Reading.fail x)
  bind : ∀ {e v T} {α β : Type} [Likened α] [Likened β] {p : Parser α} {q : F α} {f : α → Parser β}
    {g : α → F β},
    M.Ok .part v T p q → (∀ a b, M.Like a b → M.Ok e v Anything (f a) (g b)) →
      M.Ok e v T (p >>= f) (q >>= g)
  map : ∀ {e v T} {α β : Type} [Likened α] [Likened β] {p : Parser α} {q : F α} {f g : α → β},
    M.Ok e v T p q → (∀ a b, M.Like a b → M.Like (f a) (g b)) →
      M.Ok e v T (p >>= fun a => Pure.pure (f a)) (q >>= fun b => Pure.pure (g b))
  peek : ∀ {e v T} {α : Type} [Likened α] {f : Token → Parser α} {g : Token → F α},
    (∀ t u, T t → M.token t u → M.Ok e v (· = t) (f t) (g u)) →
      M.Ok e v T (peek >>= f) (Reading.peek >>= g)
  skip : ∀ {e v} {t : Token} {α : Type} [Likened α] {f : Unit → Parser α} {g : Unit → F α},
    t.kind.Inline → M.Ok e (v - 1) Anything (f ()) (g ()) →
      M.Ok e v (· = t) (skip >>= f) (Reading.skip >>= g)
  /-- A semicolon ends a statement, and nothing is read behind it. -/
  stop : ∀ {v} {t : Token} {α : Type} [Likened α] {a b : α},
    t.kind = .mark .semicolon → M.Like a b →
      M.Ok .whole v (· = t) (Parser.skip >>= fun _ => Pure.pure a)
        (Reading.skip >>= fun _ => Pure.pure b)
  -- bounds that are used up
  spent : ∀ {α : Type} [Likened α] {asked : Token → Option (F α)},
    (∀ t, t.kind = .ending → asked t = none) →
      M.Ok .part 0 Anything (Pure.pure []) (Reading.many (Reading.item asked) M.higher)
  unary : M.Ok .part 0 Anything (Parser.fail .expression) (Reading.unary M.higher)

structure Laws {F : Type → Type} [Reading F] (M : Manner F) : Prop extends M.Steps where
  assignment : ∀ {v T} {α : Type} [Likened α] {f : Token → Parser α} {g : Token → F α}
    {p : Parser α} {q : F α},
    (∀ x y, M.token x y → M.Ok .whole v Anything (f x) (g y)) → M.Ok .whole v Anything p q →
    M.Ok .whole v T (Reading.assignment f p) (Reading.assignment g q)
  declaration : M.Ok .whole 0 Anything (Parser.fail .expression) (Reading.declaration M.higher)
  block :
    ∀ {v b n} {t : Token} {α : Type} [Likened α] {f : List Stmt → Parser α} {g : List Stmt → F α},
    t.kind = .mark .leftBrace → v ≤ b →
    M.Ok .whole (v - 1) Anything (declarationWithin n) (Reading.declaration (n + M.higher)) →
    (∀ ss ss', M.Like ss ss' → M.Ok .rest v Anything (f ss) (g ss')) →
    M.Ok .whole v (· = t) (Parser.skip >>= fun _ => block b (declarationWithin n) >>= f)
      (Reading.skip >>= fun _ =>
        Reading.block (b + M.higher) (Reading.declaration (n + M.higher)) >>= g)

def Takes {F : Type → Type} [Reading F] (M : Manner F) (v : Nat) (t : Token) {α : Type} [Likened α]
    (p : Parser α) (q : F α) : Prop :=
  ∀ ⦃β : Type⦄ [Likened β] ⦃f : α → Parser β⦄ ⦃g : α → F β⦄,
    (∀ a b, M.Like a b → M.Ok .part (v - 1) Anything (f a) (g b)) →
      M.Ok .part v (· = t) (p >>= f) (q >>= g)

end Manner

theorem ite_ok {F : Type → Type} {M : Manner F} {e : Extent} {v : Nat} {T : Token → Prop}
    {α : Type} [Likened α] {c c' : Bool} {p p' : Parser α} {q q' : F α} (hc : c = c')
    (h : c = true → M.Ok e v T p q) (h' : M.Ok e v T p' q') :
    M.Ok e v T (if c then p else p') (if c' then q else q') := by
  subst hc
  by_cases hc : c = true
  · rw [if_pos hc, if_pos hc]
    exact h hc
  · rw [if_neg hc, if_neg hc]
    exact h'

/-! ## Steps -/

section
variable {F : Type → Type} [Reading F] {M : Manner F} (hM : M.Steps) {e : Extent} {T : Token → Prop}
  {v : Nat} {α : Type} [Likened α]
include hM

theorem take_ok {test : Token → Bool} (hinline : ∀ t, test t = true → t.kind.Inline)
    (hkinds : ∀ t u : Token, t.kind.bare = u.kind.bare → test t = test u) {x : Expectation}
    (hx : x ≠ .openBlock) :
    M.Ok .part v T (take test x) (Reading.take test x) :=
  hM.peek fun t u _ htu => ite_ok (hkinds t u (hM.kinds htu))
    (fun ht => hM.skip (hinline t ht) (hM.pure (by simp) htu)) (hM.fail hx)

theorem mark_ok {m : Mark} (hm : m ∉ [.leftBrace, .rightBrace, .semicolon]) {x : Expectation}
    (hx : x ≠ .openBlock) : M.Ok .part v T (mark m x) (Reading.mark m x) :=
  take_ok hM (fun t ht => by rw [Token.isMark_iff.mp ht]; exact Kind.inline_mark hm)
    (fun _ _ h => isMark_congr h m) hx

theorem name_ok {x : Expectation} (hx : x ≠ .openBlock) :
    M.Ok .part v T (name x) (Reading.name x) :=
  take_ok hM (fun t ht => by rw [Token.isName_iff.mp ht]; exact Kind.inline_name)
    (fun _ _ h => isName_congr h) hx

theorem semicolon_ok {a b : α} (hab : M.Like a b) {x : Expectation} (hx : x ≠ .openBlock) :
    M.Ok .whole v T (mark .semicolon x >>= fun _ => pure a)
      (Reading.mark .semicolon x >>= fun _ => pure b) := by
  unfold mark take Reading.mark Reading.take
  rw [bind_assoc, bind_assoc]
  refine hM.peek fun t u _ htu => ?_
  have htest := isMark_congr (hM.kinds htu) .semicolon
  by_cases ht : t.isMark .semicolon = true
  · rw [if_pos ht, if_pos (htest.symm.trans ht)]
    simp only [bind_assoc, pure_bind]
    exact hM.stop (Token.isMark_iff.mp ht) hab
  · rw [if_neg ht, if_neg fun hu => ht (htest.trans hu), Reading.fail_bind]
    exact hM.fail hx

theorem takes_behind {t : Token} (ht : t.kind.Inline) {p : Parser α} {q : F α}
    (hpq : M.Ok .part (v - 1) Anything p q) :
    M.Takes v t (Reading.behind p) (Reading.behind q) := by
  intro β _ f g hf
  unfold Reading.behind
  rw [bind_assoc, bind_assoc]
  exact hM.skip ht (hM.bind hpq hf)

end

/-! ## Expressions -/

section
variable {F : Type → Type} [Reading F] {M : Manner F} (hM : M.Steps) {T : Token → Prop} {v b : Nat}
  {α : Type} [Likened α]
include hM

theorem many_ok {asked : Token → Option (Parser α)} {asked' : Token → Option (F α)}
    (hend : ∀ t, t.kind = .ending → asked' t = none) : ∀ {v b}, v ≤ b →
      (∀ w ≤ v, ∀ t u, M.token t u → Option.Rel (M.Takes w t) (asked t) (asked' u)) →
      M.Ok .part v Anything (many (Reading.item asked) b)
        (Reading.many (Reading.item asked') (b + M.higher))
  | v, 0, hb, _ => by
    obtain rfl : v = 0 := Nat.le_zero.mp hb
    rw [Nat.zero_add]
    exact hM.spent hend
  | v, b + 1, hb, htakes => by
    have hmore := many_ok (v := v - 1) (b := b) hend (by omega) fun w hw => htakes w (by omega)
    rw [← Reading.many_eq, Nat.add_right_comm, Reading.many_item_succ, Reading.many_item_succ,
      Reading.many_eq]
    refine hM.peek fun t u _ htu => ?_
    have hitem := htakes v (Nat.le_refl v) t u htu
    generalize asked t = o, asked' u = o' at hitem
    cases hitem with
    | none => exact hM.pure (by simp) .nil
    | some h =>
      exact h fun a a' ha => hM.bind hmore fun as as' has => hM.pure (by simp) (.cons ha has)

theorem commaList_ok {p : Parser α} {q : F α} (hb : v ≤ b) (hpq : M.Ok .part v Anything p q)
    {x : Expectation} (hx : x ≠ .openBlock) :
    M.Ok .part v Anything (commaList b p x) (Reading.commaList (b + M.higher) q x) := by
  have hmore : M.Ok .part v Anything (many (commaItem p) b)
      (Reading.many (Reading.commaItem q) (b + M.higher)) := by
    rw [← Reading.commaItem_eq]
    refine many_ok hM (fun t ht => if_neg (by simp [Token.isMark, ht])) hb fun w hw t u htu => ?_
    rw [← isMark_congr (hM.kinds htu)]
    by_cases ht : t.isMark .comma = true
    · rw [if_pos ht, if_pos ht]
      refine .some (takes_behind hM ?_ (hM.fewer hpq (by omega)))
      rw [Token.isMark_iff.mp ht]
      exact Kind.inline_mark (by decide)
    · rw [if_neg ht, if_neg ht]
      exact .none
  refine hM.peek fun t u _ htu => ite_ok (isMark_congr (hM.kinds htu) .rightParen) (fun ht => ?_) ?_
  · refine hM.skip ?_ (hM.pure (by simp) ⟨.nil, htu⟩)
    rw [Token.isMark_iff.mp ht]
    exact Kind.inline_mark (by decide)
  · exact hM.bind (hM.only hpq) fun first first' hfirst => hM.bind hmore fun more more' hmore =>
      hM.bind (mark_ok hM (by decide) hx) fun close close' hclose =>
        hM.pure (by simp) ⟨.cons hfirst hmore, hclose⟩

section
variable {p : Parser Expr} {q : F Expr}

theorem operations_ok (hb : v ≤ b) (hpq : M.Ok .part v Anything p q) (rank : Nat) :
    M.Ok .part v Anything (many (operation rank p) b)
      (Reading.many (Reading.operation rank q) (b + M.higher)) := by
  rw [← Reading.operation_eq]
  refine many_ok hM (fun t ht => by rw [ht]; rfl) hb fun w hw t u htu => ?_
  rw [← operator_congr (hM.kinds htu)]
  cases hop : Operator.ofKind? t.kind with
  | none => exact .none
  | some op =>
    by_cases hrank : op.rank = rank
    · simp only [Option.bind_some, if_pos hrank]
      have hsign : t.kind.Inline := (Grammar.sign_iff.mpr ⟨hop, rfl⟩).inExpression.inline
      exact .some
        (takes_behind hM hsign (hM.map (hM.fewer hpq (by omega)) fun right right' hright =>
          ⟨rfl, htu, hright⟩))
    · simp only [Option.bind_some, if_neg hrank]
      exact .none

omit hM in
theorem operations_alike {R : Token → Token → Prop} {e f : Expr} (h : e.Alike R f)
    {os os' : List (Operator × Token × Expr)} (hs : Likened.rel R os os') :
    (os.foldl (fun left (op, t, right) => op.node t left right) e).Alike R
      (os'.foldl (fun left (op, t, right) => op.node t left right) f) := by
  induction hs generalizing e f with
  | nil => exact h
  | @cons o o' _ _ ho _ ih =>
    obtain ⟨op, t, right⟩ := o
    obtain ⟨op', u, right'⟩ := o'
    obtain ⟨hop, ht, hright⟩ := ho
    obtain rfl : op = op' := hop
    refine ih ?_
    cases op with
    | binary op => exact .binary ht h hright
    | logical op => exact .logical ht h hright

theorem ranked_ok (hb : v ≤ b) (hpq : M.Ok .part v Anything p q) :
    ∀ rank, M.Ok .part v Anything (ranked b p rank) (Reading.ranked (b + M.higher) q rank)
  | 0 => hpq
  | rank + 1 => hM.bind (ranked_ok hb hpq rank) fun _ _ hfirst =>
      hM.map (operations_ok hM hb (ranked_ok hb hpq rank) _) fun _ _ hmore =>
        operations_alike hfirst hmore

theorem primary_ok (hpq : M.Ok .part (v - 1) Anything p q) :
    M.Ok .part v Anything (primary p) (Reading.primary q) := by
  refine hM.peek fun t u _ htu => ?_
  have hsome := literal?_congr (hM.kinds htu)
  cases hvalue : t.literal? with
  | some value =>
    obtain ⟨value', hvalue'⟩ := Option.isSome_iff_exists.mp (by rw [← hsome, hvalue]; rfl)
    simp only [hvalue']
    have hliteral : t.kind.Inline := (Grammar.constant_iff.mpr hvalue).begins.inExpression.inline
    exact hM.skip hliteral (hM.pure (by simp) (.literal htu hvalue hvalue'))
  | none =>
    have hvalue' : u.literal? = none :=
      Option.not_isSome_iff_eq_none.mp (by rw [← hsome, hvalue]; simp)
    simp only [hvalue']
    refine ite_ok (isName_congr (hM.kinds htu)) (fun ht => ?_) ?_
    · refine hM.skip ?_ (hM.pure (by simp) (.name htu))
      rw [Token.isName_iff.mp ht]
      exact Kind.inline_name
    refine ite_ok (isMark_congr (hM.kinds htu) _) (fun ht => ?_) (hM.fail (by decide))
    refine hM.skip ?_ (hM.bind hpq fun inner inner' hinner =>
      hM.map (mark_ok hM (by decide) (by decide)) fun _ _ _ => .group hinner)
    rw [Token.isMark_iff.mp ht]
    exact Kind.inline_mark (by decide)

omit hM in
theorem calls_alike {R : Token → Token → Prop} {e f : Expr} (h : e.Alike R f)
    {ass bss : List (List Expr × Token)} (hs : Likened.rel R ass bss) :
    (ass.foldl (fun callee (args, paren) => Expr.call callee args paren) e).Alike R
      (bss.foldl (fun callee (args, paren) => Expr.call callee args paren) f) := by
  induction hs generalizing e f with
  | nil => exact h
  | cons ho _ ih => exact ih (.call h ho.1 ho.2)

theorem calls_ok (hb : v ≤ b) (hpq : M.Ok .part (v - 1) Anything p q) :
    M.Ok .part v Anything (calls b p) (Reading.calls (b + M.higher) q) := by
  have hmore : M.Ok .part v Anything (many (arguments b p) b)
      (Reading.many (Reading.arguments (b + M.higher) q) (b + M.higher)) := by
    rw [← Reading.arguments_eq]
    refine many_ok hM (fun t ht => if_neg (by simp [Token.isMark, ht])) hb fun w hw t u htu => ?_
    rw [← isMark_congr (hM.kinds htu)]
    by_cases ht : t.isMark .leftParen = true
    · rw [if_pos ht, if_pos ht, Reading.commaList_eq]
      refine .some
        (takes_behind hM ?_ (commaList_ok hM (by omega) (hM.fewer hpq (by omega)) (by decide)))
      rw [Token.isMark_iff.mp ht]
      exact Kind.inline_mark (by decide)
    · rw [if_neg ht, if_neg ht]
      exact .none
  exact hM.bind (primary_ok hM hpq) fun _ _ hcallee => hM.map hmore fun _ _ hmore =>
    calls_alike hcallee hmore

end

theorem unaryWithin_ok :
    ∀ {n v}, v ≤ n → M.Ok .part v Anything (unaryWithin n) (Reading.unary (n + M.higher))
  | 0, v, hv => by
    obtain rfl : v = 0 := Nat.le_zero.mp hv
    rw [Nat.zero_add]
    exact hM.unary
  | n + 1, v, hv => by
    have hoperand : M.Ok .part (v - 1) Anything (unaryWithin n) (Reading.unary (n + M.higher)) :=
      unaryWithin_ok (by omega)
    have hexpr := ranked_ok hM (b := n + 1) (by omega) hoperand Rank.disjunction
    have hcalls := calls_ok hM hv hexpr
    rw [Nat.add_right_comm] at hcalls ⊢
    refine hM.peek fun t u _ htu => ?_
    rw [← unaryOp_congr (hM.kinds htu)]
    cases hop : UnaryOp.ofKind? t.kind with
    | some op =>
      have hsign : t.kind.Inline := (Grammar.unarySign_iff.mpr hop).inExpression.inline
      exact hM.skip hsign (hM.map hoperand fun _ _ h => .unary htu h)
    | none => exact hM.only hcalls

theorem expressionWithin_ok {n : Nat} (hv : v ≤ n) :
    M.Ok .part v Anything (expressionWithin n) (Reading.expression (n + M.higher)) :=
  ranked_ok hM hv (unaryWithin_ok hM hv) Rank.disjunction

theorem closedExpression_ok {n : Nat} (hv : v ≤ n) {x : Expectation} (hx : x ≠ .openBlock) :
    M.Ok .whole v Anything (closedExpression n x) (Reading.closedExpression (n + M.higher) x) :=
  hM.bind (expressionWithin_ok hM hv) fun _ _ he => semicolon_ok hM he hx

end

/-! ## Statements -/

section
variable {F : Type → Type} [Reading F] {M : Manner F} (hM : M.Laws) {v b : Nat}
  {α : Type} [Likened α]
include hM

section
variable {n : Nat} (hb : v ≤ b)
  (hpq : M.Ok .whole (v - 1) Anything (declarationWithin n) (Reading.declaration (n + M.higher)))
include hb hpq

theorem bracedBlock_ok {x : Expectation} (hx : x ≠ .openBlock) {f : List Stmt → Parser α}
    {g : List Stmt → F α} (hf : ∀ ss ss', M.Like ss ss' → M.Ok .rest v Anything (f ss) (g ss')) :
    M.Ok .whole v Anything (bracedBlock b (declarationWithin n) x >>= f)
      (Reading.bracedBlock (b + M.higher) (Reading.declaration (n + M.higher)) x >>= g) := by
  unfold bracedBlock mark take Reading.bracedBlock Reading.mark Reading.take
  simp only [bind_assoc]
  refine hM.peek fun t u _ htu => ?_
  have htest := isMark_congr (hM.kinds htu) .leftBrace
  by_cases ht : t.isMark .leftBrace = true
  · rw [if_pos ht, if_pos (htest.symm.trans ht)]
    simp only [bind_assoc, pure_bind]
    exact hM.block (Token.isMark_iff.mp ht) hb hpq hf
  · rw [if_neg ht, if_neg fun hu => ht (htest.trans hu), Reading.fail_bind]
    exact hM.fail hx

theorem function_ok : M.Ok .whole v Anything (function b (declarationWithin n))
    (Reading.function (b + M.higher) (Reading.declaration (n + M.higher))) :=
  hM.bind (name_ok hM.toSteps (by decide)) fun _ _ hname =>
    hM.bind (mark_ok hM.toSteps (by decide) (by decide)) fun _ _ _ =>
      hM.bind (commaList_ok hM.toSteps hb (name_ok hM.toSteps (by decide)) (by decide))
        fun _ _ hparams =>
          bracedBlock_ok hM hb hpq (by decide) fun _ _ hbody =>
            hM.pure (by simp) (.function hname hparams.1 hbody)

theorem otherwise_ok : M.Ok .rest v Anything (otherwise b (declarationWithin n))
    (Reading.otherwise (b + M.higher) (Reading.declaration (n + M.higher))) := by
  refine hM.peek fun t u _ htu => ite_ok (isKeyword_congr (hM.kinds htu) .lain) (fun ht => ?_)
    (hM.pure (by simp) .nil)
  have hinline : t.kind.Inline := by
    rw [Token.isKeyword_iff.mp ht]
    exact Kind.inline_keyword .lain
  refine hM.skip hinline
    (hM.peek fun t u _ htu => ite_ok (isKeyword_congr (hM.kinds htu) .jika) (fun _ => ?_) ?_)
  · exact hM.map (hM.rest (hM.only hpq)) fun _ _ hs => .cons hs .nil
  · have hblock := bracedBlock_ok hM (v := v - 1) (b := b) (by omega) (hM.fewer hpq (by omega))
      (x := .otherwiseStart) (by decide) (fun ss ss' hss => hM.pure (by simp) hss)
    simp only [bind_pure] at hblock
    exact hM.rest (hM.only hblock)

theorem branch_ok : M.Ok .whole v Anything (branch b (declarationWithin n))
    (Reading.branch (b + M.higher) (Reading.declaration (n + M.higher))) :=
  hM.bind (expressionWithin_ok hM.toSteps hb) fun _ _ he =>
    bracedBlock_ok hM hb hpq (by decide) fun _ _ hbody =>
      hM.map (otherwise_ok hM hb hpq) fun _ _ hrest => .branch he hbody hrest

theorem loop_ok : M.Ok .whole v Anything (loop b (declarationWithin n))
    (Reading.loop (b + M.higher) (Reading.declaration (n + M.higher))) :=
  hM.bind (expressionWithin_ok hM.toSteps hb) fun _ _ he =>
    bracedBlock_ok hM hb hpq (by decide) fun _ _ hbody =>
      hM.pure (by simp) (.loop he hbody)

omit hpq in
theorem giveBack_ok {keyword keyword' : Token} (hkeyword : M.token keyword keyword') :
    M.Ok .whole v Anything (giveBack b keyword) (Reading.giveBack (b + M.higher) keyword') :=
  hM.peek fun _ _ _ htu => ite_ok (isMark_congr (hM.kinds htu) _)
    (fun ht => hM.stop (Token.isMark_iff.mp ht) (.giveBack hkeyword .none))
    (hM.map (hM.only (closedExpression_ok hM.toSteps hb (by decide))) fun _ _ he =>
      .giveBack hkeyword (.some he))

omit hpq in
theorem declare_ok : M.Ok .whole v Anything (declare b) (Reading.declare (b + M.higher)) :=
  hM.bind (name_ok hM.toSteps (by decide)) fun _ _ hx =>
    hM.bind (mark_ok hM.toSteps (by decide) (by decide)) fun _ _ _ =>
      hM.map (closedExpression_ok hM.toSteps hb (by decide)) fun _ _ he => .declare hx he

theorem plainStatement_ok : M.Ok .whole v Anything (plainStatement b (declarationWithin n))
    (Reading.plainStatement (b + M.higher) (Reading.declaration (n + M.higher))) := by
  -- what stands behind a keyword has a token less before the ending
  have hb' : v - 1 ≤ b := by omega
  have hpq' := hM.fewer hpq (Nat.sub_le (v - 1) 1)
  refine hM.peek fun t u _ htu => ?_
  have hexpr : M.Ok .whole v (· = t)
      (closedExpression b .expressionEnd >>= fun e => pure (Stmt.expression e))
      (Reading.closedExpression (b + M.higher) .expressionEnd >>= fun e =>
        pure (Stmt.expression e)) :=
    hM.map (hM.only (closedExpression_ok hM.toSteps hb (by decide))) fun _ _ he => .expression he
  have hinline : ∀ w, t.kind = .keyword w → t.kind.Inline := fun w hk => hk ▸ Kind.inline_keyword w
  obtain ⟨x, y, hx, hy⟩ | ⟨s, s', hs, hs'⟩ | hu := Kind.bare_eq_cases (hM.kinds htu)
  · rw [hx, hy]
    exact hexpr
  · rw [hs, hs']
    exact hexpr
  rw [hu]
  cases hk : t.kind with
  | keyword w =>
    cases w with
    | cetak =>
      exact hM.skip (hinline _ hk)
        (hM.map (closedExpression_ok hM.toSteps hb' (by decide)) fun _ _ he => .print htu he)
    | jika => exact hM.skip (hinline _ hk) (branch_ok hM hb' hpq')
    | selama => exact hM.skip (hinline _ hk) (loop_ok hM hb' hpq')
    | balikin => exact hM.skip (hinline _ hk) (giveBack_ok hM hb' htu)
    | _ => exact hexpr
  | mark m =>
    cases m with
    | leftBrace => exact hM.block hk hb hpq fun _ _ hbody => hM.pure (by simp) (.block hbody)
    | _ => exact hexpr
  | _ => exact hexpr

theorem anyStatement_ok : M.Ok .whole v Anything (anyStatement b (declarationWithin n))
    (Reading.anyStatement (b + M.higher) (Reading.declaration (n + M.higher))) := by
  have hb' : v - 1 ≤ b := by omega
  refine hM.peek fun t u _ htu => ?_
  have hother := hM.assignment (T := (· = t))
    (fun x y hxy => hM.map (closedExpression_ok hM.toSteps hb (x := .assignmentEnd)
    (by decide)) fun _ _ he => Stmt.Alike.assign hxy he) (plainStatement_ok hM hb hpq)
  have hinline : ∀ w, t.kind = .keyword w → t.kind.Inline := fun w hk => hk ▸ Kind.inline_keyword w
  obtain ⟨x, y, hx, hy⟩ | ⟨s, s', hs, hs'⟩ | hu := Kind.bare_eq_cases (hM.kinds htu)
  · rw [hx, hy]
    exact hother
  · rw [hs, hs']
    exact hother
  rw [hu]
  cases hk : t.kind with
  | keyword w =>
    cases w with
    | fungsi =>
      exact hM.skip (hinline _ hk) (function_ok hM hb' (hM.fewer hpq (Nat.sub_le (v - 1) 1)))
    | misal => exact hM.skip (hinline _ hk) (declare_ok hM hb')
    | _ => exact hother
  | _ => exact hother

end

theorem declarationWithin_ok : ∀ {n v}, v ≤ n →
    M.Ok .whole v Anything (declarationWithin n) (Reading.declaration (n + M.higher))
  | 0, v, hv => by
    obtain rfl : v = 0 := Nat.le_zero.mp hv
    rw [Nat.zero_add]
    exact hM.declaration
  | n + 1, v, hv => by
    have hstatement := anyStatement_ok hM hv (declarationWithin_ok (Nat.sub_le_of_le_add hv))
    rw [Nat.add_right_comm] at hstatement ⊢
    exact hstatement

end

/-! ## Assignments -/

/-- An assignment takes a name and the sign behind it, as a declaration does. -/
theorem assignment_eq {α : Type} (f : Token → Parser α) (p : Parser α) :
    Reading.assignment f p = assigned? >>= fun o => o.elim p fun x =>
      name .variableName >>= fun _ => mark .equals .initializer >>= fun _ => f x := by
  funext ts
  cases ts with
  | nil => rfl
  | cons x ts =>
    unfold Reading.assignment
    change (assigned? >>= _) (x :: ts) = _
    rw [bind_of_ok (assigned?_cons x ts), bind_of_ok (assigned?_cons x ts)]
    by_cases hx : (x.isName && (front ts).isMark .equals) = true
    · simp only [if_pos hx, Option.elim_some]
      rw [Bool.and_eq_true, Token.isName_iff, Token.isMark_iff] at hx
      cases ts with
      | nil => cases hx.2
      | cons sign ts =>
        have hs : sign.kind = .mark .equals := hx.2
        rw [name_bind hx.1, mark_bind hs]
        change (skip >>= fun _ => skip >>= fun _ => f x) (x :: sign :: ts) = f x ts
        rw [skip_bind (by simp [hx.1]), skip_bind (by simp [hs])]
    · simp only [if_neg hx, Option.elim_none]

theorem assignment_ok {M : Manner Parser} (hM : M.Steps) {v : Nat} {T : Token → Prop}
    {α : Type} [Likened α] {f g : Token → Parser α} {p q : Parser α}
    (hseen : M.Ok .part v T assigned? assigned?)
    (hf : ∀ x y, M.token x y → M.Ok .whole v Anything (f x) (g y))
    (hpq : M.Ok .whole v Anything p q) :
    M.Ok .whole v T (Reading.assignment f p) (Reading.assignment g q) := by
  rw [assignment_eq, assignment_eq]
  refine hM.bind hseen fun o o' ho => ?_
  cases ho with
  | none => exact hpq
  | some hxy =>
    exact hM.bind (name_ok hM (by decide)) fun _ _ _ =>
      hM.bind (mark_ok hM (by decide) (by decide)) fun _ _ _ => hf _ _ hxy

/-! ## Manners without extents -/

namespace Manner

variable {F : Type → Type} [Reading F] {M : Manner F}

/-- Steps of a manner that makes no difference between parts and wholes. -/
structure Plain (M : Manner F) : Prop where
  extent : ∀ {e e' v T} {α : Type} [Likened α] {p : Parser α} {q : F α}, M.Ok e v T p q →
    M.Ok e' v T p q
  kinds : ∀ {t u : Token}, M.token t u → t.kind.bare = u.kind.bare
  only : ∀ {v T} {α : Type} [Likened α] {p : Parser α} {q : F α}, M.Ok .part v Anything p q →
    M.Ok .part v T p q
  fewer : ∀ {v w T} {α : Type} [Likened α] {p : Parser α} {q : F α}, M.Ok .part v T p q → w ≤ v →
    M.Ok .part w T p q
  pure : ∀ {v T} {α : Type} [Likened α] {a b : α}, M.Like a b → M.Ok .part v T (pure a) (pure b)
  fail : ∀ {v T} {α : Type} [Likened α] {x : Expectation}, x ≠ .openBlock →
    M.Ok .part v T (fail x : Parser α) (Reading.fail x)
  bind : ∀ {v T} {α β : Type} [Likened α] [Likened β] {p : Parser α} {q : F α} {f : α → Parser β}
    {g : α → F β},
    M.Ok .part v T p q → (∀ a b, M.Like a b → M.Ok .part v Anything (f a) (g b)) →
      M.Ok .part v T (p >>= f) (q >>= g)
  peek : ∀ {v T} {α : Type} [Likened α] {f : Token → Parser α} {g : Token → F α},
    (∀ t u, T t → M.token t u → M.Ok .part v (· = t) (f t) (g u)) →
      M.Ok .part v T (peek >>= f) (Reading.peek >>= g)
  skip : ∀ {v} {t : Token} {α : Type} [Likened α] {f : Unit → Parser α} {g : Unit → F α},
    t.kind.Inner → M.Ok .part (v - 1) Anything (f ()) (g ()) →
      M.Ok .part v (· = t) (skip >>= f) (Reading.skip >>= g)
  spent : ∀ {α : Type} [Likened α] {asked : Token → Option (F α)},
    (∀ t, t.kind = .ending → asked t = none) →
      M.Ok .part 0 Anything (Pure.pure []) (Reading.many (Reading.item asked) M.higher)
  unary : M.Ok .part 0 Anything (Parser.fail .expression) (Reading.unary M.higher)

theorem Plain.steps (hM : M.Plain) : M.Steps where
  kinds := hM.kinds
  only h := hM.extent (hM.only (hM.extent h))
  fewer h hw := hM.extent (hM.fewer (hM.extent h) hw)
  rest := hM.extent
  pure _ h := hM.extent (hM.pure h)
  fail hx := hM.extent (hM.fail hx)
  bind h hf := hM.extent (hM.bind h fun a b hab => hM.extent (hf a b hab))
  map h hf := hM.extent (hM.bind (hM.extent h) fun a b hab => hM.pure (hf a b hab))
  peek h := hM.extent (hM.peek fun t u ht htu => hM.extent (h t u ht htu))
  skip ht h := hM.extent (hM.skip ht.1 (hM.extent h))
  stop ht h := hM.extent (hM.skip (by simp [Kind.Inner, ht]) (hM.pure h))
  spent := hM.spent
  unary := hM.unary

/-- Parsers that do not go on together behind errors have blocks of their own. -/
theorem Plain.laws {M : Manner Parser} (hM : M.Plain)
    (hseen : ∀ {v T}, M.Ok .part v T assigned? assigned?)
    (hdeclaration : M.Ok .part 0 Anything (Parser.fail .expression) (Reading.declaration M.higher))
    (hblock : ∀ {v b n} {t : Token}, t.kind = .mark .leftBrace → v ≤ b →
      M.Ok .part (v - 1) Anything (declarationWithin n) (Reading.declaration (n + M.higher)) →
      M.Ok .part v (· = t) (Parser.skip >>= fun _ => block b (declarationWithin n))
        (Parser.skip >>= fun _ =>
          Reading.block (b + M.higher) (Reading.declaration (n + M.higher)))) : M.Laws where
  toSteps := hM.steps
  assignment := assignment_ok hM.steps hseen
  declaration := hM.extent hdeclaration
  block {v b n t α _ f g} ht hb hpq hf := by
    have hbody := hM.bind (hblock ht hb (hM.extent hpq)) fun ss ss' hss => hM.extent (hf ss ss' hss)
    simp only [bind_assoc] at hbody
    exact hM.extent hbody

/-- Steps that recovery and the braces of blocks are among. -/
structure Recovers (M : Manner F) : Prop extends M.Plain where
  take : ∀ {v} {t : Token} {α : Type} [Likened α] {f : Unit → Parser α} {g : Unit → F α},
    t.kind ≠ .ending → M.Ok .part (v - 1) Anything (f ()) (g ()) →
      M.Ok .part v (· = t) (Parser.skip >>= f) (Reading.skip >>= g)
  report : ∀ {v T} {x : Expectation} {α : Type} [Likened α] {f : Unit → Parser α} {g : Unit → F α},
    M.Ok .part v T (f ()) (g ()) → M.Ok .part v T (report x >>= f) (Reading.report x >>= g)
  recover : ∀ {v b n} {t : Token} {q : F Stmt}, t.kind ≠ .mark .rightBrace → t.kind ≠ .ending →
    v ≤ b → M.Ok .part v Anything (declarationWithin n) q →
      M.Takes v t (recover (declarationWithin n)) (Reading.recover b q)
  assignment : ∀ {v T} {α : Type} [Likened α] {f : Token → Parser α} {g : Token → F α}
    {p : Parser α} {q : F α},
    (∀ x y, M.token x y → M.Ok .whole v Anything (f x) (g y)) → M.Ok .whole v Anything p q →
    M.Ok .whole v T (Reading.assignment f p) (Reading.assignment g q)
  declaration : M.Ok .whole 0 Anything (Parser.fail .expression) (Reading.declaration M.higher)

end Manner

theorem items_alike {R : Token → Token → Prop} {os os' : List (Option Stmt)}
    (h : Likened.rel R os os') : Likened.rel R (os.filterMap id) (os'.filterMap id) := by
  induction h with
  | nil => exact .nil
  | cons ho _ ih =>
    cases ho with
    | none => exact ih
    | some hs => exact .cons hs ih

section
variable {F : Type → Type} [Reading F] {M : Manner F} (hM : M.Recovers) {v b n : Nat} {q : F Stmt}
include hM

theorem block_ok (hb : v ≤ b) (h : M.Ok .part v Anything (declarationWithin n) q) :
    M.Ok .part v Anything (block b (declarationWithin n)) (Reading.block (b + M.higher) q) := by
  have hitems : M.Ok .part v Anything (many (blockItem (declarationWithin n)) b)
      (Reading.many (Reading.blockItem (b + M.higher) q) (b + M.higher)) := by
    rw [← Reading.blockItem_eq b]
    refine many_ok hM.steps (fun t ht => if_pos (by simp [Token.isEnding, ht])) hb
      fun w hw t u htu => ?_
    rw [← isMark_congr (hM.kinds htu), ← isEnding_congr (hM.kinds htu)]
    by_cases ht : (t.isMark .rightBrace || t.isEnding) = true
    · rw [if_pos ht, if_pos ht]
      exact .none
    · rw [if_neg ht, if_neg ht]
      simp only [Bool.or_eq_true, Token.isMark_iff, Token.isEnding_iff, not_or] at ht
      exact .some (hM.recover ht.1 ht.2 (by omega) (hM.fewer h hw))
  refine hM.bind hitems fun items items' hitems => hM.bind ?_ fun _ _ _ =>
    hM.pure (items_alike hitems)
  exact hM.peek fun t u _ htu => ite_ok (isMark_congr (hM.kinds htu) _)
    (fun ht => hM.take (by simp [Token.isMark_iff.mp ht]) (hM.pure htu)) (hM.fail (by decide))

theorem programItems_ok (hb : v ≤ b) (h : M.Ok .part v Anything (declarationWithin n) q) :
    M.Ok .part v Anything (many (programItem (declarationWithin n)) b)
      (Reading.many (Reading.programItem (b + M.higher) q) (b + M.higher)) := by
  rw [← Reading.programItem_eq b]
  refine many_ok hM.steps (fun t ht => if_pos (by simp [Token.isEnding, ht])) hb
    fun w hw t u htu => ?_
  rw [← isMark_congr (hM.kinds htu), ← isEnding_congr (hM.kinds htu)]
  by_cases he : t.isEnding = true
  · rw [if_pos he, if_pos he]
    exact .none
  rw [if_neg he, if_neg he]
  rw [Token.isEnding_iff] at he
  by_cases ht : t.isMark .rightBrace = true
  · rw [if_pos ht, if_pos ht]
    refine .some fun β _ f g hf => ?_
    simp only [bind_assoc, pure_bind]
    exact hM.report (hM.take he (hf _ _ .none))
  · rw [if_neg ht, if_neg ht]
    rw [Token.isMark_iff] at ht
    exact .some (hM.recover ht he (by omega) (hM.fewer h hw))

theorem Manner.Recovers.laws : M.Laws where
  toSteps := hM.steps
  assignment := hM.assignment
  declaration := hM.declaration
  block {v b n t α _ f g} ht hb hpq hf := by
    have hblock := block_ok hM (v := v - 1) (b := b) (by omega) (hM.extent hpq)
    refine hM.extent (hM.take (by simp [ht]) (hM.bind hblock fun ss ss' hss => ?_))
    exact hM.fewer (hM.extent (hf ss ss' hss)) (Nat.sub_le v 1)

theorem program_ok (hv : v ≤ n) :
    M.Ok .part v Anything (programWithin n) (Reading.program (n + M.higher)) :=
  hM.bind (programItems_ok hM hv (hM.extent (declarationWithin_ok hM.laws hv))) fun _ _ hitems =>
    hM.pure (items_alike hitems)

end

end Parser

end Naskah
