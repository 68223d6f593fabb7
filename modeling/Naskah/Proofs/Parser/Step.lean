import Naskah.Tree.Statement
import Naskah.Proofs.Grammar.Words

/-!
# Steps of parsers

How the elementary parsers move over a token list, and how a sequence of
parsers goes on behind a first that met no error.
-/

namespace Naskah

theorem afterFront_of_ne {t : Token} (h : t.kind ≠ .ending) (ts : List Token) :
    afterFront (t :: ts) = ts := by
  have : t.isEnding = false := by
    rw [← Bool.not_eq_true, Token.isEnding_iff]; exact h
  simp [afterFront, this]

theorem exists_cons_of_front {ts : List Token} {t : Token} (h : front ts = t)
    (ht : t.kind ≠ .ending) : ∃ us, ts = t :: us := by
  cases ts with
  | nil => subst h; exact absurd rfl ht
  | cons u us => exact ⟨us, by rw [← h]; rfl⟩

theorem front_append_congr {r r' : List Token} (h : front r' = front r) (c : List Token) :
    front (c ++ r') = front (c ++ r) := by
  cases c with
  | nil => exact h
  | cons t c => rfl

namespace Parser

variable {α β : Type}

instance : LawfulMonad Parser := LawfulMonad.mk' _
  (by
    intro α p
    funext ts
    simp only [Functor.map, Parser.bind, Parser.pure, Function.comp, id]
    rcases p ts with ⟨a | a, es, r⟩ <;> simp)
  (by
    intro α β a f
    funext ts
    simp [Bind.bind, Pure.pure, Parser.bind, Parser.pure])
  (by
    intro α β γ p f g
    funext ts
    simp only [Bind.bind, Parser.bind]
    rcases p ts with ⟨e | a, es, r⟩
    · rfl
    · simp only
      rcases f a r with ⟨e | b, es', r'⟩ <;> simp)

theorem pure_apply (a : α) (ts : List Token) : (pure a : Parser α) ts = ⟨.ok a, [], ts⟩ := rfl

theorem bind_of_ok {p : Parser α} {ts r : List Token} {a : α} (h : p ts = ⟨.ok a, [], r⟩)
    (f : α → Parser β) : (p >>= f) ts = f a r := by
  simp [Bind.bind, Parser.bind, h]

theorem bind_of_reported {p : Parser α} {ts r : List Token} {a : α} {es : List SyntaxError}
    (h : p ts = ⟨.ok a, es, r⟩) (f : α → Parser β) :
    (p >>= f) ts = ⟨(f a r).result, es ++ (f a r).reported, (f a r).rest⟩ := by
  simp [Bind.bind, Parser.bind, h]

theorem peek_bind (f : Token → Parser β) (ts : List Token) : (peek >>= f) ts = f (front ts) ts :=
  bind_of_ok rfl f

theorem skip_bind {t : Token} (h : t.kind ≠ .ending) (f : Unit → Parser β) (ts : List Token) :
    (skip >>= f) (t :: ts) = f () ts :=
  bind_of_ok (by simp [skip, afterFront_of_ne h]) f

theorem take_of {p : Token → Bool} {t : Token} (hp : p t = true) (h : t.kind ≠ .ending)
    (x : Expectation) (ts : List Token) : take p x (t :: ts) = ⟨.ok t, [], ts⟩ := by
  unfold take
  rw [peek_bind, front, if_pos hp]
  exact skip_bind h _ ts

theorem mark_bind {m : Mark} {t : Token} (h : t.kind = .mark m) (x : Expectation)
    (f : Token → Parser β) (ts : List Token) : (mark m x >>= f) (t :: ts) = f t ts :=
  bind_of_ok (take_of (Token.isMark_iff.mpr h) (by simp [h]) x ts) f

theorem name_bind {t : Token} (h : t.kind = .name) (x : Expectation) (f : Token → Parser β)
    (ts : List Token) : (name x >>= f) (t :: ts) = f t ts :=
  bind_of_ok (take_of (Token.isName_iff.mpr h) (by simp [h]) x ts) f

/-! ## Assignments -/

theorem assigned?_cons (x : Token) (ts : List Token) :
    assigned? (x :: ts) =
      ⟨.ok (if x.isName && (front ts).isMark .equals then some x else none), [], x :: ts⟩ := by
  cases ts with
  | nil => simp [assigned?, front, Token.noMore, Token.isMark]
  | cons t ts => rfl

theorem exists_assigned (ts : List Token) : ∃ o, assigned? ts = ⟨.ok o, [], ts⟩ := by
  cases ts with
  | nil => exact ⟨none, rfl⟩
  | cons x ts => exact ⟨_, assigned?_cons x ts⟩

section
variable {n : Nat} {p : Parser Stmt} {t : Token} {ts : List Token}

/-- What is read in front of a token that is no keyword of a declaration. -/
def assignmentOrPlain (n : Nat) (p : Parser Stmt) : Parser Stmt := do
  match ← assigned? with
  | some x =>
    skip
    skip
    let e ← closedExpression n .assignmentEnd
    pure (.assign x e)
  | none => plainStatement n p

theorem assignmentOrPlain_eq_plain
    (h : ∀ x ts', ts = x :: ts' → x.kind = .name → (front ts').kind ≠ .mark .equals) :
    assignmentOrPlain n p ts = plainStatement n p ts := by
  have none : assigned? ts = ⟨.ok none, [], ts⟩ := by
    cases ts with
    | nil => rfl
    | cons x ts =>
      rw [assigned?_cons, if_neg]
      rw [Bool.and_eq_true, Token.isName_iff, Token.isMark_iff]
      exact fun hx => h x ts rfl hx.1 hx.2
  rw [assignmentOrPlain, bind_of_ok none]

theorem assignmentOrPlain_eq_assign {sign : Token} (ht : t.kind = .name)
    (hs : sign.kind = .mark .equals) (ts : List Token) : assignmentOrPlain n p (t :: sign :: ts) =
      (closedExpression n .assignmentEnd >>= fun e => pure (Stmt.assign t e)) ts := by
  have some : assigned? (t :: sign :: ts) = ⟨.ok (some t), [], t :: sign :: ts⟩ := by
    rw [assigned?_cons, if_pos (by simp [front, Token.isName, Token.isMark, ht, hs])]
  rw [assignmentOrPlain, bind_of_ok some]
  simp only
  rw [skip_bind (by simp [ht]), skip_bind (by simp [hs])]

theorem assignmentOrPlain_of_ne (hs : (front ts).kind ≠ .mark .equals) :
    assignmentOrPlain n p (t :: ts) = plainStatement n p (t :: ts) := by
  refine assignmentOrPlain_eq_plain ?_
  intro x ts' hx _
  cases hx
  exact hs

end

/-! ## Repetition -/

theorem many_of_none {item : Parser (Option α)} {ts : List Token}
    (h : item ts = ⟨.ok none, [], ts⟩) (b : Nat) : many item b ts = ⟨.ok [], [], ts⟩ := by
  cases b with
  | zero => rfl
  | succ b => unfold many; rw [bind_of_ok h]; rfl

theorem many_of_some {item : Parser (Option α)} {ts r : List Token} {a : α}
    (h : item ts = ⟨.ok (some a), [], r⟩) (b : Nat) :
    many item (b + 1) ts = (many item b >>= fun more => pure (a :: more)) r := by
  rw [many, bind_of_ok h]

def goOn (item : Parser (Option α)) (add : β → α → β) (b : Nat) (x : β) : Parser β := do
  let more ← many item b
  pure (more.foldl add x)

theorem goOn_of_none {item : Parser (Option α)} {ts : List Token} (h : item ts = ⟨.ok none, [], ts⟩)
    (add : β → α → β) (b : Nat) (x : β) : goOn item add b x ts = ⟨.ok x, [], ts⟩ := by
  unfold goOn
  rw [bind_of_ok (many_of_none h b)]
  rfl

theorem goOn_of_some {item : Parser (Option α)} {ts r : List Token} {a : α}
    (h : item ts = ⟨.ok (some a), [], r⟩) (add : β → α → β) (b : Nat) (x : β) :
    goOn item add (b + 1) x ts = goOn item add b (add x a) r := by
  unfold goOn
  rw [many, bind_assoc, bind_of_ok h]
  simp

end Parser

end Naskah
