import Naskah.Proofs.Parser.Manner

/-!
# Parsers within a line

A line goes up to a semicolon. Within one, nothing is got over: a reader of
expressions takes no semicolon, reports nothing and fails at the token it has
come to. A reader of statements does the same as long as it has opened no
block, so what it leaves behind an error begins in the line of the error.
-/

namespace Naskah

def Unclosed (c : List Token) : Prop := ∀ t ∈ c, t.kind ≠ .mark .semicolon

@[simp] theorem unclosed_nil : Unclosed [] := by simp [Unclosed]

@[simp] theorem unclosed_cons {t : Token} {c : List Token} :
    Unclosed (t :: c) ↔ t.kind ≠ .mark .semicolon ∧ Unclosed c := by
  simp [Unclosed]

theorem Unclosed.append {c d : List Token} (hc : Unclosed c) (hd : Unclosed d) :
    Unclosed (c ++ d) :=
  List.forall_mem_append.mpr ⟨hc, hd⟩

inductive Parsed.Inline {α : Type} (ts : List Token) : Parsed α → Prop
  | ok {c r a} : ts = c ++ r → Unclosed c → Inline ts ⟨.ok a, [], r⟩
  | error {c r x} : ts = c ++ r → Unclosed c →
      Inline ts ⟨.error (.unexpectedToken (front r) x), [], r⟩

/-- An end within the line or at its semicolon, unless the line opens a block. -/
inductive Parsed.UpToBlock {α : Type} (ts : List Token) : Parsed α → Prop
  | opened {c left r p} : ts = c ++ left :: r → Unclosed c → left.kind = .mark .leftBrace →
      UpToBlock ts p
  | ok {a r} : UpToBlock ts ⟨.ok a, [], r⟩
  | error {c r x} : ts = c ++ r → Unclosed c →
      UpToBlock ts ⟨.error (.unexpectedToken (front r) x), [], r⟩

theorem Parsed.UpToBlock.behind {α : Type} {c ts : List Token} {p : Parsed α} (hc : Unclosed c)
    (h : p.UpToBlock ts) : p.UpToBlock (c ++ ts) := by
  cases h with
  | opened hts hd hleft => exact .opened (by rw [hts, List.append_assoc]) (hc.append hd) hleft
  | ok => exact .ok
  | error hts hd => exact .error (by rw [hts, List.append_assoc]) (hc.append hd)

namespace Parser

variable {α β : Type} {T : Token → Prop}

def Inline (T : Token → Prop) (p : Parser α) : Prop := ∀ ts, T (front ts) → (p ts).Inline ts

def UpToBlock (T : Token → Prop) (p : Parser α) : Prop := ∀ ts, T (front ts) → (p ts).UpToBlock ts

/-- Parts end within the line, wholes unless a block is opened; what stands
behind a block may do anything. -/
def lined : Manner Parser :=
  ⟨Eq, 0, fun e _ T _ _ p _ => match e with
    | .part => Inline T p
    | .whole => UpToBlock T p
    | .rest => True⟩

/-! ## Steps within a line -/

theorem inline_pure (a : α) : Inline T (pure a : Parser α) :=
  fun ts _ => .ok (List.nil_append ts).symm unclosed_nil

theorem inline_fail (x : Expectation) : Inline T (fail x : Parser α) :=
  fun ts _ => .error (List.nil_append ts).symm unclosed_nil

theorem inline_skip {t : Token} (ht : t.kind.Inline) : Inline (· = t) skip := by
  intro ts hT
  obtain ⟨ts, rfl⟩ := exists_cons_of_front hT ht.1.1
  rw [skip, afterFront_of_ne ht.1.1]
  exact .ok (List.singleton_append).symm (by simp [ht.2])

theorem inline_assigned : Inline T assigned? := by
  intro ts _
  obtain ⟨o, ho⟩ := exists_assigned ts
  rw [ho]
  exact .ok (List.nil_append _).symm unclosed_nil

theorem Inline.bind {p : Parser α} {f : α → Parser β} (hp : Inline T p)
    (hf : ∀ a, Inline Anything (f a)) : Inline T (p >>= f) := by
  intro ts hT
  have h := hp ts hT
  simp only [Bind.bind, Parser.bind]
  generalize p ts = o at h
  cases h with
  | error hts hc => exact .error hts hc
  | @ok c r a hts hc =>
    have h' := hf a r trivial
    simp only
    generalize f a r = o' at h'
    cases h' with
    | ok hr hd => exact .ok (by rw [hts, hr, List.append_assoc]) (hc.append hd)
    | error hr hd => exact .error (by rw [hts, hr, List.append_assoc]) (hc.append hd)

/-! ## Steps up to a block -/

theorem Inline.thenLine {p : Parser α} {f : α → Parser β} (hp : Inline T p)
    (hf : ∀ a, UpToBlock Anything (f a)) : UpToBlock T (p >>= f) := by
  intro ts hT
  have h := hp ts hT
  simp only [Bind.bind, Parser.bind]
  generalize p ts = o at h
  cases h with
  | error hts hc => exact .error hts hc
  | @ok c r a hts hc =>
    subst hts
    exact (hf a r trivial).behind hc

theorem UpToBlock.thenPure {p : Parser α} (h : UpToBlock T p) (g : α → β) :
    UpToBlock T (p >>= fun a => pure (g a)) := by
  intro ts hT
  have h := h ts hT
  simp only [Bind.bind, Parser.bind]
  generalize p ts = o at h
  cases h with
  | opened hts hc hleft => exact .opened hts hc hleft
  | ok => exact .ok
  | error hts hc => exact .error hts hc

theorem opened_upToBlock {t : Token} (ht : t.kind = .mark .leftBrace) (p : Parser α) :
    UpToBlock (· = t) p := by
  intro ts hT
  obtain ⟨ts, rfl⟩ := exists_cons_of_front hT (by simp [ht])
  exact .opened (List.nil_append _).symm unclosed_nil ht

/-! ## All readers -/

theorem lined_steps : lined.Steps where
  kinds h := by rw [h]
  only {e} _ _ _ _ _ _ h := by
    cases e with
    | part => exact fun ts _ => h ts trivial
    | whole => exact fun ts _ => h ts trivial
    | rest => trivial
  fewer h _ := h
  rest _ := trivial
  pure {e} _ _ _ _ _ _ he _ := by
    cases e with
    | part => exact inline_pure _
    | whole => exact absurd rfl he
    | rest => trivial
  fail {e} _ _ _ _ x _ := by
    cases e with
    | part => exact inline_fail x
    | whole => exact fun ts _ => .error (List.nil_append ts).symm unclosed_nil
    | rest => trivial
  bind {e} _ _ _ _ _ _ _ _ _ _ hp hf := by
    cases e with
    | part => exact Inline.bind hp fun a => hf a a (Likened.rel_eq.mpr rfl)
    | whole => exact Inline.thenLine hp fun a => hf a a (Likened.rel_eq.mpr rfl)
    | rest => trivial
  map {e} _ _ _ _ _ _ _ _ _ _ hp _ := by
    cases e with
    | part => exact Inline.bind hp fun a => inline_pure _
    | whole => exact UpToBlock.thenPure hp _
    | rest => trivial
  peek {e} _ _ _ _ _ _ h := by
    cases e with
    | part =>
      intro ts hT
      rw [peek_bind]
      exact h _ _ hT rfl ts rfl
    | whole =>
      intro ts hT
      rw [peek_bind]
      exact h _ _ hT rfl ts rfl
    | rest => trivial
  skip {e} _ _ _ _ _ _ ht h := by
    cases e with
    | part => exact (inline_skip ht).bind fun _ => h
    | whole => exact (inline_skip ht).thenLine fun _ => h
    | rest => trivial
  stop _ _ _ _ := .ok
  spent _ := inline_pure []
  unary := inline_fail .expression

theorem lined_laws : lined.Laws where
  toSteps := lined_steps
  assignment := assignment_ok lined_steps inline_assigned
  declaration := lined_steps.fail (by decide)
  block ht _ _ _ := opened_upToBlock ht _

theorem expressionWithin_inline (n : Nat) : Inline Anything (expressionWithin n) :=
  expressionWithin_ok lined_steps (Nat.le_refl n)

theorem declarationWithin_upToBlock (n : Nat) : UpToBlock Anything (declarationWithin n) :=
  declarationWithin_ok lined_laws (Nat.le_refl n)

end Parser

end Naskah
