import Naskah.Proofs.Parser.Manner

/-!
# Reading related tokens

The parser looks at the kinds of tokens only, and of numbers and texts not at
the payload. So it reads two lists of related tokens in step: the trees are
alike, and so are the errors. Nothing is read behind an ending, and the lists
have one, so that the token which stands for a missing one plays no part.
-/

namespace Naskah

structure OfKinds (R : Token → Token → Prop) : Prop where
  bare : ∀ {t u}, R t u → t.kind.bare = u.kind.bare

structure TokensAlike (R : Token → Token → Prop) (ts us : List Token) : Prop where
  tokens : List.Forall₂ R ts us
  ended : ∃ t ∈ ts, t.kind = .ending

inductive ParsedAlike {α : Type} [Likened α] (R : Token → Token → Prop) : Parsed α → Parsed α → Prop
  | ok {a b es es' r r'} : Likened.rel R a b → List.Forall₂ (SyntaxError.Alike R) es es' →
      TokensAlike R r r' → ParsedAlike R ⟨.ok a, es, r⟩ ⟨.ok b, es', r'⟩
  | error {e e' es es' r r'} : e.Alike R e' → List.Forall₂ (SyntaxError.Alike R) es es' →
      TokensAlike R r r' → ParsedAlike R ⟨.error e, es, r⟩ ⟨.error e', es', r'⟩

section
variable {R : Token → Token → Prop} {ts us : List Token}

theorem TokensAlike.tail {t u : Token} (h : TokensAlike R (t :: ts) (u :: us))
    (ht : ¬ t.isEnding = true) : TokensAlike R ts us := by
  obtain ⟨tokens, e, he, hend⟩ := h
  cases tokens with
  | cons _ hs =>
    refine ⟨hs, e, ?_, hend⟩
    rcases List.mem_cons.mp he with rfl | he
    · exact absurd (Token.isEnding_iff.mpr hend) ht
    · exact he

end

namespace Parser

variable {R : Token → Token → Prop} {ts us : List Token}

theorem front_alike (h : TokensAlike R ts us) : R (front ts) (front us) := by
  obtain ⟨tokens, t, ht, -⟩ := h
  cases tokens with
  | nil => cases ht
  | cons h _ => exact h

theorem afterFront_alike (hR : OfKinds R) (h : TokensAlike R ts us) :
    TokensAlike R (afterFront ts) (afterFront us) := by
  have hfull := h
  obtain ⟨tokens, -⟩ := h
  cases tokens with
  | nil => exact hfull
  | @cons t u ts us htu hs =>
    rw [afterFront, afterFront, ← isEnding_congr (hR.bare htu)]
    by_cases ht : t.isEnding = true
    · rw [if_pos ht, if_pos ht]
      exact hfull
    · rw [if_neg ht, if_neg ht]
      exact hfull.tail ht

/-! ## Recovery -/

theorem startsStatement_congr {t u : Token} (h : t.kind.bare = u.kind.bare) :
    startsStatement t = startsStatement u := by
  simp [startsStatement, isKeyword_congr h]

theorem skipPast_alike (hR : OfKinds R) {p q : Token} (hpq : R p q) (h : TokensAlike R ts us) :
    TokensAlike R (skipPast p ts) (skipPast q us) := by
  have hfull := h
  obtain ⟨tokens, -⟩ := h
  induction tokens generalizing p q with
  | nil => exact hfull
  | @cons t u ts us htu hs ih =>
    have hk := hR.bare htu
    rw [skipPast, skipPast, ← isMark_congr (hR.bare hpq), ← isEnding_congr hk, ← isMark_congr hk,
      ← startsStatement_congr hk]
    split
    · exact hfull
    · rename_i hstop
      exact ih htu (hfull.tail fun he => hstop (by simp [he]))

theorem synchronize_alike (hR : OfKinds R) (h : TokensAlike R ts us) :
    TokensAlike R (synchronize ts) (synchronize us) := by
  have hfull := h
  obtain ⟨tokens, -⟩ := h
  cases tokens with
  | nil => exact hfull
  | @cons t u ts us htu hs =>
    have hk := hR.bare htu
    rw [synchronize, synchronize, ← isEnding_congr hk, ← isMark_congr hk]
    split
    · exact hfull
    · rename_i hstop
      exact skipPast_alike hR htu (hfull.tail fun he => hstop (by simp [he]))

/-! ## Parsers in step -/

def alike (R : Token → Token → Prop) : Manner Parser :=
  ⟨R, 0, fun _ _ T _ _ p q => ∀ ts us, TokensAlike R ts us → T (front ts) →
    ParsedAlike R (p ts) (q us)⟩

section
variable {v : Nat} {T : Token → Prop} {α β : Type} [Likened α] [Likened β]

theorem alike_bind {p q : Parser α} {f g : α → Parser β} (hp : (alike R).Ok .part v T p q)
    (hf : ∀ a b, Likened.rel R a b → (alike R).Ok .part v Anything (f a) (g b)) :
    (alike R).Ok .part v T (p >>= f) (q >>= g) := by
  intro ts us hts hT
  have h := hp ts us hts hT
  simp only [Bind.bind, Parser.bind]
  generalize p ts = x, q us = y at h
  cases h with
  | error he hes hr => exact .error he hes hr
  | ok ha hes hr =>
    have h' := hf _ _ ha _ _ hr trivial
    simp only
    generalize f _ _ = x', g _ _ = y' at h'
    cases h' with
    | ok hb hes' hr' => exact .ok hb (List.rel_append hes hes') hr'
    | error he hes' hr' => exact .error he (List.rel_append hes hes') hr'

theorem alike_skip (hR : OfKinds R) : (alike R).Ok .part v T skip skip :=
  fun _ _ hts _ => .ok trivial .nil (afterFront_alike hR hts)

theorem alike_assigned (hR : OfKinds R) : (alike R).Ok .part v T assigned? assigned? := by
  intro ts us hts _
  have hfull := hts
  obtain ⟨tokens, -⟩ := hts
  cases tokens with
  | nil => exact .ok .none .nil hfull
  | cons hx hs =>
    cases hs with
    | nil => exact .ok .none .nil hfull
    | cons ht hs =>
      refine .ok ?_ .nil hfull
      rw [← isName_congr (hR.bare hx), ← isMark_congr (hR.bare ht)]
      split
      · exact .some hx
      · exact .none

theorem alike_recover (hR : OfKinds R) {p q : Parser α} (h : (alike R).Ok .part v Anything p q) :
    (alike R).Ok .part v T (recover p) (recover q) := by
  intro ts us hts _
  have h := h ts us hts trivial
  rw [recover, recover]
  generalize p ts = x, q us = y at h
  cases h with
  | ok ha hes hr => exact .ok (.some ha) hes hr
  | error he hes hr =>
    exact .ok .none (List.rel_append hes (.cons he .nil)) (synchronize_alike hR hr)

end

theorem alike_plain (hR : OfKinds R) : (alike R).Plain where
  extent h := h
  kinds := hR.bare
  only h ts us hts _ := h ts us hts trivial
  fewer h _ := h
  pure h _ _ hts _ := .ok h .nil hts
  fail _ _ _ hts _ := .error (.unexpectedToken (front_alike hts)) .nil hts
  bind := alike_bind
  peek h ts us hts hT := by
    change ParsedAlike R ((peek >>= _) ts) ((peek >>= _) us)
    rw [peek_bind, peek_bind]
    exact h _ _ hT (front_alike hts) ts us hts rfl
  skip _ h := alike_bind (alike_skip hR) fun _ _ _ => h
  spent _ _ _ hts _ := .ok .nil .nil hts
  unary _ _ hts _ := .error (.unexpectedToken (front_alike hts)) .nil hts

theorem alike_recovers (hR : OfKinds R) : (alike R).Recovers where
  toPlain := alike_plain hR
  take _ h := alike_bind (alike_skip hR) fun _ _ _ => h
  report {v T x α _ f g} h ts us hts hT := by
    have h := h ts us hts hT
    have hfronts :
        SyntaxError.Alike R (.unexpectedToken (front ts) x) (.unexpectedToken (front us) x) :=
      .unexpectedToken (front_alike hts)
    change ParsedAlike R ((report x >>= f) ts) ((report x >>= g) us)
    simp only [Bind.bind, Parser.bind, report]
    generalize f () ts = o, g () us = o' at h
    cases h with
    | ok ha hes hr => exact .ok ha (.cons hfronts hes) hr
    | error he hes hr => exact .error he (.cons hfronts hes) hr
  recover _ _ _ h β _ f g hf := alike_bind (alike_recover hR h) hf
  assignment := assignment_ok (alike_plain hR).steps (alike_assigned hR)
  declaration _ _ hts _ := .error (.unexpectedToken (front_alike hts)) .nil hts

end Parser

/-- Lists of related tokens are read as alike statements with alike errors. -/
theorem parse_alike {R : Token → Token → Prop} (hR : OfKinds R) {ts us : List Token}
    (h : TokensAlike R ts us) :
    List.Forall₂ (Stmt.Alike R) (parse ts).statements (parse us).statements ∧
      List.Forall₂ (SyntaxError.Alike R) (parse ts).errors (parse us).errors := by
  have hread := Parser.program_ok (Parser.alike_recovers hR) (Nat.le_refl ts.length) ts us h trivial
  rw [Reading.program_eq] at hread
  rw [parse, parse, ← h.tokens.length_eq]
  simp only
  change ParsedAlike R (Parser.programWithin ts.length ts)
    (Parser.programWithin ts.length us) at hread
  generalize Parser.programWithin ts.length ts = x, Parser.programWithin ts.length us = y at hread
  cases hread with
  | ok hss hes _ => exact ⟨hss, hes⟩
  | error _ hes _ => exact ⟨.nil, hes⟩

end Naskah
