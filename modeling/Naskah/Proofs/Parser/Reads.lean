import Naskah.Proofs.Parser.Step

/-!
# What a parser has read when it stops

`Reads` ties a parser to a set of phrases. If it ends without an error, it has
read a phrase. If it meets an error, the first is at the token it has come to,
and what it has read until then begins a phrase. In both cases it has looked
no further than that token, so that it stops there on every list with the same
beginning. Such lists may be longer, so a family of parsers, the same under
other bounds, takes its place on them.
-/

namespace Naskah

/-! ## Errors -/

/-- All errors of a parse in order, with the one that ended it. -/
def Parsed.errors {α : Type} (p : Parsed α) : List SyntaxError :=
  p.reported ++ match p.result with
    | .ok _ => []
    | .error e => [e]

theorem Parsed.errors_eq_nil {α : Type} {p : Parsed α} (h : p.errors = []) :
    ∃ a, p = ⟨.ok a, [], p.rest⟩ := by
  obtain ⟨result, reported, rest⟩ := p
  simp only [Parsed.errors, List.append_eq_nil_iff] at h
  obtain ⟨rfl, h⟩ := h
  cases result with
  | ok a => exact ⟨a, rfl⟩
  | error e => simp at h

namespace Parser

variable {α β : Type}

theorem bind_of_error {p : Parser α} {ts r : List Token} {e : SyntaxError}
    (h : p ts = ⟨.error e, [], r⟩) (f : α → Parser β) : (p >>= f) ts = ⟨.error e, [], r⟩ := by
  simp [Bind.bind, Parser.bind, h]

theorem bind_errors {p : Parser α} {ts : List Token} {e : SyntaxError} {es : List SyntaxError}
    (h : (p ts).errors = e :: es) (f : α → Parser β) : ∃ es', ((p >>= f) ts).errors = e :: es' := by
  simp only [Bind.bind, Parser.bind]
  rcases hp : p ts with ⟨e' | a, reported, r⟩ <;> rw [hp] at h
  · exact ⟨es, h⟩
  · simp only [Parsed.errors, List.append_nil] at h ⊢
    subst h
    exact ⟨_, by simp only [List.cons_append]; rfl⟩

theorem bind_eq_ok {p : Parser α} {f : α → Parser β} {ts r : List Token} {b : β}
    (h : (p >>= f) ts = ⟨.ok b, [], r⟩) :
    ∃ a r₁, p ts = ⟨.ok a, [], r₁⟩ ∧ f a r₁ = ⟨.ok b, [], r⟩ := by
  simp only [Bind.bind, Parser.bind] at h
  rcases hp : p ts with ⟨e | a, reported, r₁⟩ <;> rw [hp] at h
  · cases h
  · rcases hf : f a r₁ with ⟨result, reported', r₂⟩
    simp only [hf, Parsed.mk.injEq, List.append_eq_nil_iff] at h
    obtain ⟨rfl, ⟨rfl, rfl⟩, rfl⟩ := h
    exact ⟨a, r₁, rfl, hf⟩

theorem recover_errors (p : Parser α) (ts : List Token) :
    (recover p ts).errors = (p ts).errors := by
  simp only [recover]
  rcases p ts with ⟨e | a, es, r⟩ <;> simp [Parsed.errors]

/-! ## Reading phrases -/

/-- What `p` does on lists of at most `n` tokens whose front satisfies `T`, in
terms of the phrases `D` and of each `p' i` on lists of at most `n' i` tokens. -/
structure Reads (T : Token → Prop) (n : Nat) (n' : Nat → Nat) (p : Parser α) (p' : Nat → Parser α)
    (D : Phrases α) : Prop where
  inhabited : ∃ c a, D c a
  clean : ∀ {ts a r}, T (front ts) → ts.length ≤ n → p ts = ⟨.ok a, [], r⟩ →
    ∃ c, ts = c ++ r ∧ D c a ∧
      ∀ i r', front r' = front r → (c ++ r').length ≤ n' i → p' i (c ++ r') = ⟨.ok a, [], r'⟩
  stuck : ∀ {ts e es}, T (front ts) → ts.length ≤ n → (p ts).errors = e :: es →
    ∃ c r x, ts = c ++ r ∧ e = .unexpectedToken (front r) x ∧ (∃ d a, D (c ++ d) a) ∧
      ∀ i r', front r' = front r → (c ++ r').length ≤ n' i → (p' i (c ++ r')).errors ≠ []

abbrev Anything (_ : Token) : Prop := True

namespace Reads

variable {T T' : Token → Prop} {n m : Nat} {n' m' : Nat → Nat} {p : Parser α} {p' : Nat → Parser α}
  {D D' : Phrases α}

theorem mono (h : Reads T n n' p p' D) (hD : ∀ c a, D c a → D' c a) : Reads T n n' p p' D' where
  inhabited := by
    obtain ⟨c, a, hc⟩ := h.inhabited
    exact ⟨c, a, hD c a hc⟩
  clean hT hn hp := by
    obtain ⟨c, hts, hc, hlocal⟩ := h.clean hT hn hp
    exact ⟨c, hts, hD c _ hc, hlocal⟩
  stuck hT hn hp := by
    obtain ⟨c, r, x, hts, he, ⟨d, a, hc⟩, hlocal⟩ := h.stuck hT hn hp
    exact ⟨c, r, x, hts, he, ⟨d, a, hD _ a hc⟩, hlocal⟩

theorem within (h : Reads T n n' p p' D) (hm : m ≤ n) (hm' : ∀ i, m' i ≤ n' i) :
    Reads T m m' p p' D where
  inhabited := h.inhabited
  clean hT hn hp := by
    obtain ⟨c, hts, hc, hlocal⟩ := h.clean hT (Nat.le_trans hn hm) hp
    exact ⟨c, hts, hc, fun i r' hr' hl => hlocal i r' hr' (Nat.le_trans hl (hm' i))⟩
  stuck hT hn hp := by
    obtain ⟨c, r, x, hts, he, hc, hlocal⟩ := h.stuck hT (Nat.le_trans hn hm) hp
    exact ⟨c, r, x, hts, he, hc, fun i r' hr' hl => hlocal i r' hr' (Nat.le_trans hl (hm' i))⟩

theorem agree {q' : Nat → Parser α} (h : Reads T n n' p p' D)
    (hq : ∀ i ts, ts.length ≤ n' i → p' i ts = q' i ts) :
    Reads T n n' p q' D where
  inhabited := h.inhabited
  clean hT hn hp := by
    obtain ⟨c, hts, hc, hlocal⟩ := h.clean hT hn hp
    exact ⟨c, hts, hc, fun i r' hr' hl => by rw [← hq i _ hl]; exact hlocal i r' hr' hl⟩
  stuck hT hn hp := by
    obtain ⟨c, r, x, hts, he, hc, hlocal⟩ := h.stuck hT hn hp
    exact ⟨c, r, x, hts, he, hc, fun i r' hr' hl => by rw [← hq i _ hl]; exact hlocal i r' hr' hl⟩

theorem only (h : Reads T n n' p p' D) (hT : ∀ t, T' t → T t) : Reads T' n n' p p' D where
  inhabited := h.inhabited
  clean hT' := h.clean (hT _ hT')
  stuck hT' := h.stuck (hT _ hT')

theorem congr {q : Parser α} {q' : Nat → Parser α} (h : Reads T n n' p p' D)
    (hq : ∀ ts, T (front ts) → p ts = q ts) (hq' : ∀ i ts, T (front ts) → p' i ts = q' i ts) :
    Reads T n n' q q' D where
  inhabited := h.inhabited
  clean {ts a r} hT hn hp := by
    rw [← hq ts hT] at hp
    obtain ⟨c, rfl, hc, hlocal⟩ := h.clean hT hn hp
    refine ⟨c, rfl, hc, fun i r' hr' hl => ?_⟩
    rw [← hq' i _ (by rw [front_append_congr hr']; exact hT)]
    exact hlocal i r' hr' hl
  stuck {ts e es} hT hn hp := by
    rw [← hq ts hT] at hp
    obtain ⟨c, r, x, rfl, he, hc, hlocal⟩ := h.stuck hT hn hp
    refine ⟨c, r, x, rfl, he, hc, fun i r' hr' hl => ?_⟩
    rw [← hq' i _ (by rw [front_append_congr hr']; exact hT)]
    exact hlocal i r' hr' hl

theorem atFront {t : Token} (h : Reads (· = t) n n' p p' D) (hD' : ∃ c a, D' c a)
    (hne : ∀ a, ¬ D [] a) (hD : ∀ d a, D (t :: d) a → D' (t :: d) a) :
    Reads (· = t) n n' p p' D' where
  inhabited := hD'
  clean hT hn hp := by
    obtain ⟨c, rfl, hc, hlocal⟩ := h.clean hT hn hp
    cases c with
    | nil => exact absurd hc (hne _)
    | cons u c => cases hT; exact ⟨_, rfl, hD _ _ hc, hlocal⟩
  stuck hT hn hp := by
    obtain ⟨c, r, x, rfl, he, ⟨d, a, hc⟩, hlocal⟩ := h.stuck hT hn hp
    refine ⟨c, r, x, rfl, he, ?_, hlocal⟩
    cases c with
    | nil => exact hD'
    | cons u c => cases hT; exact ⟨d, a, hD _ _ hc⟩

/-! ## Single steps -/

theorem pure (a : α) : Reads T n n' (pure a) (fun _ => pure a) (fun c b => c = [] ∧ b = a) where
  inhabited := ⟨[], a, rfl, rfl⟩
  clean _ _ hp := by
    cases hp
    exact ⟨[], rfl, ⟨rfl, rfl⟩, fun i r' _ _ => rfl⟩
  stuck _ _ hp := by cases hp

theorem fail (hD : ∃ c a, D c a) (x : Expectation) : Reads T n n' (fail x) (fun _ => fail x) D where
  inhabited := hD
  clean _ _ hp := by cases hp
  stuck {ts e es} _ _ hp := by
    cases hp
    exact ⟨[], ts, x, rfl, rfl, hD, fun i r' _ _ => by simp [Parser.fail, Parsed.errors]⟩

theorem report (hD : ∃ c a, D c a) (x : Expectation) (f : Unit → Parser α)
    (f' : Nat → Unit → Parser α) :
    Reads T n n' (report x >>= f) (fun i => report x >>= f' i) D where
  inhabited := hD
  clean _ _ hp := by
    obtain ⟨_, _, h, -⟩ := bind_eq_ok hp
    cases h
  stuck {ts e es} _ _ hp := by
    have first : ∀ (g : Unit → Parser α) (us : List Token), ∃ es',
        ((Parser.report x >>= g) us).errors = .unexpectedToken (front us) x :: es' :=
      fun g us => bind_errors rfl g
    obtain ⟨es', hes'⟩ := first f ts
    obtain ⟨rfl, -⟩ := List.cons.inj (hp.symm.trans hes')
    refine ⟨[], ts, x, rfl, rfl, hD, fun i r' _ _ => ?_⟩
    obtain ⟨es'', hes''⟩ := first (f' i) r'
    rw [List.nil_append, hes'']
    simp

theorem peek {f : Token → Parser α} {f' : Nat → Token → Parser α} (hD : ∃ c a, D c a)
    (h : ∀ t, T t → Reads (· = t) n n' (f t) (fun i => f' i t) D) :
    Reads T n n' (peek >>= f) (fun i => peek >>= f' i) D where
  inhabited := hD
  clean {ts a r} hT hn hp := by
    rw [peek_bind] at hp
    obtain ⟨c, rfl, hc, hlocal⟩ := (h _ hT).clean rfl hn hp
    refine ⟨c, rfl, hc, fun i r' hr' hl => ?_⟩
    rw [peek_bind, front_append_congr hr']
    exact hlocal i r' hr' hl
  stuck {ts e es} hT hn hp := by
    rw [peek_bind] at hp
    obtain ⟨c, r, x, rfl, he, hc, hlocal⟩ := (h _ hT).stuck rfl hn hp
    refine ⟨c, r, x, rfl, he, hc, fun i r' hr' hl => ?_⟩
    rw [peek_bind, front_append_congr hr']
    exact hlocal i r' hr' hl

theorem skip {t : Token} (ht : t.kind ≠ .ending) {f : Unit → Parser α} {f' : Nat → Unit → Parser α}
    (h : Reads Anything (n - 1) (fun i => n' i - 1) (f ()) (fun i => f' i ()) D) :
    Reads (· = t) n n' (skip >>= f) (fun i => skip >>= f' i)
      (fun c a => ∃ d, c = t :: d ∧ D d a) where
  inhabited := by
    obtain ⟨c, a, hc⟩ := h.inhabited
    exact ⟨t :: c, a, c, rfl, hc⟩
  clean {ts a r} hT hn hp := by
    obtain ⟨ts, rfl⟩ := exists_cons_of_front hT ht
    rw [skip_bind ht] at hp
    obtain ⟨c, rfl, hc, hlocal⟩ := h.clean trivial (by simp at hn ⊢; omega) hp
    refine ⟨t :: c, rfl, ⟨c, rfl, hc⟩, fun i r' hr' hl => ?_⟩
    rw [List.cons_append, skip_bind ht]
    exact hlocal i r' hr' (by simp at hl ⊢; omega)
  stuck {ts e es} hT hn hp := by
    obtain ⟨ts, rfl⟩ := exists_cons_of_front hT ht
    rw [skip_bind ht] at hp
    obtain ⟨c, r, x, rfl, he, ⟨d, a, hc⟩, hlocal⟩ := h.stuck trivial (by simp at hn ⊢; omega) hp
    refine ⟨t :: c, r, x, rfl, he, ⟨d, a, c ++ d, rfl, hc⟩, fun i r' hr' hl => ?_⟩
    rw [List.cons_append, skip_bind ht]
    exact hlocal i r' hr' (by simp at hl ⊢; omega)

theorem take {q : Token → Bool} (hq : ∀ t, q t = true → t.kind ≠ .ending) (hex : ∃ t, q t = true)
    (x : Expectation) :
    Reads T n n' (take q x) (fun _ => take q x) (fun c t => c = [t] ∧ q t = true) := by
  obtain ⟨u, hu⟩ := hex
  refine peek ⟨[u], u, rfl, hu⟩ fun t _ => ?_
  by_cases ht : q t = true
  · simp only [if_pos ht]
    refine (skip (hq t ht) (pure t)).mono ?_
    rintro _ _ ⟨_, rfl, rfl, rfl⟩
    exact ⟨rfl, ht⟩
  · simp only [if_neg ht]
    exact fail ⟨[u], u, rfl, hu⟩ x

theorem mark (m : Mark) (x : Expectation) :
    Reads T n n' (mark m x) (fun _ => mark m x) (fun c t => c = [t] ∧ t.kind = .mark m) := by
  refine (take (fun t ht => ?_) ⟨⟨.mark m, "", 0⟩, by simp [Token.isMark]⟩ x).mono ?_
  · simp [Token.isMark_iff.mp ht]
  · exact fun _ _ h => ⟨h.1, Token.isMark_iff.mp h.2⟩

theorem name (x : Expectation) :
    Reads T n n' (name x) (fun _ => name x) (fun c t => c = [t] ∧ t.kind = .name) := by
  refine (take (fun t ht => ?_) ⟨⟨.name, "", 0⟩, rfl⟩ x).mono ?_
  · simp [Token.isName_iff.mp ht]
  · exact fun _ _ h => ⟨h.1, Token.isName_iff.mp h.2⟩

/-! ## Sequences -/

/-- Behind a phrase of at least `k a` tokens the bounds are lower. -/
theorem bindWithin {f : α → Parser β} {f' : Nat → α → Parser β} {E : α → Phrases β} (k : α → Nat)
    (hk : ∀ c a, D c a → k a ≤ c.length) (hp : Reads T n n' p p' D)
    (hf : ∀ a, Reads Anything (n - k a) (fun i => n' i - k a) (f a) (fun i => f' i a) (E a)) :
    Reads T n n' (p >>= f) (fun i => p' i >>= f' i) (fun c b => ∃ c₁ c₂ a, c = c₁ ++ c₂ ∧ D c₁ a ∧
      E a c₂ b) where
  inhabited := by
    obtain ⟨c₁, a, h₁⟩ := hp.inhabited
    obtain ⟨c₂, b, h₂⟩ := (hf a).inhabited
    exact ⟨c₁ ++ c₂, b, c₁, c₂, a, rfl, h₁, h₂⟩
  clean {ts b r} hT hn h := by
    obtain ⟨a, r₁, h₁, h₂⟩ := bind_eq_ok h
    obtain ⟨c₁, rfl, hc₁, hlocal₁⟩ := hp.clean hT hn h₁
    have hlen := hk c₁ a hc₁
    obtain ⟨c₂, rfl, hc₂, hlocal₂⟩ := (hf a).clean trivial (by simp at hn ⊢; omega) h₂
    refine ⟨c₁ ++ c₂, by simp, ⟨c₁, c₂, a, rfl, hc₁, hc₂⟩, fun i r' hr' hl => ?_⟩
    rw [List.append_assoc] at hl ⊢
    rw [bind_of_ok (hlocal₁ i _ (front_append_congr hr' c₂) hl)]
    exact hlocal₂ i r' hr' (by simp at hl ⊢; omega)
  stuck {ts e es} hT hn h := by
    cases hes : (p ts).errors with
    | cons e' es' =>
      -- the first parser meets the error, and anything the second reads completes the phrase
      obtain ⟨es'', hes''⟩ := bind_errors hes f
      obtain ⟨rfl, -⟩ := List.cons.inj (h.symm.trans hes'')
      obtain ⟨c, r, x, rfl, he, ⟨d, a, hc⟩, hlocal⟩ := hp.stuck hT hn hes
      obtain ⟨c₂, b, hc₂⟩ := (hf a).inhabited
      refine ⟨c, r, x, rfl, he, ⟨d ++ c₂, b, c ++ d, c₂, a, by simp, hc, hc₂⟩,
        fun i r' hr' hl => ?_⟩
      have hne := hlocal i r' hr' hl
      cases hes' : (p' i (c ++ r')).errors with
      | nil => exact absurd hes' hne
      | cons e₁ es₁ =>
        obtain ⟨es₂, hes₂⟩ := bind_errors hes' (f' i)
        simp [hes₂]
    | nil =>
      obtain ⟨a, h₁⟩ := Parsed.errors_eq_nil hes
      obtain ⟨c₁, hts, hc₁, hlocal₁⟩ := hp.clean hT hn h₁
      have hlen := hk c₁ a hc₁
      rw [bind_of_ok h₁] at h
      obtain ⟨c₂, r, x, hr, he, ⟨d, b, hc₂⟩, hlocal₂⟩ := (hf a).stuck trivial (by
        have := congrArg List.length hts; simp at this; omega) h
      refine ⟨c₁ ++ c₂, r, x, by rw [hts, hr]; simp, he, ⟨d, b, c₁, c₂ ++ d, a, by simp, hc₁, hc₂⟩,
        fun i r' hr' hl => ?_⟩
      rw [List.append_assoc] at hl ⊢
      rw [bind_of_ok (hlocal₁ i _ (by rw [hr]; exact front_append_congr hr' c₂) hl)]
      exact hlocal₂ i r' hr' (by simp at hl ⊢; omega)

theorem bind {f : α → Parser β} {f' : Nat → α → Parser β} {E : α → Phrases β}
    (hp : Reads T n n' p p' D) (hf : ∀ a, Reads Anything n n' (f a) (fun i => f' i a) (E a)) :
    Reads T n n' (p >>= f) (fun i => p' i >>= f' i)
      (fun c b => ∃ c₁ c₂ a, c = c₁ ++ c₂ ∧ D c₁ a ∧ E a c₂ b) :=
  bindWithin (fun _ => 0) (fun _ _ _ => Nat.zero_le _) hp hf

theorem recover (h : Reads T n n' p p' D) :
    Reads T n n' (recover p) (fun i => recover (p' i)) (fun c o => ∃ a, o = some a ∧ D c a) where
  inhabited := by
    obtain ⟨c, a, hc⟩ := h.inhabited
    exact ⟨c, some a, a, rfl, hc⟩
  clean {ts o r} hT hn hp := by
    have hes : (p ts).errors = [] := by rw [← recover_errors, hp]; rfl
    obtain ⟨a, hok⟩ := Parsed.errors_eq_nil hes
    obtain ⟨rfl, hr⟩ : some a = o ∧ (p ts).rest = r := by
      rw [Parser.recover, hok] at hp; cases hp; exact ⟨rfl, rfl⟩
    rw [hr] at hok
    obtain ⟨c, hts, hc, hlocal⟩ := h.clean hT hn hok
    exact ⟨c, hts, ⟨a, rfl, hc⟩, fun i r' hr' hl => by simp [Parser.recover, hlocal i r' hr' hl]⟩
  stuck {ts e es} hT hn hp := by
    rw [recover_errors] at hp
    obtain ⟨c, r, x, hts, he, ⟨d, a, hc⟩, hlocal⟩ := h.stuck hT hn hp
    refine ⟨c, r, x, hts, he, ⟨d, some a, a, rfl, hc⟩, fun i r' hr' hl => ?_⟩
    rw [recover_errors]
    exact hlocal i r' hr' hl

end Reads

/-! ## Repetition -/

inductive Optional (D : Phrases α) : Phrases (Option α)
  | none : Optional D [] none
  | some {c a} : D c a → Optional D c (some a)

inductive Row (D : Phrases α) : Phrases (List α)
  | nil : Row D [] []
  | cons {c a d as} : D c a → Row D d as → Row D (c ++ d) (a :: as)

def StopsAtEnd (item : Parser (Option α)) : Prop :=
  ∀ ts, (front ts).kind = .ending → item ts = ⟨.ok none, [], ts⟩

def RowAfter (D : Phrases α) : Option α → Phrases (List α)
  | none => fun c as => c = [] ∧ as = []
  | some a => fun c as => ∃ as', Row D c as' ∧ as = a :: as'

theorem Reads.manySucc {D : Phrases α} (hne : ∀ a, ¬ D [] a) {item : Parser (Option α)}
    {item' : Nat → Parser (Option α)} {b n : Nat} {b' n' : Nat → Nat}
    (h : Reads Anything n n' item item' (Optional D))
    (hmany : Reads Anything (n - 1) (fun i => n' i - 1) (many item b)
      (fun i => many (item' i) (b' i)) (Row D)) :
    Reads Anything n n' (many item (b + 1)) (fun i => many (item' i) (b' i + 1)) (Row D) := by
  let k : Option α → Nat := fun o => if o.isSome then 1 else 0
  have hk : ∀ c o, Optional D c o → k o ≤ c.length := by
    intro c o hc
    cases hc with
    | none => exact Nat.zero_le _
    | some hc => exact List.length_pos_iff.mpr (by rintro rfl; exact hne _ hc)
  refine (Reads.bindWithin (E := RowAfter D) k hk h fun o => ?_).mono ?_
  · cases o with
    | none => exact Reads.pure []
    | some a =>
      refine (hmany.bind fun more => Reads.pure (a :: more)).mono ?_
      rintro _ _ ⟨c, _, as, rfl, hc, rfl, rfl⟩
      exact ⟨as, by simpa using hc, rfl⟩
  · rintro _ as ⟨c₁, c₂, o, rfl, hc₁, hc₂⟩
    cases hc₁ with
    | none =>
      obtain ⟨rfl, rfl⟩ := hc₂
      exact .nil
    | some hc₁ =>
      obtain ⟨as', hc₂, rfl⟩ := hc₂
      exact .cons hc₁ hc₂

theorem Reads.many {D : Phrases α} (hne : ∀ a, ¬ D [] a) {item : Parser (Option α)}
    {item' : Nat → Parser (Option α)} (hstop : ∀ i, StopsAtEnd (item' i)) :
    ∀ (b : Nat) (b' : Nat → Nat) {n : Nat} {n' : Nat → Nat}, n ≤ b → (∀ i, n' i ≤ b' i) →
      Reads Anything n n' item item' (Optional D) →
      Reads Anything n n' (many item b) (fun i => many (item' i) (b' i)) (Row D)
  | 0, b', n, n', hb, hb', h => by
    refine ⟨⟨[], [], .nil⟩, fun {ts as r} _ hn hp => ?_, fun _ _ hp => by cases hp⟩
    cases hp
    refine ⟨[], rfl, .nil, fun i r' hr' _ => ?_⟩
    obtain rfl : ts = [] := List.eq_nil_of_length_eq_zero (by omega)
    exact many_of_none (hstop i _ (by rw [List.nil_append, hr']; rfl)) (b' i)
  | b + 1, b', n, n', hb, hb', h => by
    have ih := Reads.many hne hstop b (fun i => b' i - 1) (by omega)
      (fun i => Nat.sub_le_sub_right (hb' i) 1)
      (h.within (Nat.sub_le n 1) fun i => Nat.sub_le (n' i) 1)
    refine (Reads.manySucc hne h ih).agree fun i ts hn => ?_
    -- under a bound of none only the empty list is left, and there one more item
    -- makes no difference
    cases hi : b' i with
    | succ m => rfl
    | zero =>
      have hi' := hb' i
      obtain rfl : ts = [] := List.eq_nil_of_length_eq_zero (by omega)
      exact many_of_none (hstop i _ rfl) 1

theorem many_stops {D : Phrases α} (hne : ∀ a, ¬ D [] a) {item : Parser (Option α)}
    (hstop : StopsAtEnd item) :
    ∀ {b n : Nat} {ts r : List Token} {as : List α},
    Reads Anything n (fun _ => n) item (fun _ => item) (Optional D) → ts.length ≤ n →
      ts.length ≤ b → many item b ts = ⟨.ok as, [], r⟩ → item r = ⟨.ok none, [], r⟩
  | 0, n, ts, r, as, h, hn, hb, hp => by
    cases hp
    obtain rfl : ts = [] := List.eq_nil_of_length_eq_zero (by omega)
    exact hstop [] rfl
  | b + 1, n, ts, r, as, h, hn, hb, hp => by
    rw [many] at hp
    obtain ⟨o, r₁, h₁, h₂⟩ := bind_eq_ok hp
    obtain ⟨c, rfl, hc, -⟩ := h.clean trivial hn h₁
    cases hc with
    | none => cases h₂; exact h₁
    | @some c a hc =>
      obtain ⟨as, r₂, h₂, h₃⟩ := bind_eq_ok h₂
      cases h₃
      have hpos : 0 < c.length := List.length_pos_iff.mpr (by rintro rfl; exact hne a hc)
      simp only [List.length_append] at hn hb
      exact many_stops hne hstop h (by omega) (by omega) h₂

/-! ## At the ending -/

def AsksAtEnd {α : Type} (p : Parser α) : Prop :=
  ∀ ts, (front ts).kind = .ending → p ts = fail .expression ts

theorem AsksAtEnd.bind {α β : Type} {p : Parser α} (h : AsksAtEnd p) (f : α → Parser β) :
    AsksAtEnd (p >>= f) := by
  intro ts hts
  exact bind_of_error (h ts hts) f

theorem primary_asksAtEnd (p : Parser Expr) : AsksAtEnd (primary p) := by
  intro ts hts
  rw [primary, peek_bind]
  simp only [Token.literal?, hts]
  rw [if_neg (by simp [Token.isName, hts]), if_neg (by simp [Token.isMark, hts])]

theorem unaryWithin_asksAtEnd (n : Nat) : AsksAtEnd (unaryWithin n) := by
  intro ts hts
  cases n with
  | zero => rfl
  | succ n =>
    rw [unaryWithin, peek_bind, hts]
    exact (primary_asksAtEnd _).bind _ ts hts

theorem ranked_asksAtEnd {p : Parser Expr} (h : AsksAtEnd p) (b : Nat) :
    ∀ rank, AsksAtEnd (ranked b p rank)
  | 0 => h
  | rank + 1 => (ranked_asksAtEnd h b rank).bind _

theorem declarationWithin_asksAtEnd (n : Nat) : AsksAtEnd (declarationWithin n) := by
  intro ts hts
  cases n with
  | zero => rfl
  | succ n =>
    have hexpr :
        AsksAtEnd (closedExpression (n + 1) .expressionEnd >>= fun e => pure (Stmt.expression e)) :=
      ((ranked_asksAtEnd (unaryWithin_asksAtEnd (n + 1)) (n + 1) _).bind _).bind _
    have hplain :
        declarationWithin (n + 1) ts = plainStatement (n + 1) (declarationWithin n) ts := by
      rw [declarationWithin, anyStatement, peek_bind, hts]
      refine assignmentOrPlain_eq_plain ?_
      rintro x ts' rfl hx
      rw [front, hx] at hts
      cases hts
    rw [hplain, plainStatement, peek_bind, hts]
    exact hexpr ts hts

end Parser

end Naskah
