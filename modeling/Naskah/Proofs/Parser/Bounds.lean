import Naskah.Proofs.Grammar.StatementSound
import Naskah.Proofs.Parser.Blame

/-!
# Bounds that are never used up

A declaration takes a token, and so does recovery, except at a closing brace
and at the ending, where no declaration is read. So a bound that the tokens
before the ending stay within is never used up, and under a higher bound the
same is read. What stands behind the ending is not read under any.
-/

namespace Naskah

open Account

namespace Parser

variable {α β : Type} {T : Token → Prop}

/-! ## Statements take a token -/

/-- What is left is no longer than the list, and shorter behind a whole statement. -/
structure Shortened (e : Extent) (ts : List Token) (p : Parsed α) : Prop where
  left : p.rest.length ≤ ts.length
  fewer : e = .whole → ∀ a, p.result = .ok a → p.rest.length < ts.length

def shortening : Manner Parser :=
  ⟨Eq, 0, fun e _ T _ _ p _ => ∀ ts, T (front ts) → Shortened e ts (p ts)⟩

theorem Settling.length_le {p : Parser α} (h : Settling p) (ts : List Token) :
    (p ts).rest.length ≤ ts.length := by
  have h := h (Nat.le_refl 1) (@Pending.nothing 1 ts)
  generalize p ts = o at h
  cases h with
  | ok hts => simp [hts]

theorem block_length_le (b n : Nat) (ts : List Token) :
    (block b (declarationWithin n) ts).rest.length ≤ ts.length := by
  have hitems := ((blockItem_settling (declarationWithin_firm n)).many b).length_le ts
  unfold block
  rcases hread : many (blockItem (declarationWithin n)) b ts with ⟨e | items, es, r⟩ <;>
    rw [hread] at hitems
  · simpa only [Bind.bind, Parser.bind, hread] using hitems
  · rw [bind_of_reported hread]
    rcases mark_bind_cases .rightBrace .blockEnd (fun _ => pure (items.filterMap id)) r with
      ⟨t, r, rfl, -, hclose⟩ | ⟨-, hclose⟩ <;> rw [hclose]
    · exact Nat.le_of_succ_le hitems
    · exact hitems

section
variable {e : Extent} {ts : List Token}

theorem shortened_pure (he : e ≠ .whole) (a : α) : Shortened e ts ((pure a : Parser α) ts) :=
  ⟨Nat.le_refl _, fun h => absurd h he⟩

theorem shortened_fail (x : Expectation) : Shortened e ts ((fail x : Parser α) ts) :=
  ⟨Nat.le_refl _, fun _ _ h => by cases h⟩

theorem shortened_skip {t : Token} (ht : t.kind ≠ .ending) {f : Unit → Parser α}
    (h : (f () ts).rest.length ≤ ts.length) : Shortened e (t :: ts) ((skip >>= f) (t :: ts)) := by
  rw [skip_bind ht]
  exact ⟨Nat.le_succ_of_le h, fun _ _ _ => Nat.lt_succ_of_le h⟩

end

theorem shortening_steps : shortening.Steps where
  kinds h := by rw [h]
  only h ts _ := h ts trivial
  fewer h _ := h
  rest h ts hT := ⟨(h ts hT).left, by simp⟩
  pure he _ _ _ := shortened_pure he _
  fail _ _ _ := shortened_fail _
  bind {e v T α β _ _ p q f g} hp hf ts hT := by
    have h := (hp ts hT).left
    rcases hread : p ts with ⟨x | a, es, r⟩ <;> rw [hread] at h
    · simp only [Bind.bind, Parser.bind, hread]
      exact ⟨h, fun _ _ hok => by cases hok⟩
    · have hrest := hf a a (Likened.rel_eq.mpr rfl) r trivial
      rw [bind_of_reported hread]
      exact ⟨Nat.le_trans hrest.left h, fun he b hok => Nat.lt_of_lt_of_le (hrest.fewer he b hok) h⟩
  map {e v T α β _ _ p q f g} hp _ ts hT := by
    have h := hp ts hT
    rcases hread : p ts with ⟨x | a, es, r⟩ <;> rw [hread] at h
    · simp only [Bind.bind, Parser.bind, hread]
      exact ⟨h.left, fun _ _ hok => by cases hok⟩
    · rw [bind_of_reported hread]
      exact ⟨h.left, fun he _ _ => h.fewer he a rfl⟩
  peek h ts hT := by
    rw [peek_bind]
    exact h _ _ hT rfl ts rfl
  skip {e v t α _ f g} ht h ts hT := by
    obtain ⟨ts, rfl⟩ := exists_cons_of_front hT ht.1.1
    exact shortened_skip ht.1.1 (h ts trivial).left
  stop {v t α _ a b} ht _ ts hT := by
    obtain ⟨ts, rfl⟩ := exists_cons_of_front hT (by simp [ht])
    exact shortened_skip (by simp [ht]) (Nat.le_refl _)
  spent _ _ _ := shortened_pure (by simp) []
  unary _ _ := shortened_fail .expression

theorem shortening_laws : shortening.Laws where
  toSteps := shortening_steps
  assignment {v T α _ f g p q} hf hpq := by
    refine assignment_ok shortening_steps (fun ts _ => ⟨?_, by simp⟩) hf hpq
    obtain ⟨o, ho⟩ := exists_assigned ts
    exact Nat.le_of_eq (by rw [ho])
  declaration _ _ := shortened_fail .expression
  block {v b n t α _ f g} ht _ _ hf ts hT := by
    obtain ⟨ts, rfl⟩ := exists_cons_of_front hT (by simp [ht])
    refine shortened_skip (by simp [ht]) ?_
    have h := block_length_le b n ts
    rcases hread : block b (declarationWithin n) ts with ⟨x | ss, es, r⟩ <;> rw [hread] at h
    · simpa only [Bind.bind, Parser.bind, hread] using h
    · rw [bind_of_reported hread]
      exact Nat.le_trans (hf ss ss (Likened.rel_eq.mpr rfl) r trivial).left h

theorem declarationWithin_advances (n : Nat) {ts : List Token} {s : Stmt}
    (h : (declarationWithin n ts).result = .ok s) :
    (declarationWithin n ts).rest.length < ts.length :=
  (declarationWithin_ok shortening_laws (Nat.le_refl n) ts trivial).fewer rfl s h

theorem recover_advances (n : Nat) {ts : List Token} (hb : (front ts).kind ≠ .mark .rightBrace)
    (he : (front ts).kind ≠ .ending) :
    (recover (declarationWithin n) ts).rest.length < ts.length := by
  have hfirm := declarationWithin_firm n ts
  have hok := @declarationWithin_advances n ts
  rw [recover]
  generalize declarationWithin n ts = o at hfirm hok
  cases hfirm with
  | ok hts => exact hok rfl
  | @error m r x last hts =>
    simp only
    by_cases hstay : (front r).kind = .mark .rightBrace ∨ (front r).kind = .ending
    · -- the error is behind the front, which is neither
      rw [synchronize_stays hstay, hts]
      cases m with
      | nil =>
        rw [tokens_nil, List.nil_append] at hts
        rw [← hts] at hstay
        exact absurd hstay (not_or.mpr ⟨hb, he⟩)
      | cons m ms =>
        rw [List.length_append]
        exact Nat.lt_add_of_pos_left (Nat.succ_pos _)
    · obtain ⟨hb', he'⟩ := not_or.mp hstay
      obtain ⟨t, c, hr, -⟩ := synchronize_moves hb' he'
      have hlength := congrArg List.length hr
      simp only [List.cons_append, List.length_cons, List.length_append] at hlength
      rw [hts, List.length_append]
      omega

end Parser

/-! ## Up to the ending -/

/-- Two lists with the same tokens before the same ending. -/
structure Cut (c r r' : List Token) : Prop where
  unended : ∀ t ∈ c, t.kind ≠ .ending
  ends : (front r).kind = .ending
  same : front r' = front r

namespace Cut

variable {c d r r' : List Token}

theorem tail (h : Cut (d ++ c) r r') : Cut c r r' :=
  ⟨fun t ht => h.unended t (List.mem_append_right d ht), h.ends, h.same⟩

theorem ends' (h : Cut c r r') : (front r').kind = .ending := h.same ▸ h.ends

theorem front_eq (h : Cut c r r') : front (c ++ r') = front (c ++ r) := front_append_congr h.same c

end Cut

inductive Parsed.Together {α : Type} (c r r' : List Token) : Parsed α → Parsed α → Prop
  | mk {result es d k} : c = d ++ k → Together c r r' ⟨result, es, k ++ r⟩ ⟨result, es, k ++ r'⟩

theorem Parsed.Together.behind {α : Type} {c d r r' : List Token}
    {result result' : Except SyntaxError α} {es es' : List SyntaxError} {ts ts' : List Token}
    (h : Parsed.Together c r r' ⟨result, es, ts⟩ ⟨result', es', ts'⟩) (before : List SyntaxError) :
    Parsed.Together (d ++ c) r r' ⟨result, before ++ es, ts⟩ ⟨result', before ++ es', ts'⟩ := by
  cases h with
  | mk hc => exact .mk (by rw [hc, List.append_assoc])

namespace Parser

def together (d : Nat) : Manner Parser :=
  ⟨Eq, d, fun _ v T _ _ p q => ∀ c r r', c.length ≤ v → Cut c r r' → T (front (c ++ r)) →
    (p (c ++ r)).Together c r r' (q (c ++ r'))⟩

theorem together_bind_at {c r r' : List Token} {p q : Parser α} {f g : α → Parser β}
    (h : (p (c ++ r)).Together c r r' (q (c ++ r')))
    (hf : ∀ a es d k, c = d ++ k → p (c ++ r) = ⟨.ok a, es, k ++ r⟩ →
      (f a (k ++ r)).Together k r r' (g a (k ++ r'))) :
    ((p >>= f) (c ++ r)).Together c r r' ((q >>= g) (c ++ r')) := by
  simp only [Bind.bind, Parser.bind]
  generalize p (c ++ r) = o, q (c ++ r') = o' at h hf
  cases h with
  | @mk result es d k hc =>
    cases result with
    | error e => exact .mk hc
    | ok a =>
      have h' := hf a es d k hc rfl
      subst hc
      exact h'.behind es

section
variable {v d : Nat} [Likened α] [Likened β]

theorem together_bind {p q : Parser α} {f g : α → Parser β} (hp : (together d).Ok .part v T p q)
    (hf : ∀ a b, (together d).Like a b → (together d).Ok .part v Anything (f a) (g b)) :
    (together d).Ok .part v T (p >>= f) (q >>= g) := by
  intro c r r' hv hcut hT
  refine together_bind_at (hp c r r' hv hcut hT) fun a es d k hc _ => ?_
  subst hc
  rw [List.length_append] at hv
  exact hf a a (Likened.rel_eq.mpr rfl) k r r' (by omega) hcut.tail trivial

theorem together_pure (a : α) : (together d).Ok .part v T (pure a) (pure a) :=
  fun _ _ _ _ _ _ => .mk (d := []) rfl

theorem together_fail (x : Expectation) :
    (together d).Ok .part v T (fail x : Parser α) (fail x) := by
  intro c r r' _ hcut _
  rw [fail, fail, hcut.front_eq]
  exact .mk (d := []) rfl

theorem together_skip {t : Token} (ht : t.kind ≠ .ending) {f g : Unit → Parser α}
    (h : (together d).Ok .part (v - 1) Anything (f ()) (g ())) :
    (together d).Ok .part v (· = t) (skip >>= f) (skip >>= g) := by
  intro c r r' hv hcut hT
  cases c with
  | nil => subst hT; exact absurd hcut.ends ht
  | cons u c =>
    obtain rfl : u = t := hT
    rw [List.cons_append, List.cons_append, skip_bind ht, skip_bind ht]
    exact (h c r r' (Nat.le_sub_one_of_lt hv) (hcut.tail (d := [u])) trivial).behind (d := [u]) []

theorem together_ended {p q : Parser α} (h : ∀ ts, (front ts).kind = .ending → q ts = p ts)
    (hp : (together d).Ok .part 0 Anything p p) : (together d).Ok .part 0 Anything p q := by
  intro c r r' hv hcut hT
  obtain rfl : c = [] := List.eq_nil_of_length_eq_zero (Nat.le_zero.mp hv)
  rw [List.nil_append, List.nil_append, h r' hcut.ends']
  exact hp [] r r' hv hcut hT

theorem together_assigned : (together d).Ok .part v T assigned? assigned? := by
  intro c r r' _ hcut _
  have hnone : ∀ {ts : List Token}, (front ts).kind = .ending →
      assigned? ts = ⟨.ok none, [], ts⟩ := by
    intro ts hts
    cases ts with
    | nil => rfl
    | cons t ts =>
      have ht : t.isName = false := by
        rw [← Bool.not_eq_true, Token.isName_iff]
        exact fun hk => by simp [front, hk] at hts
      rw [assigned?_cons, ht]
      rfl
  cases c with
  | nil =>
    rw [List.nil_append, List.nil_append, hnone hcut.ends, hnone hcut.ends']
    exact .mk (d := []) (k := []) rfl
  | cons t c =>
    rw [List.cons_append, List.cons_append, assigned?_cons, assigned?_cons,
      (hcut.tail (d := [t])).front_eq]
    exact .mk (d := []) (k := t :: c) rfl

end

theorem item_stops {asked : Token → Option (Parser α)}
    (h : ∀ t, t.kind = .ending → asked t = none) : StopsAtEnd (Reading.item asked) := by
  intro ts hts
  change (peek >>= _) ts = _
  rw [peek_bind, h _ hts]
  rfl

theorem together_plain (d : Nat) : (together d).Plain where
  extent h := h
  kinds h := by rw [h]
  only h c r r' hv hcut _ := h c r r' hv hcut trivial
  fewer h hw c r r' hv hcut hT := h c r r' (Nat.le_trans hv hw) hcut hT
  pure hab := by
    rw [Likened.rel_eq.mp hab]
    exact together_pure _
  fail {_ _ _ _ x} _ := together_fail x
  bind := together_bind
  peek h c r r' hv hcut hT := by
    rw [peek_bind]
    change Parsed.Together c r r' _ ((peek >>= _) (c ++ r'))
    rw [peek_bind, hcut.front_eq]
    exact h _ _ hT rfl c r r' hv hcut rfl
  skip ht h := together_skip ht.1 h
  spent {α _ asked} hend := by
    rw [Reading.many_eq]
    exact together_ended (fun ts hts => many_of_none (item_stops hend ts hts) _) (together_pure [])
  unary := by
    rw [Reading.unary_eq]
    exact together_ended (unaryWithin_asksAtEnd _) (together_fail .expression)

/-! ## Recovery up to the ending -/

theorem skipPast_together {c r r' : List Token} : ∀ (previous : Token), Cut c r r' →
    ∃ d k, c = d ++ k ∧ skipPast previous (c ++ r) = k ++ r ∧
      skipPast previous (c ++ r') = k ++ r' := by
  have stay : ∀ (previous : Token) {ts : List Token}, (front ts).kind = .ending →
      skipPast previous ts = ts := by
    intro previous ts hts
    cases ts with
    | nil => rfl
    | cons t ts =>
      rw [skipPast, if_pos (by simp [Token.isEnding_iff.mpr (show t.kind = .ending from hts)])]
  induction c with
  | nil => exact fun previous h => ⟨[], [], rfl, stay previous h.ends, stay previous h.ends'⟩
  | cons t c ih =>
    intro previous h
    by_cases hstop :
      (previous.isMark .semicolon || t.isEnding || t.isMark .rightBrace || startsStatement t) = true
    · refine ⟨[], t :: c, rfl, ?_, ?_⟩ <;> rw [List.cons_append, skipPast, if_pos hstop]
    · obtain ⟨d, k, rfl, hr, hr'⟩ := ih t (h.tail (d := [t]))
      refine ⟨t :: d, k, rfl, ?_, ?_⟩ <;>
        rw [List.cons_append, skipPast, if_neg hstop] <;> assumption

theorem synchronize_together {c r r' : List Token} (h : Cut c r r') :
    ∃ d k, c = d ++ k ∧ synchronize (c ++ r) = k ++ r ∧ synchronize (c ++ r') = k ++ r' := by
  cases c with
  | nil => exact ⟨[], [], rfl, synchronize_stays (.inr h.ends), synchronize_stays (.inr h.ends')⟩
  | cons t c =>
    by_cases hstay : (t.isMark .rightBrace || t.isEnding) = true
    · refine ⟨[], t :: c, rfl, ?_, ?_⟩ <;> rw [List.cons_append, synchronize, if_pos hstay]
    · obtain ⟨d, k, rfl, hr, hr'⟩ := skipPast_together t (h.tail (d := [t]))
      refine ⟨t :: d, k, rfl, ?_, ?_⟩ <;>
        rw [List.cons_append, synchronize, if_neg hstay] <;> assumption

section
variable {v d : Nat}

theorem recover_together [Likened α] {p q : Parser α} (h : (together d).Ok .part v T p q) :
    (together d).Ok .part v T (recover p) (recover q) := by
  intro c r r' hv hcut hT
  have hread := h c r r' hv hcut hT
  rw [recover, recover]
  generalize p (c ++ r) = o, q (c ++ r') = o' at hread
  cases hread with
  | @mk result es d k hc =>
    subst hc
    cases result with
    | ok a => exact .mk rfl
    | error e =>
      obtain ⟨d', k', rfl, hr, hr'⟩ := synchronize_together hcut.tail
      simp only [hr, hr']
      exact .mk (List.append_assoc d d' k').symm

/-- The token that a declaration takes is one before the ending. -/
theorem recover_takes {n : Nat} {q : Parser Stmt} {t : Token} (hb : t.kind ≠ .mark .rightBrace)
    (he : t.kind ≠ .ending) (h : (together d).Ok .part v Anything (declarationWithin n) q) :
    (together d).Takes v t (recover (declarationWithin n)) (recover q) := by
  intro β _ f g hf c r r' hv hcut hT
  have hlt := @recover_advances n (c ++ r) (hT ▸ hb) (hT ▸ he)
  refine together_bind_at (recover_together h c r r' hv hcut trivial) fun o es d k hc hread => ?_
  subst hc
  rw [hread] at hlt
  simp only [List.length_append] at hlt hv
  exact hf o o (Likened.rel_eq.mpr rfl) k r r' (by omega) hcut.tail trivial

theorem together_report [Likened α] {x : Expectation} {f g : Unit → Parser α}
    (h : (together d).Ok .part v T (f ()) (g ())) :
    (together d).Ok .part v T (report x >>= f) (report x >>= g) := by
  intro c r r' hv hcut hT
  have hreport : ∀ ts, report x ts = ⟨.ok (), [.unexpectedToken (front ts) x], ts⟩ := fun _ => rfl
  rw [bind_of_reported (hreport _), bind_of_reported (hreport _), hcut.front_eq]
  exact (h c r r' hv hcut hT).behind (d := []) _

end

theorem together_recovers (d : Nat) : (together d).Recovers where
  toPlain := together_plain d
  take ht h := together_skip ht h
  report := together_report
  recover hb he _ h := recover_takes hb he h
  assignment := assignment_ok (together_plain d).steps together_assigned
  declaration := by
    rw [Reading.declaration_eq]
    exact @together_ended _ d _ _ _ (declarationWithin_asksAtEnd _) (together_fail .expression)

theorem exists_cut : ∀ ts : List Token, ∃ c r, ts = c ++ r ∧ Cut c r r
  | [] => ⟨[], [], rfl, by simp, rfl, rfl⟩
  | t :: ts => by
    by_cases ht : t.kind = .ending
    · exact ⟨[], t :: ts, rfl, by simp, ht, rfl⟩
    · obtain ⟨c, r, rfl, hcut⟩ := exists_cut ts
      exact ⟨t :: c, r, rfl, List.forall_mem_cons.mpr ⟨ht, hcut.unended⟩, hcut.ends, rfl⟩

/-! ## Bounds of loops -/

def Itemized (item : Parser (Option α)) : Prop :=
  ∀ ⦃ts a⦄, (item ts).result = .ok (some a) → (item ts).rest.length < ts.length

theorem programItem_itemized (n : Nat) : Itemized (programItem (declarationWithin n)) := by
  intro ts a hok
  by_cases hb : (front ts).kind = .mark .rightBrace
  · cases ts with
    | nil => cases hb
    | cons t ts =>
      have ht : t.kind = .mark .rightBrace := hb
      rw [programItem_of_rightBrace ht]
      exact Nat.lt_succ_self _
  · rw [programItem, peek_bind] at hok ⊢
    by_cases he : (front ts).isEnding = true
    · rw [if_pos he] at hok
      cases hok
    · rw [if_neg he, if_neg (by rwa [Token.isMark_iff])]
      have h := recover_advances n hb (by rwa [Token.isEnding_iff] at he)
      rcases hread : recover (declarationWithin n) ts with ⟨e | s, es, r⟩ <;> rw [hread] at h
      · simpa only [Bind.bind, Parser.bind, hread] using h
      · rwa [bind_of_reported hread]

/-- An item takes a token, so no loop comes to more items than there are tokens. -/
theorem many_bound {item : Parser (Option α)} (hitem : Itemized item)
    (hstop : StopsAtEnd item) (e : Nat) :
    ∀ {b : Nat} {ts : List Token}, ts.length ≤ b → many item (b + e) ts = many item b ts
  | 0, ts, hb => by
    obtain rfl : ts = [] := List.eq_nil_of_length_eq_zero (Nat.le_zero.mp hb)
    rw [many_of_none (hstop [] rfl), many_of_none (hstop [] rfl)]
  | b + 1, ts, hb => by
    have hlt := @hitem ts
    rw [Nat.add_right_comm, many, many]
    rcases hread : item ts with ⟨x | o, es, r⟩ <;> rw [hread] at hlt
    · simp only [Bind.bind, Parser.bind, hread]
    · rw [bind_of_reported hread, bind_of_reported hread]
      cases o with
      | none => rfl
      | some a =>
        have hr : r.length < ts.length := hlt rfl
        have hmore : many item (b + e) r = many item b r := many_bound hitem hstop e (by omega)
        simp only [Bind.bind, Parser.bind, hmore]

/-- The length of the list is bound enough for the items of a program, and for its declarations. -/
theorem programItems_bound {ts : List Token} {n b : Nat} (d e : Nat) (hn : ts.length ≤ n)
    (hb : ts.length ≤ b) :
    many (programItem (declarationWithin (n + d))) (b + e) ts =
      many (programItem (declarationWithin n)) b ts := by
  have hloop :=
    fun e => many_bound (programItem_itemized (n + d)) (Grammar.programItem_stops _) e hb
  rw [hloop e, ← hloop d]
  obtain ⟨c, r, rfl, hcut⟩ := exists_cut ts
  rw [List.length_append] at hn hb
  have hdecl := declarationWithin_ok (together_recovers d).laws (Nat.le_of_add_right_le hn)
  have h := programItems_ok (together_recovers d) (Nat.le_of_add_right_le hb) hdecl c r r
    (Nat.le_refl c.length) hcut trivial
  rw [Reading.many_eq, Reading.programItem_eq, Reading.declaration_eq] at h
  change Parsed.Together c r r _
    (many (programItem (declarationWithin (n + d))) (b + d) (c ++ r)) at h
  generalize many (programItem (declarationWithin n)) b (c ++ r) = o,
    many (programItem (declarationWithin (n + d))) (b + d) (c ++ r) = o' at h
  cases h with
  | mk => rfl

end Parser

end Naskah
