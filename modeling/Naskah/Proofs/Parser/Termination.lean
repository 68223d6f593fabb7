import Naskah.Proofs.Parser.Attempt
import Naskah.Proofs.Parser.Ending

/-!
# Reading ends

A loop over items has a shorter list in every round, and a reader that leads
back to itself takes a token on the way. The loops of blocks and programs rest
on more: a declaration that fails may leave its error at a closing brace, where
recovery takes nothing, but it began elsewhere. So fuel for one round more than
there are tokens is enough, and what is read with it is what the bounded readers
read.
-/

namespace Naskah

namespace Attempt

open Naskah.Parser

variable {α β : Type}

/-! ## Coming to an end -/

/-- On this list the attempt ends as the reader does, and what it asked for advanced. -/
def EndsAt (ts : List Token) (p : Parser α) (q : Attempt α) : Prop :=
  (p ts).rest.length ≤ ts.length ∧ ∃ cs, q ts = some (p ts, cs) ∧ ∀ c ∈ cs, c.Advances

def ends : Manner Attempt :=
  ⟨Eq, 0, fun _ v T _ _ p q => ∀ ts, ts.length < v → T (front ts) → EndsAt ts p q⟩

section
variable {ts : List Token} {p : Parser α} {q : Attempt α}

theorem endsAt_step (hp : (p ts).rest.length ≤ ts.length) : EndsAt ts p (step p) :=
  ⟨hp, [], rfl, by simp⟩

theorem EndsAt.bind {f : α → Parser β} {g : α → Attempt β} (hp : EndsAt ts p q)
    (hf : ∀ a, (p ts).result = .ok a → EndsAt (p ts).rest (f a) (g a)) :
    EndsAt ts (p >>= f) (q >>= g) := by
  obtain ⟨hle, cs, hq, hcs⟩ := hp
  unfold EndsAt
  simp only [Bind.bind, Attempt.bind, Parser.bind]
  rw [hq]
  rcases hread : p ts with ⟨e | a, es, r⟩
  · rw [hread] at hle
    exact ⟨hle, cs, rfl, hcs⟩
  · rw [hread] at hle hf
    obtain ⟨hle', cs', hg, hcs'⟩ := hf a rfl
    simp only at hle' hg ⊢
    rw [hg]
    exact ⟨Nat.le_trans hle' hle, cs ++ cs', rfl, List.forall_mem_append.mpr ⟨hcs, hcs'⟩⟩

theorem afterFront_length_le (ts : List Token) : (afterFront ts).length ≤ ts.length := by
  cases ts with
  | nil => exact Nat.le_refl 0
  | cons t ts =>
    rw [afterFront]
    split
    · exact Nat.le_refl _
    · exact Nat.le_succ _

theorem ends_skip {v : Nat} {t : Token} (ht : t.kind ≠ .ending) {f : Unit → Parser α}
    {g : Unit → Attempt α} [Likened α] (h : ends.Ok .part (v - 1) Anything (f ()) (g ())) :
    ends.Ok .part v (· = t) (skip >>= f) (step skip >>= g) := by
  intro ts hts hT
  refine (endsAt_step (afterFront_length_le ts)).bind fun _ _ => ?_
  obtain ⟨ts, rfl⟩ := exists_cons_of_front hT ht
  rw [skip, afterFront_of_ne ht]
  exact h ts (Nat.lt_sub_of_add_lt hts) trivial

end

theorem ends_plain : ends.Plain where
  extent h := h
  kinds h := by rw [h]
  only h ts hts _ := h ts hts trivial
  fewer h hw ts hts := h ts (Nat.lt_of_lt_of_le hts hw)
  pure hab ts _ _ := by
    rw [Likened.rel_eq.mp hab]
    exact endsAt_step (Nat.le_refl _)
  fail _ _ _ _ := endsAt_step (Nat.le_refl _)
  bind {v T α β _ _ p q f g} hp hf ts hts hT := by
    have hfirst := hp ts hts hT
    exact hfirst.bind fun a _ =>
      hf a a (Likened.rel_eq.mpr rfl) _ (Nat.lt_of_le_of_lt hfirst.1 hts) trivial
  peek h ts hts hT := by
    refine (endsAt_step (Nat.le_refl _)).bind fun t ht => ?_
    cases ht
    exact h _ _ hT rfl ts hts rfl
  skip ht h := ends_skip ht.1 h
  spent _ _ hts := absurd hts (Nat.not_lt_zero _)
  unary _ hts := absurd hts (Nat.not_lt_zero _)

/-! ## Recovery ends -/

theorem skipPast_ends : ∀ (fuel : Nat) (previous : Token) (ts : List Token), ts.length < fuel →
    skipPast fuel previous ts = some (Parser.skipPast previous ts)
  | 0, _, _, hts => absurd hts (Nat.not_lt_zero _)
  | fuel + 1, previous, [], _ => by
      simp [skipPast, Parser.skipPast, front, Token.noMore, Token.isEnding]
  | fuel + 1, previous, t :: ts, hts => by
    rw [Parser.skipPast]
    by_cases hstop :
      (previous.isMark .semicolon || t.isEnding || t.isMark .rightBrace || startsStatement t) = true
    · rw [if_pos hstop]
      exact if_pos hstop
    · have ht : t.kind ≠ .ending := fun hk => by simp [Token.isEnding, hk] at hstop
      have hround : skipPast (fuel + 1) previous (t :: ts) =
          skipPast fuel t (afterFront (t :: ts)) := if_neg hstop
      rw [if_neg hstop, hround, afterFront_of_ne ht]
      exact skipPast_ends fuel t ts (Nat.lt_of_succ_lt_succ hts)

theorem synchronize_ends {fuel : Nat} {ts : List Token} (hts : ts.length < fuel) :
    synchronize fuel ts = some (Parser.synchronize ts) := by
  unfold synchronize
  rw [skipPast_ends fuel _ _ (Nat.lt_of_le_of_lt (afterFront_length_le ts) hts)]
  cases ts with
  | nil => rfl
  | cons t ts =>
    simp only [front, Parser.synchronize]
    by_cases hb : t.isMark .rightBrace = true
    · simp [hb]
    by_cases he : t.isEnding = true
    · simp [hb, he, afterFront, Parser.skipPast]
    · simp [hb, he, afterFront]

theorem synchronize_skips (ts : List Token) :
    ∃ d, ts = d ++ Parser.synchronize ts ∧ ∀ t ∈ d, t.kind ≠ .mark .rightBrace ∧
      t.kind ≠ .ending := by
  cases ts with
  | nil => exact ⟨[], rfl, by simp⟩
  | cons t ts =>
    rw [Parser.synchronize]
    by_cases hstay : (t.isMark .rightBrace || t.isEnding) = true
    · rw [if_pos hstay]
      exact ⟨[], rfl, by simp⟩
    · obtain ⟨c, hc, hpassed⟩ := skipPast_split t ts
      rw [if_neg hstay]
      simp only [Bool.or_eq_true, Token.isMark_iff, Token.isEnding_iff, not_or] at hstay
      exact ⟨t :: c, by rw [List.cons_append, ← hc], List.forall_mem_cons.mpr ⟨hstay, hpassed⟩⟩

theorem synchronize_length_le (ts : List Token) : (Parser.synchronize ts).length ≤ ts.length := by
  obtain ⟨d, hd, -⟩ := synchronize_skips ts
  have hlength := congrArg List.length hd
  rw [List.length_append] at hlength
  omega

/-- A declaration read at no closing brace and no ending takes a token, also if it fails. -/
theorem recover_takes (n : Nat) {ts : List Token} (hb : (front ts).kind ≠ .mark .rightBrace)
    (he : (front ts).kind ≠ .ending) :
    Request.Advances ⟨ts, (Parser.recover (declarationWithin n) ts).rest⟩ := by
  have hlt := recover_advances n hb he
  have hsettles := recover_settles (declarationWithin_firm n ts) (Nat.le_refl 1)
  generalize Parser.recover (declarationWithin n) ts = o at hlt hsettles
  cases hsettles with
  | @ok m r x es a hts =>
    cases hm : Account.tokens m with
    | nil =>
      rw [hm, List.nil_append] at hts
      subst hts
      exact absurd hlt (Nat.lt_irrefl _)
    | cons t d =>
      rw [hm] at hts
      subst hts
      exact ⟨t, d, rfl, hb, he⟩

theorem recover_ends {fuel : Nat} {p : Parser α} {q : Attempt α} {ts : List Token}
    (hts : ts.length < fuel) (h : EndsAt ts p q) :
    EndsAt ts (Parser.recover p) (recover fuel q) := by
  obtain ⟨hle, cs, hq, hcs⟩ := h
  unfold EndsAt
  rw [Parser.recover, recover, hq]
  rcases hread : p ts with ⟨e | a, es, r⟩
  · rw [hread] at hle
    simp only at hle
    simp only [synchronize_ends (Nat.lt_of_le_of_lt hle hts)]
    exact ⟨Nat.le_trans (synchronize_length_le r) hle, cs, rfl, hcs⟩
  · rw [hread] at hle
    exact ⟨hle, cs, rfl, hcs⟩

theorem request_ends {fuel n : Nat} {q : Attempt Stmt} {ts : List Token}
    (hb : (front ts).kind ≠ .mark .rightBrace) (he : (front ts).kind ≠ .ending)
    (hts : ts.length < fuel) (h : EndsAt ts (declarationWithin n) q) :
    EndsAt ts (Parser.recover (declarationWithin n)) (request (recover fuel q)) := by
  obtain ⟨hle, cs, hq, hcs⟩ := recover_ends hts h
  refine ⟨hle, cs ++ [⟨ts, (Parser.recover (declarationWithin n) ts).rest⟩], ?_, ?_⟩
  · rw [request, hq]
    rfl
  · exact List.forall_mem_append.mpr ⟨hcs, by simpa using recover_takes n hb he⟩

/-! ## All readers end -/

theorem ends_recovers : ends.Recovers where
  toPlain := ends_plain
  take ht h := ends_skip ht h
  report h ts hts hT := (endsAt_step (Nat.le_refl _)).bind fun _ _ => h ts hts hT
  recover {v b n t q} hb he hv h β _ f g hf ts hts hT := by
    subst hT
    have hasked := request_ends hb he (Nat.lt_of_lt_of_le hts hv) (h ts hts trivial)
    have hlt := recover_advances n hb he
    exact hasked.bind fun o _ => hf o o (Likened.rel_eq.mpr rfl) _ (by omega) trivial
  assignment {v T α _ f g p q} hf hpq ts hts _ := by
    obtain ⟨o, ho⟩ := exists_assigned ts
    have hrest : (assigned? ts).rest = ts := by rw [ho]
    refine (endsAt_step (Nat.le_of_eq (congrArg List.length hrest))).bind fun o _ => ?_
    rw [hrest]
    cases o with
    | none => exact hpq ts hts trivial
    | some x =>
      have hskip (us : List Token) : EndsAt us skip (step skip) :=
        endsAt_step (afterFront_length_le us)
      refine (hskip ts).bind fun _ _ => (hskip _).bind fun _ _ => hf x x rfl _ ?_ trivial
      exact Nat.lt_of_le_of_lt (Nat.le_trans (hskip _).1 (hskip ts).1) hts
  declaration _ hts := absurd hts (Nat.not_lt_zero _)

theorem declarationWithin_ends (n : Nat) :
    ends.Ok .whole n Anything (declarationWithin n) (Reading.declaration n) :=
  declarationWithin_ok ends_recovers.laws (Nat.le_refl n)

theorem program_ends (n : Nat) : ends.Ok .part n Anything (programWithin n) (program n) :=
  program_ok ends_recovers (Nat.le_refl n)

theorem declaration_ends (n : Nat) :
    ends.Ok .part n Anything (Parser.recover (declarationWithin n)) (declaration n) :=
  fun ts hts _ => recover_ends hts (declarationWithin_ends n ts hts trivial)

theorem openedBlock_ends (n : Nat) :
    ends.Ok .part n Anything (Parser.block n (declarationWithin n)) (openedBlock n) :=
  block_ok ends_recovers (Nat.le_refl n) (declarationWithin_ends n)

theorem ends_enough [Likened α] {p : Nat → Parser α} {q : Nat → Attempt α}
    (h : ∀ n, ends.Ok .part n Anything (p n) (q n)) (hp : Bounded p) {ts : List Token} {fuel : Nat}
    (hfuel : ts.length < fuel) :
    ∃ cs, q fuel ts = some (p ts.length ts, cs) ∧ ∀ c ∈ cs, c.Advances := by
  obtain ⟨-, cs, hq, hcs⟩ := h fuel ts hfuel trivial
  rw [hp.eq (Nat.le_of_lt hfuel)] at hq
  exact ⟨cs, hq, hcs⟩

end Attempt

open Naskah.Parser

/-- **Parsing ends on every list of tokens.** With more fuel than tokens a
program, a block, a declaration and recovery come to an end, which is that of
the bounded readers. Every declaration that a loop of a program or a block asks
for begins at a token that is no closing brace and no ending, and takes it; so
does any declaration that begins there. Recovery takes neither. -/
theorem parsing_terminates (ts : List Token) :
    (∀ fuel, ts.length < fuel →
      (∃ cs, Attempt.parse fuel ts = some (parse ts, cs) ∧ ∀ c ∈ cs, c.Advances) ∧
      (∃ cs, Attempt.openedBlock fuel ts = some (openedBlock ts, cs) ∧ ∀ c ∈ cs, c.Advances) ∧
      (∃ cs, Attempt.declaration fuel ts = some (declaration ts, cs) ∧ ∀ c ∈ cs, c.Advances) ∧
      Attempt.synchronize fuel ts = some (synchronize ts)) ∧
    ((front ts).kind ≠ .mark .rightBrace → (front ts).kind ≠ .ending →
      Request.Advances ⟨ts, (declaration ts).rest⟩) ∧
    ∃ d, ts = d ++ synchronize ts ∧ ∀ t ∈ d, t.kind ≠ .mark .rightBrace ∧ t.kind ≠ .ending := by
  refine ⟨fun fuel hfuel => ⟨?_, ?_, ?_, Attempt.synchronize_ends hfuel⟩, ?_,
    Attempt.synchronize_skips ts⟩
  · obtain ⟨cs, hread, hcs⟩ := Attempt.ends_enough Attempt.program_ends programWithin_bounded hfuel
    refine ⟨cs, ?_, hcs⟩
    rw [Attempt.parse, hread]
    rfl
  · exact Attempt.ends_enough Attempt.openedBlock_ends openedBlock_bounded hfuel
  · exact Attempt.ends_enough Attempt.declaration_ends declaration_bounded hfuel
  · exact Attempt.recover_takes ts.length

/-- `{ jika }` without an ending: the branch fails at the closing brace, where
recovery stays, but it has taken its keyword. One round of fuel is not enough. -/
theorem parsing_terminates_failing_branch :
    let ts : List Token :=
      [⟨.mark .leftBrace, "", 1⟩, ⟨.keyword .jika, "", 1⟩, ⟨.mark .rightBrace, "", 1⟩]
    let lengths (c : Request) : Nat × Nat := (c.start.length, c.rest.length)
    (∃ cs, Attempt.parse 4 ts = some (parse ts, cs) ∧ cs.map lengths = [(2, 1), (3, 0)] ∧
      ∀ c ∈ cs, c.Advances) ∧
      (parse ts).errors.length = 1 ∧ (Attempt.parse 1 ts).isNone = true := by
  intro ts lengths
  obtain ⟨⟨cs, hparse, hcs⟩, -⟩ := (parsing_terminates ts).1 4 (by decide)
  have hlengths : (Attempt.parse 4 ts).map (fun r => r.2.map lengths) = some [(2, 1), (3, 0)] := by
    decide +kernel
  rw [hparse] at hlengths
  exact ⟨⟨cs, hparse, Option.some.inj hlengths, hcs⟩, by decide +kernel, by decide +kernel⟩

end Naskah
