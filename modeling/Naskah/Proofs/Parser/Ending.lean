import Naskah.Proofs.Parser.Bounds

/-!
# What stands behind the ending

No reader goes past an ending. So a list is read as far as its first ending,
and a list that has none is read as if one stood behind it. Reading an
assignment looks two tokens ahead without asking for an ending, but an ending
is no name, and behind a name it is no `=`.
-/

namespace Naskah

def upToEnding : List Token → List Token
  | [] => []
  | t :: ts => if t.isEnding then [t] else t :: upToEnding ts

theorem exists_upToEnding {ts : List Token} (h : ∃ t ∈ ts, t.kind = .ending) :
    ∃ c e r, ts = c ++ e :: r ∧ upToEnding ts = c ++ [e] ∧ e.kind = .ending ∧
      ∀ t ∈ c, t.kind ≠ .ending := by
  induction ts with
  | nil => simp at h
  | cons t ts ih =>
    by_cases ht : t.kind = .ending
    · exact ⟨[], t, ts, rfl, by simp [upToEnding, Token.isEnding_iff.mpr ht], ht, by simp⟩
    · have hmore : ∃ u ∈ ts, u.kind = .ending := by simpa [ht] using h
      obtain ⟨c, e, r, rfl, hcut, he, hc⟩ := ih hmore
      refine ⟨t :: c, e, r, rfl, ?_, he, List.forall_mem_cons.mpr ⟨ht, hc⟩⟩
      rw [upToEnding, if_neg (by rwa [Token.isEnding_iff]), hcut, List.cons_append]

namespace Parser

variable {α : Type}

/-- A reader ends alike on two lists, and takes the same tokens of both. -/
def ReadsAlike (p : Parser α) (ts us : List Token) : Prop :=
  (p ts).result = (p us).result ∧ (p ts).reported = (p us).reported ∧
    ∃ taken, ts = taken ++ (p ts).rest ∧ us = taken ++ (p us).rest

/-- Readers that a bound leaves as they are, from the number of tokens before the ending on. -/
def Bounded [Likened α] (p : Nat → Parser α) : Prop :=
  ∀ n d, (together d).Ok .part n Anything (p n) (p (n + d))

/-- With what stands behind the ending the list is longer, and so is the bound. -/
theorem Bounded.readsAlike [Likened α] {p : Nat → Parser α} (hp : Bounded p) {c r r' : List Token}
    (hcut : Cut c r r') (hlength : r.length ≤ r'.length) :
    ReadsAlike (fun ts => p ts.length ts) (c ++ r') (c ++ r) := by
  obtain ⟨d, hd⟩ := Nat.exists_eq_add_of_le hlength
  have hread := hp (c ++ r).length d c r r' (by simp) hcut trivial
  have hlonger : (c ++ r').length = (c ++ r).length + d := by
    simp only [List.length_append]
    omega
  unfold ReadsAlike
  simp only [hlonger]
  generalize p (c ++ r).length (c ++ r) = o, p ((c ++ r).length + d) (c ++ r') = o' at hread
  cases hread with
  | mk hc => exact ⟨rfl, rfl, _, by rw [hc, List.append_assoc], by rw [hc, List.append_assoc]⟩

theorem Bounded.eq [Likened α] {p : Nat → Parser α} (hp : Bounded p) {ts : List Token} {n : Nat}
    (hn : ts.length ≤ n) : p n ts = p ts.length ts := by
  obtain ⟨d, rfl⟩ := Nat.exists_eq_add_of_le hn
  obtain ⟨c, r, rfl, hcut⟩ := exists_cut ts
  have hread := hp (c ++ r).length d c r r (by simp) hcut trivial
  generalize p (c ++ r).length (c ++ r) = o, p ((c ++ r).length + d) (c ++ r) = o' at hread
  cases hread with
  | mk => rfl

theorem expressionOfRank_bounded (rank : Nat) : Bounded fun n => rankedWithin n rank := by
  intro n d
  have hsteps := (together_plain d).steps
  have h := ranked_ok hsteps (Nat.le_refl n) (unaryWithin_ok hsteps (Nat.le_refl n)) rank
  rw [Reading.ranked_eq, Reading.unary_eq] at h
  exact h

theorem declarationWithin_bounded : Bounded declarationWithin := by
  intro n d
  have h := declarationWithin_ok (together_recovers d).laws (Nat.le_refl n)
  rw [Reading.declaration_eq] at h
  exact h

theorem statement_bounded : Bounded fun n => plainStatement n (declarationWithin n) := by
  intro n d
  have hlaws := (together_recovers d).laws
  have h := plainStatement_ok hlaws (Nat.le_refl n) (declarationWithin_ok hlaws (Nat.sub_le n 1))
  rw [Reading.plainStatement_eq, Reading.declaration_eq] at h
  exact h

theorem declaration_bounded : Bounded fun n => recover (declarationWithin n) :=
  fun n d => recover_together (declarationWithin_bounded n d)

theorem openedBlock_bounded : Bounded fun n => block n (declarationWithin n) := by
  intro n d
  have h := block_ok (together_recovers d) (Nat.le_refl n) (declarationWithin_bounded n d)
  rw [Reading.block_eq] at h
  exact h

theorem programWithin_bounded : Bounded programWithin := by
  intro n d
  have h := program_ok (together_recovers d) (Nat.le_refl n)
  rw [Reading.program_eq] at h
  exact h

end Parser

open Naskah.Parser

theorem parse_cut {c r r' : List Token} (hcut : Cut c r r') (hlength : r.length ≤ r'.length) :
    parse (c ++ r') = parse (c ++ r) := by
  obtain ⟨hresult, hreported, -⟩ := programWithin_bounded.readsAlike hcut hlength
  rw [parse, parse, hresult, hreported]

/-- **Only the tokens up to the first ending matter.** A list is read as the
list that stops there, by every reader, which ends alike and takes the same
tokens. A list without an ending is read as with an ending of line 0 behind it. -/
theorem parse_up_to_ending (ts : List Token) :
    ((∃ t ∈ ts, t.kind = .ending) →
      parse ts = parse (upToEnding ts) ∧
        (∀ rank, ReadsAlike (expressionOfRank rank) ts (upToEnding ts)) ∧
        ReadsAlike expression ts (upToEnding ts) ∧ ReadsAlike statement ts (upToEnding ts) ∧
        ReadsAlike declaration ts (upToEnding ts) ∧ ReadsAlike openedBlock ts (upToEnding ts)) ∧
      ((∀ t ∈ ts, t.kind ≠ .ending) → parse ts = parse (ts ++ [⟨.ending, "", 0⟩])) := by
  refine ⟨fun hended => ?_, fun hunended => ?_⟩
  · obtain ⟨c, e, r, hts, hcut, he, hc⟩ := exists_upToEnding hended
    rw [hcut, hts]
    have hends : Cut c [e] (e :: r) := ⟨hc, he, rfl⟩
    have hlength : [e].length ≤ (e :: r).length := by simp
    exact ⟨parse_cut hends hlength, fun rank =>
      (expressionOfRank_bounded rank).readsAlike hends hlength,
      (expressionOfRank_bounded Rank.disjunction).readsAlike hends hlength,
      statement_bounded.readsAlike hends hlength, declaration_bounded.readsAlike hends hlength,
      openedBlock_bounded.readsAlike hends hlength⟩
  · have hends : Cut ts [] [⟨.ending, "", 0⟩] := ⟨hunended, rfl, rfl⟩
    have hparse := parse_cut hends (Nat.zero_le 1)
    rw [List.append_nil] at hparse
    exact hparse.symm

/-- An ending stands where an assignment has its sign, and the sign behind it;
the ending is named, at line 3 if it is there and at line 0 if not. -/
theorem parse_up_to_ending_assignment :
    let a : Token := ⟨.name, "a", 1⟩
    let e : Token := ⟨.ending, "", 3⟩
    let sign (m : Mark) : Token := ⟨.mark m, "", 1⟩
    let ts := [sign .leftBrace, a, e, sign .equals, a, sign .semicolon, sign .rightBrace]
    let us := [sign .leftBrace, a]
    (parse ts = ⟨[], [.unexpectedToken e .expressionEnd, .unexpectedToken e .blockEnd]⟩ ∧
        parse (upToEnding ts) = parse ts ∧ (declaration (upToEnding ts)).rest = [e] ∧
        ReadsAlike declaration ts (upToEnding ts)) ∧
      parse us =
        ⟨[], [.unexpectedToken .noMore .expressionEnd, .unexpectedToken .noMore .blockEnd]⟩ ∧
        parse (us ++ [⟨.ending, "", 0⟩]) = parse us := by
  intro a e sign ts us
  obtain ⟨hparse, -, -, -, hdeclaration, -⟩ := (parse_up_to_ending ts).1 ⟨e, by simp [ts], rfl⟩
  have hmissing := (parse_up_to_ending us).2 (by simp [us, a, sign])
  exact ⟨⟨rfl, hparse.symm, rfl, hdeclaration⟩, rfl, hmissing.symm⟩

end Naskah
