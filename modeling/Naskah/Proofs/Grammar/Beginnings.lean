import Naskah.Proofs.Grammar.Exact
import Naskah.Proofs.Parser.Bounds

/-!
# Programs in front of other lists

A program is read up to its last token, whatever list stands behind it, and
that list is then read as it is by itself. Only `lain` behind a program can
belong to its last declaration. The bounds differ, since the whole list is
longer, but what they leave is enough.
-/

namespace Naskah

namespace Grammar

open Naskah.Parser

theorem Declarations.length_le {c : List Token} {ss : List Stmt} (h : Declarations c ss) :
    ss.length ≤ c.length := by
  cases h with
  | nil => exact Nat.le_refl 0
  | cons h hs =>
    have hpos := List.length_pos_of_ne_nil h.begins.ne_nil
    have hrest := hs.length_le
    simp only [List.length_cons, List.length_append]
    omega

theorem bind_congr_at {α β : Type} {p q : Parser α} {ts us : List Token} (h : p ts = q us)
    (f : α → Parser β) : (p >>= f) ts = (q >>= f) us := by
  simp only [Bind.bind, Parser.bind, h]

theorem Declarations.read_on {c : List Token} {ss : List Stmt} (h : Declarations c ss)
    (r : List Token) (n b : Nat) (hn : (c ++ r).length ≤ n) (hr : (front r).kind ≠ .keyword .lain) :
    many (programItem (declarationWithin n)) (b + ss.length) (c ++ r) =
      (many (programItem (declarationWithin n)) b >>= fun more =>
        pure (ss.map some ++ more)) r := by
  cases h with
  | nil => simp
  | @cons c s d ss h hs =>
    rw [List.append_assoc] at hn ⊢
    have hread := programItem_read (h.begins.front (d ++ r)) (h.read (d ++ r) n hn (hs.front_ne hr))
    have hrest := hs.read_on r n b (by simp only [List.length_append] at hn ⊢; omega) hr
    rw [List.length_cons, ← Nat.add_assoc, many_of_some hread, bind_congr_at hrest]
    simp

theorem programWithin_append {c r : List Token} {ss : List Stmt} (h : Program c ss)
    (hr : (front r).kind ≠ .keyword .lain) :
    programWithin (c ++ r).length (c ++ r) =
      (programWithin r.length >>= fun more => pure (ss ++ more)) r := by
  obtain ⟨e, he⟩ := Nat.exists_eq_add_of_le h.length_le
  have hlength : (c ++ r).length = r.length + e + ss.length := by
    rw [List.length_append]
    omega
  have hitems := h.read_on r (c ++ r).length (r.length + e) (Nat.le_refl _) hr
  rw [← hlength, List.length_append, Nat.add_comm] at hitems
  -- the bounds that the program leaves are above the length of the rest
  have hbound := programItems_bound c.length e (Nat.le_refl r.length) (Nat.le_refl r.length)
  rw [List.length_append, Nat.add_comm, programWithin, programWithin,
    bind_congr_at hitems, bind_assoc, bind_congr_at hbound]
  simp

/-- **A valid beginning never disturbs what follows.** Behind a program, every
list that does not begin with `lain` is read as it is by itself, with the same
errors. -/
theorem parse_append {ts us : List Token} {ending : Token} {ss : List Stmt}
    (hts : ∀ t ∈ ts, t.kind ≠ .ending) (he : ending.kind = .ending)
    (h : parse (ts ++ [ending]) = ⟨ss, []⟩) (hus : (front us).kind ≠ .keyword .lain) :
    parse (ts ++ us) = ⟨ss ++ (parse us).statements, (parse us).errors⟩ := by
  have hread := programWithin_append (program_of_parse hts he h) hus
  obtain ⟨ss', hss'⟩ := programWithin_total us.length us
  rw [parse, parse, hread]
  rcases hrest : programWithin us.length us with ⟨result, es, r⟩
  rw [hrest] at hss'
  simp only at hss'
  subst hss'
  rw [bind_of_reported hrest]
  simp [pure_apply, Except.toOption]

/-- Behind `jika a { }` stands `} a = ; cetak a ; {`. -/
theorem parse_append_unmatched :
    let word (k : Keyword) : Token := ⟨.keyword k, k.spelling, 1⟩
    let sign (m : Mark) : Token := ⟨.mark m, "", 1⟩
    let a : Token := ⟨.name, "a", 1⟩
    let ts := [word .jika, a, sign .leftBrace, sign .rightBrace]
    let us := [sign .rightBrace, a, sign .equals, sign .semicolon, word .cetak, a, sign .semicolon,
      sign .leftBrace]
    let es : List SyntaxError := [.unexpectedToken (sign .rightBrace) .openBlock,
      .unexpectedToken (sign .semicolon) .expression, .unexpectedToken .noMore .blockEnd]
    parse us = ⟨[.print (word .cetak) (.name a)], es⟩ ∧
      parse (ts ++ us) = ⟨[.branch (.name a) [] [], .print (word .cetak) (.name a)], es⟩ := by
  intro word sign a ts us es
  have hts : ∀ t ∈ ts, t.kind ≠ .ending := by simp [ts, word, sign, a]
  exact ⟨rfl,
    @parse_append ts us .noMore [.branch (.name a) [] []] hts rfl rfl (by simp [us, front, sign])⟩

end Grammar

end Naskah
