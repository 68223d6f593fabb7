import Naskah.Proofs.Grammar.StatementSound
import Naskah.Proofs.Parser.Line

/-!
# Malformed segments

A malformed segment is a line that is no declaration and gives recovery no
place to stop before its semicolon. Reading a declaration at its front fails
inside it, and recovery goes on right behind it.
-/

namespace Naskah

namespace Grammar

open Naskah.Parser

def statementWords : List Keyword := [.fungsi, .misal, .selama, .jika, .cetak, .balikin]

inductive Malformed : List Token → Prop
  | mk {m stop} : stop.kind = .mark .semicolon →
      (∀ t ∈ m, t.kind ≠ .mark .semicolon ∧ t.kind ≠ .mark .leftBrace ∧ t.kind ≠ .mark .rightBrace ∧
        t.kind ≠ .keyword .lain ∧ t.kind ≠ .ending) →
      (∀ t ∈ m.tail, ∀ w ∈ statementWords, t.kind ≠ .keyword w) →
      (¬ ∃ s, Declaration (m ++ [stop]) s) → Malformed (m ++ [stop])

/-! ## The first semicolon -/

theorem unclosed_before {m c r r' : List Token} {stop : Token} (hs : stop.kind = .mark .semicolon)
    (hc : Unclosed c) (h : m ++ stop :: r = c ++ r') : ∃ d, m = c ++ d ∧ r' = d ++ stop :: r := by
  rcases List.append_eq_append_iff.mp h with ⟨d, rfl, hd⟩ | ⟨d, rfl, hd⟩
  · cases d with
    | nil => exact ⟨[], by simp, by simpa using hd.symm⟩
    | cons t d =>
      obtain ⟨rfl, -⟩ := List.cons.inj hd
      exact absurd hs (hc stop (by simp))
  · exact ⟨d, rfl, hd⟩

theorem not_opened {m c r r' : List Token} {stop left : Token} (hs : stop.kind = .mark .semicolon)
    (hm : ∀ t ∈ m, t.kind ≠ .mark .leftBrace) (hc : Unclosed c)
    (hl : left.kind = .mark .leftBrace) :
    m ++ stop :: r ≠ c ++ left :: r' := by
  intro h
  obtain ⟨d, rfl, hd⟩ := unclosed_before hs hc h
  cases d with
  | nil =>
    obtain ⟨rfl, -⟩ := List.cons.inj hd
    rw [hs] at hl
    cases hl
  | cons t d =>
    obtain ⟨rfl, -⟩ := List.cons.inj hd
    exact hm left (by simp) hl

/-- A declaration is a line, or opens a block in its first line. -/
inductive FirstLine : List Token → Prop
  | closed {c stop} : Unclosed c → stop.kind = .mark .semicolon → FirstLine (c ++ [stop])
  | opened {c left r} : Unclosed c → left.kind = .mark .leftBrace → FirstLine (c ++ left :: r)

theorem FirstLine.behind {c d : List Token} (hc : Unclosed c) (h : FirstLine d) :
    FirstLine (c ++ d) := by
  cases h with
  | closed hd hs => rw [← List.append_assoc]; exact .closed (hc.append hd) hs
  | opened hd hl => rw [← List.append_assoc]; exact .opened (hc.append hd) hl

theorem FirstLine.after {t : Token} {d : List Token} (ht : t.kind ≠ .mark .semicolon)
    (h : FirstLine d) : FirstLine (t :: d) :=
  h.behind (c := [t]) (by simp [ht])

theorem Ranked.unclosed {rank : Nat} {c : List Token} {e : Expr} (h : Ranked rank c e) :
    Unclosed c := by
  intro t ht hs
  have hword := h.words t ht
  rw [hs] at hword
  simp [InExpression] at hword

theorem parameters_unclosed {c params : List Token} (h : Listed Name c params) : Unclosed c := by
  cases h with
  | none => simp
  | some h =>
    induction h with
    | one h => cases h with | mk ht => simp [ht]
    | more h hcomma _ ih =>
      cases h with
      | mk ht => exact Unclosed.append (by simp [ht]) (by simp [hcomma, ih])

theorem Closed.firstLine {c : List Token} {e : Expr} : Closed c e → FirstLine c
  | .mk h hs => .closed h.unclosed hs

theorem Block.firstLine_append {c : List Token} {ss : List Stmt} (h : Block c ss) (d : List Token) :
    FirstLine (c ++ d) := by
  obtain ⟨left, c, rfl, hl⟩ := h.begins
  exact .opened (c := []) unclosed_nil hl

theorem Block.firstLine {c : List Token} {ss : List Stmt} (h : Block c ss) : FirstLine c := by
  simpa using h.firstLine_append []

theorem Statement.firstLine {c : List Token} {s : Stmt} : Statement c s → FirstLine c
  | .print hk h | .giveBack hk h => h.firstLine.after (by simp [hk])
  | .block h => h.firstLine
  | .branch (.mk hk he hb _) => ((hb.firstLine_append _).behind he.unclosed).after (by simp [hk])
  | .loop hk he hb => (hb.firstLine.behind he.unclosed).after (by simp [hk])
  | @Statement.giveBackNothing keyword stop hk hs => .closed (c := [keyword]) (by simp [hk]) hs
  | .expression h => h.firstLine

theorem Declaration.firstLine {c : List Token} {s : Stmt} (h : Declaration c s) : FirstLine c := by
  cases h with
  | function hk hf hl hp hr hb =>
    apply FirstLine.after (by simp [hk])
    apply FirstLine.after (by simp [hf])
    apply FirstLine.after (by simp [hl])
    apply FirstLine.behind (parameters_unclosed hp)
    exact hb.firstLine.after (by simp [hr])
  | declare hk hx hs h =>
    exact ((h.firstLine.after (by simp [hs])).after (by simp [hx])).after (by simp [hk])
  | assign hx hs h => exact (h.firstLine.after (by simp [hs])).after (by simp [hx])
  | statement h => exact h.firstLine

/-- In front of a line that opens no block, the only declaration can be the line. -/
theorem FirstLine.eq_line {c m r r' : List Token} {stop : Token} (h : FirstLine c)
    (hs : stop.kind = .mark .semicolon)
    (hm : ∀ t ∈ m, t.kind ≠ .mark .semicolon ∧ t.kind ≠ .mark .leftBrace)
    (hc : m ++ stop :: r = c ++ r') :
    c = m ++ [stop] := by
  cases h with
  | @closed c stop' hd hs' =>
    rw [List.append_assoc] at hc
    obtain ⟨d, rfl, hd⟩ := unclosed_before hs hd hc
    cases d with
    | nil => obtain ⟨rfl, -⟩ := List.cons.inj hd; simp
    | cons t d =>
      obtain ⟨rfl, -⟩ := List.cons.inj hd
      exact absurd hs' (hm stop' (by simp)).1
  | opened hd hl =>
    rw [List.append_assoc] at hc
    exact absurd hc (not_opened hs (fun t ht => (hm t ht).2) hd hl)

/-! ## Recovery behind a segment -/

theorem startsStatement_iff {t : Token} :
    startsStatement t = true ↔ ∃ w ∈ statementWords, t.kind = .keyword w := by
  simp only [startsStatement, Bool.or_eq_true, Token.isKeyword_iff, statementWords, List.mem_cons,
    List.not_mem_nil, or_false, exists_eq_or_imp, exists_eq_left, or_assoc]

theorem skipPast_cons {previous t : Token} (hp : previous.kind ≠ .mark .semicolon)
    (hb : t.kind ≠ .mark .rightBrace) (he : t.kind ≠ .ending)
    (hw : ∀ w ∈ statementWords, t.kind ≠ .keyword w) (ts : List Token) :
    skipPast previous (t :: ts) = skipPast t ts := by
  rw [skipPast, if_neg]
  simp only [Bool.or_eq_true, Token.isMark_iff, Token.isEnding_iff, startsStatement_iff, not_or]
  exact ⟨⟨⟨hp, he⟩, hb⟩, fun ⟨w, hmem, hkind⟩ => hw w hmem hkind⟩

theorem skipPast_closed {stop : Token} (hs : stop.kind = .mark .semicolon) (r : List Token) :
    skipPast stop r = r := by
  cases r with
  | nil => rfl
  | cons t r => simp [skipPast, Token.isMark_iff.mpr hs]

theorem skipPast_line {stop : Token} (hs : stop.kind = .mark .semicolon) (r : List Token) :
    ∀ (m : List Token) (previous : Token), Unclosed (previous :: m) →
      (∀ t ∈ m, t.kind ≠ .mark .rightBrace ∧ t.kind ≠ .ending) →
      (∀ t ∈ m, ∀ w ∈ statementWords, t.kind ≠ .keyword w) → skipPast previous (m ++ stop :: r) = r
  | [], previous, hc, _, _ => by
    rw [List.nil_append,
      skipPast_cons (unclosed_cons.mp hc).1 (by simp [hs]) (by simp [hs]) (by simp [hs])]
    exact skipPast_closed hs r
  | t :: m, previous, hc, hm, hw => by
    obtain ⟨hp, hc⟩ := unclosed_cons.mp hc
    obtain ⟨⟨hb, he⟩, hm⟩ := List.forall_mem_cons.mp hm
    obtain ⟨ht, hw⟩ := List.forall_mem_cons.mp hw
    rw [List.cons_append, skipPast_cons hp hb he ht]
    exact skipPast_line hs r m t hc hm hw

theorem synchronize_line {m r : List Token} {stop : Token} (hs : stop.kind = .mark .semicolon)
    (hc : Unclosed m) (hm : ∀ t ∈ m, t.kind ≠ .mark .rightBrace ∧ t.kind ≠ .ending)
    (hw : ∀ t ∈ m.tail, ∀ w ∈ statementWords, t.kind ≠ .keyword w) :
    synchronize (m ++ stop :: r) = r := by
  have first : ∀ {t : Token} {ts : List Token}, t.kind ≠ .mark .rightBrace → t.kind ≠ .ending →
      synchronize (t :: ts) = skipPast t ts := by
    intro t ts hb he
    rw [synchronize, if_neg]
    simp only [Bool.or_eq_true, Token.isMark_iff, Token.isEnding_iff, not_or]
    exact ⟨hb, he⟩
  cases m with
  | nil =>
    rw [List.nil_append, first (by simp [hs]) (by simp [hs])]
    exact skipPast_closed hs r
  | cons t m =>
    obtain ⟨⟨hb, he⟩, hm⟩ := List.forall_mem_cons.mp hm
    rw [List.cons_append, first hb he]
    exact skipPast_line hs r m t hc hm hw

/-- Reading a declaration at a malformed segment fails in the segment. -/
theorem Malformed.fails {m : List Token} (h : Malformed m) (r : List Token) {n : Nat}
    (hn : (m ++ r).length ≤ n) :
    ∃ t ∈ m, ∃ x r', declarationWithin n (m ++ r) = ⟨.error (.unexpectedToken t x), [], r'⟩ ∧
      synchronize r' = r := by
  obtain @⟨m, stop, hs, hm, hw, hwrong⟩ := h
  rw [List.append_assoc, List.singleton_append] at hn ⊢
  have hline := declarationWithin_upToBlock n (m ++ stop :: r) trivial
  have hread := @(declarationWithin_reads n (fun _ => n)).clean (m ++ stop :: r)
  generalize declarationWithin n (m ++ stop :: r) = p at hline hread
  cases hline with
  | opened hts hc hl => exact absurd hts (not_opened hs (fun t ht => (hm t ht).2.1) hc hl)
  | @ok s r' =>
    obtain ⟨c, hc, hdeclaration, -⟩ := hread trivial hn rfl
    have hline := hdeclaration.firstLine.eq_line hs (fun t ht => ⟨(hm t ht).1, (hm t ht).2.1⟩) hc
    rw [hline] at hdeclaration
    exact absurd ⟨s, hdeclaration⟩ hwrong
  | @error c r' x hts hc =>
    obtain ⟨d, rfl, rfl⟩ := unclosed_before hs hc hts
    refine ⟨front (d ++ stop :: r), ?_, x, d ++ stop :: r, rfl, ?_⟩
    · cases d <;> simp [front]
    · refine synchronize_line hs (fun t ht => (hm t (by simp [ht])).1) (fun t ht => ?_)
        (fun t ht => hw t ?_)
      · have := hm t (by simp [ht])
        exact ⟨this.2.2.1, this.2.2.2.2⟩
      · cases c with
        | nil => exact ht
        | cons u c => exact List.mem_append_right _ (List.mem_of_mem_tail ht)

theorem Malformed.recovered {m : List Token} (h : Malformed m) (r : List Token) {n : Nat}
    (hn : (m ++ r).length ≤ n) :
    ∃ t ∈ m, ∃ x,
    recover (declarationWithin n) (m ++ r) = ⟨.ok none, [.unexpectedToken t x], r⟩ := by
  obtain ⟨t, ht, x, r', hfails, hr⟩ := h.fails r hn
  refine ⟨t, ht, x, ?_⟩
  rw [recover, hfails]
  simp [hr]

end Grammar

end Naskah
