import Naskah.Proofs.Grammar.StatementSound

/-!
# The parser and the grammar

The parser gets over every error, so a list has been read without one exactly
if no error was reported. Then all of it up to its ending is a program, and the
statements are the program's. Conversely every program is read without an
error, and as the parser is a function, no list is written for two programs.
-/

namespace Naskah

namespace Grammar

open Naskah.Parser

/-! ## Readers that always give a result -/

def Total {α : Type} (p : Parser α) : Prop := ∀ ts, ∃ a, (p ts).result = .ok a

section
variable {α β : Type}

theorem total_pure (a : α) : Total (pure a : Parser α) := fun _ => ⟨a, rfl⟩

theorem Total.bind {p : Parser α} {f : α → Parser β} (hp : Total p) (hf : ∀ a, Total (f a)) : Total
      (p >>= f) := by
  intro ts
  obtain ⟨a, ha⟩ := hp ts
  obtain ⟨b, hb⟩ := hf a (p ts).rest
  refine ⟨b, ?_⟩
  simp only [Bind.bind, Parser.bind]
  rcases hpts : p ts with ⟨result, reported, r⟩
  rw [hpts] at ha hb
  cases ha
  exact hb

theorem total_peek : Total peek := fun _ => ⟨_, rfl⟩

theorem total_skip : Total skip := fun _ => ⟨(), rfl⟩

theorem total_report (x : Expectation) : Total (report x) := fun _ => ⟨(), rfl⟩

theorem total_recover (p : Parser α) : Total (recover p) := by
  intro ts
  simp only [recover]
  rcases p ts with ⟨e | a, reported, r⟩
  · exact ⟨none, rfl⟩
  · exact ⟨some a, rfl⟩

theorem Total.many {item : Parser (Option α)} (h : Total item) : ∀ b, Total (many item b)
  | 0 => total_pure []
  | b + 1 => by
    refine h.bind fun o => ?_
    cases o with
    | none => exact total_pure []
    | some a => exact (h.many b).bind fun more => total_pure _

end

theorem programItem_total (p : Parser Stmt) : Total (programItem p) := by
  refine total_peek.bind fun t => ?_
  by_cases ht : t.isEnding = true
  · simp only [if_pos ht]
    exact total_pure none
  · by_cases hr : t.isMark .rightBrace = true
    · simp only [if_neg ht, if_pos hr]
      exact (total_report _).bind fun _ => total_skip.bind fun _ => total_pure _
    · simp only [if_neg ht, if_neg hr]
      exact (total_recover p).bind fun _ => total_pure _

theorem programWithin_total (n : Nat) : Total (programWithin n) :=
  ((programItem_total _).many n).bind fun _ => total_pure _

theorem parse_errors (ts : List Token) :
    (parse ts).errors = (programWithin ts.length ts).errors := by
  obtain ⟨ss, hss⟩ := programWithin_total ts.length ts
  simp [parse, Parsed.errors, hss]

theorem parse_eq_iff {ts : List Token} {ss : List Stmt} :
    parse ts = ⟨ss, []⟩ ↔ ∃ r, programWithin ts.length ts = ⟨.ok ss, [], r⟩ := by
  constructor
  · intro h
    have hes : (programWithin ts.length ts).errors = [] := by rw [← parse_errors, h]
    obtain ⟨ss', hok⟩ := Parsed.errors_eq_nil hes
    obtain rfl : ss' = ss := by
      rw [parse, hok] at h
      cases h
      rfl
    exact ⟨_, hok⟩
  · rintro ⟨r, h⟩
    rw [parse, h]
    rfl

/-! ## Where a program ends -/

theorem programItem_none {p : Parser Stmt} {ts : List Token}
    (h : programItem p ts = ⟨.ok none, [], ts⟩) : (front ts).kind = .ending := by
  rw [programItem, peek_bind] at h
  by_cases ht : (front ts).isEnding = true
  · exact Token.isEnding_iff.mp ht
  · rw [if_neg ht] at h
    by_cases hr : (front ts).isMark .rightBrace = true
    · rw [if_pos hr] at h
      obtain ⟨_, _, h, -⟩ := bind_eq_ok h
      cases h
    · rw [if_neg hr] at h
      obtain ⟨_, _, -, h⟩ := bind_eq_ok h
      cases h

theorem programWithin_stops {n : Nat} {ts r : List Token} {ss : List Stmt} (hn : ts.length ≤ n)
    (h : programWithin n ts = ⟨.ok ss, [], r⟩) : (front r).kind = .ending := by
  obtain ⟨os, r', hitems, hp⟩ := bind_eq_ok h
  cases hp
  exact programItem_none (many_stops item_ne_nil (programItem_stops _)
    (programItem_reads (declarationWithin_reads n fun _ => n)) hn hn hitems)

theorem unended_unique {c d r r' : List Token} (hc : ∀ t ∈ c, t.kind ≠ .ending)
    (hd : ∀ t ∈ d, t.kind ≠ .ending) (hr : (front r).kind = .ending)
    (hr' : (front r').kind = .ending) (h : c ++ r = d ++ r') : c = d := by
  induction c generalizing d with
  | nil =>
    cases d with
    | nil => rfl
    | cons t d =>
      rw [List.nil_append] at h
      rw [h] at hr
      exact absurd hr (hd t List.mem_cons_self)
  | cons t c ih =>
    cases d with
    | nil =>
      rw [List.nil_append] at h
      rw [← h] at hr'
      exact absurd hr' (hc t List.mem_cons_self)
    | cons u d =>
      rw [List.cons_append, List.cons_append] at h
      obtain ⟨rfl, htail⟩ := List.cons.inj h
      rw [ih (List.forall_mem_cons.mp hc).2 (List.forall_mem_cons.mp hd).2 htail]

/-! ## The parser accepts the programs -/

theorem program_of_parse {ts : List Token} {ending : Token} {ss : List Stmt}
    (hts : ∀ t ∈ ts, t.kind ≠ .ending) (he : ending.kind = .ending)
    (h : parse (ts ++ [ending]) = ⟨ss, []⟩) : Program ts ss := by
  obtain ⟨r, h⟩ := parse_eq_iff.mp h
  have hr := programWithin_stops (Nat.le_refl _) h
  obtain ⟨c, hc, hprogram, -⟩ := (programWithin_reads _ id).clean trivial (Nat.le_refl _) h
  have hend : (front [ending]).kind = .ending := he
  rw [unended_unique hts hprogram.unended hend hr hc]
  exact hprogram

theorem parse_of_program {ts : List Token} {ending : Token} {ss : List Stmt} (h : Program ts ss)
    (he : ending.kind = .ending) : parse (ts ++ [ending]) = ⟨ss, []⟩ :=
  parse_eq_iff.mpr ⟨[ending], program_read h (Nat.le_refl _) he⟩

theorem Declarations.append {c d : List Token} {ss ts : List Stmt} :
    Declarations c ss → Declarations d ts → Declarations (c ++ d) (ss ++ ts)
  | .nil, h => h
  | .cons h hs, h' => by
    rw [List.append_assoc]
    exact .cons h (hs.append h')

/-- **The parser decides the grammar.** A list that ends with its only ending
is read without errors exactly as the program it is written for, and it is
written for one program at most. -/
theorem parse_iff_program {ts : List Token} {ending : Token} (hts : ∀ t ∈ ts, t.kind ≠ .ending)
    (he : ending.kind = .ending) :
    (∀ ss, parse (ts ++ [ending]) = ⟨ss, []⟩ ↔ Program ts ss) ∧
      ∀ ss ss', Program ts ss → Program ts ss' → ss = ss' := by
  refine ⟨fun ss => ⟨program_of_parse hts he, fun h => parse_of_program h he⟩,
    fun ss ss' h h' => ?_⟩
  have hsame := (parse_of_program h he).symm.trans (parse_of_program h' he)
  injection hsame

/-- A branch behind `lain` is the one statement of the other part, and the
operators of one rank group to the left. -/
theorem parse_nested_branch :
    let word (k : Keyword) : Token := ⟨.keyword k, k.spelling, 1⟩
    let sign (m : Mark) : Token := ⟨.mark m, "", 1⟩
    let a : Token := ⟨.name, "a", 1⟩
    let b : Token := ⟨.name, "b", 2⟩
    let c : Token := ⟨.name, "c", 3⟩
    let ts := [word .jika, a, sign .leftBrace, sign .rightBrace, word .lain, word .jika, b,
      sign .minus, c, sign .minus, a, sign .leftBrace, sign .rightBrace]
    let ss : List Stmt := [.branch (.name a) [] [.branch (.binary .sub (sign .minus)
      (.binary .sub (sign .minus) (.name b) (.name c)) (.name a)) [] []]]
    (∀ t ∈ ts, t.kind ≠ .ending) ∧ Program ts ss ∧ ∀ ss', Program ts ss' → ss' = ss := by
  intro word sign a b c ts ss
  have hts : ∀ t ∈ ts, t.kind ≠ .ending := by simp [ts, word, sign, a, b, c]
  have exact := @parse_iff_program ts ⟨.ending, "", 3⟩ hts rfl
  have hprogram : Program ts ss := (exact.1 ss).mp rfl
  exact ⟨hts, hprogram, fun ss' h => exact.2 ss' ss h hprogram⟩

end Grammar

end Naskah
