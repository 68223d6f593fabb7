import Naskah.Proofs.Grammar.ExpressionSound
import Naskah.Proofs.Grammar.ExpressionComplete
import Naskah.Proofs.Parser.Line

/-!
# The longest expression at the front

An operator between operands, or the parenthesis of a call, behind an
expression always begins more of one: whatever the ranks, two tokens more make
an expression again. So where reading an expression ends, no such token
stands, and where none stands, nothing longer is an expression.
-/

namespace Naskah

namespace Grammar

open Naskah.Parser

def Prolongs (k : Kind) : Prop := k = .mark .leftParen ∨ ∃ rank op, Sign rank k op

/-! ## Expressions that are prolonged -/

theorem Sign.rank_mem {rank : Nat} {k : Kind} {op : Operator} (h : Sign rank k op) :
    0 < rank ∧ rank ≤ Rank.disjunction := by
  cases h <;> decide

theorem Primary.ranked {c : List Token} {e : Expr} (h : Primary c e) : ∀ rank, Ranked rank c e
  | 0 => .unary (.call (.primary h))
  | rank + 1 => .operand (h.ranked rank)

/-- An operator takes the last operand of its rank before it, and a name behind it. -/
theorem Ranked.prolong_sign {k : Nat} {t x : Token} {op : Operator} (ht : Sign k t.kind op)
    (hx : x.kind = .name) {rank : Nat} {c : List Token} {e : Expr} :
    Ranked rank c e → k ≤ rank → ∃ e', Ranked rank (c ++ [t, x]) e'
  | .unary _, hk => absurd ht.rank_mem.1 (by omega)
  | @Ranked.operand rank _ _ h, hk => by
    by_cases hrank : k ≤ rank
    · obtain ⟨e', h'⟩ := h.prolong_sign ht hx hrank
      exact ⟨e', .operand h'⟩
    · obtain rfl : k = rank + 1 := by omega
      exact ⟨_, .operation (.operand h) ht ((Primary.name hx).ranked rank)⟩
  | @Ranked.operation rank c u op' d _ _ hl hu hr, hk => by
    by_cases hrank : k ≤ rank
    · obtain ⟨e', h'⟩ := hr.prolong_sign ht hx hrank
      rw [List.append_assoc, List.cons_append]
      exact ⟨_, .operation hl hu h'⟩
    · obtain rfl : k = rank + 1 := by omega
      exact ⟨_, .operation (.operation hl hu hr) ht ((Primary.name hx).ranked rank)⟩

section
variable {left right : Token} (hl : left.kind = .mark .leftParen)
  (hr : right.kind = .mark .rightParen)
include hl hr

theorem Unary.prolong_call {c : List Token} {e : Expr} (h : Unary c e) :
    ∃ e', Unary (c ++ [left, right]) e' := by
  cases h with
  | sign ht h =>
    obtain ⟨e', h'⟩ := h.prolong_call
    exact ⟨_, .sign ht h'⟩
  | call h => exact ⟨_, .call (.call h hl .none hr)⟩

theorem Ranked.prolong_call {rank : Nat} {c : List Token} {e : Expr} (h : Ranked rank c e) :
    ∃ e', Ranked rank (c ++ [left, right]) e' := by
  cases h with
  | unary h =>
    obtain ⟨e', h'⟩ := h.prolong_call hl hr
    exact ⟨e', .unary h'⟩
  | operand h =>
    obtain ⟨e', h'⟩ := h.prolong_call
    exact ⟨e', .operand h'⟩
  | operation hleft ht hright =>
    obtain ⟨e', h'⟩ := hright.prolong_call
    rw [List.append_assoc, List.cons_append]
    exact ⟨_, .operation hleft ht h'⟩

end

theorem Prolongs.expression {t : Token} (ht : Prolongs t.kind) {c : List Token} {e : Expr}
    (h : Expression c e) : ∃ u e', Expression (c ++ [t, u]) e' := by
  rcases ht with ht | ⟨rank, op, ht⟩
  · exact ⟨⟨.mark .rightParen, "", 0⟩, h.prolong_call ht rfl⟩
  · exact ⟨⟨.name, "", 0⟩, h.prolong_sign ht rfl ht.rank_mem.2⟩

/-! ## Where reading ends -/

theorem follows_of_not_prolonged {r : List Token} (h : ¬ Begins Prolongs r) (rank : Nat) :
    Follows rank (front r) := by
  cases r with
  | nil => exact ⟨by simp [front, Token.noMore], fun op hop => by cases hop⟩
  | cons t r =>
    refine ⟨fun ht => h ⟨t, r, rfl, .inl ht⟩, fun op hop => ?_⟩
    exact absurd ⟨t, r, rfl, .inr ⟨op.rank, op, sign_iff.mpr ⟨hop, rfl⟩⟩⟩ h

theorem expression_of_phrase {c r : List Token} {e : Expr} (h : Expression c e)
    (hr : ¬ Begins Prolongs r) : expression (c ++ r) = ⟨.ok e, [], r⟩ :=
  expression_read h (Nat.le_refl _) (follows_of_not_prolonged hr)

theorem phrase_of_expression {ts r : List Token} {e : Expr} (h : expression ts = ⟨.ok e, [], r⟩) :
    ∃ c, ts = c ++ r ∧ Expression c e ∧ ¬ Begins Prolongs r := by
  obtain ⟨c, hts, hc, hlocal⟩ :=
    (expressionWithin_reads ts.length id).clean trivial (Nat.le_refl _) h
  refine ⟨c, hts, hc, ?_⟩
  rintro ⟨t, d, rfl, ht⟩
  -- with the right token behind `t` all would be read, but reading stops before `t`
  -- whatever follows it
  obtain ⟨u, e', hlonger⟩ := ht.expression hc
  have hstops := hlocal (c ++ [t, u]).length [t, u] rfl (Nat.le_refl _)
  have hread :=
    expression_read hlonger (r := []) (Nat.le_refl _) (follows_of_not_prolonged (by simp [Begins]))
  rw [List.append_nil] at hread
  cases hstops.symm.trans hread

theorem expression_unreported {ts : List Token} {e : Expr} (h : (expression ts).result = .ok e) :
    expression ts = ⟨.ok e, [], (expression ts).rest⟩ := by
  have hline : (expression ts).Inline ts := expressionWithin_inline ts.length ts trivial
  generalize expression ts = p at h hline
  cases hline with
  | ok =>
    cases h
    rfl
  | error => cases h

theorem prolongs_of_longer {c d : List Token} {t : Token} {e e' : Expr} (hc : Expression c e)
    (hlonger : Expression (c ++ t :: d) e') : Prolongs t.kind := by
  refine Classical.byContradiction fun ht => ?_
  have hshort : expression (c ++ t :: d) = ⟨.ok e, [], t :: d⟩ := by
    refine expression_of_phrase hc ?_
    rintro ⟨u, r, hu, hprolongs⟩
    cases hu
    exact ht hprolongs
  have hlong := expression_of_phrase hlonger (r := []) (by simp [Begins])
  rw [List.append_nil] at hlong
  cases hshort.symm.trans hlong

/-- **Reading an expression takes the longest one.** On any list it succeeds
with a tree and a rest exactly if the list is a phrase of that tree and the
rest, and the rest does not begin with a token that would go on with it. No
longer front of the list is then an expression. -/
theorem expression_reads_longest (ts : List Token) :
    (∀ e r, (expression ts).result = .ok e ∧ (expression ts).rest = r ↔
      ∃ c, ts = c ++ r ∧ Expression c e ∧ ¬ Begins Prolongs r) ∧
    ∀ e c r, (expression ts).result = .ok e → (expression ts).rest = r → ts = c ++ r →
      ∀ d e', d <+: ts → Expression d e' → d.length ≤ c.length := by
  refine ⟨fun e r => ⟨?_, ?_⟩, ?_⟩
  · rintro ⟨hresult, rfl⟩
    exact phrase_of_expression (expression_unreported hresult)
  · rintro ⟨c, rfl, hc, hr⟩
    rw [expression_of_phrase hc hr]
    exact ⟨rfl, rfl⟩
  · rintro e c r hresult rfl hts d e' ⟨s, hs⟩ hd
    obtain ⟨c', hc', hphrase, hstop⟩ := phrase_of_expression (expression_unreported hresult)
    obtain rfl : c = c' := List.append_cancel_right (hts.symm.trans hc')
    rcases List.append_eq_append_iff.mp (hs.trans hts) with ⟨m, rfl, -⟩ | ⟨m, rfl, hrest⟩
    · simp
    · cases m with
      | nil => simp
      | cons t m => exact absurd ⟨t, m ++ s, hrest, prolongs_of_longer hphrase hd⟩ hstop

end Grammar

end Naskah
