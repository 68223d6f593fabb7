import Naskah.Proofs.Token.Lines
import Naskah.Tree.Operator

/-!
# How marks and operators are spelled

The lexeme of a mark is the text that the mark stands for, so an operator is
spelled as the token it was read from.
-/

namespace Naskah

def Mark.spelling : Mark → String
  | leftParen => "("
  | rightParen => ")"
  | leftBrace => "\x7b"
  | rightBrace => "\x7d"
  | comma => ","
  | dot => "."
  | semicolon => ";"
  | plus => "+"
  | minus => "-"
  | star => "*"
  | slash => "/"
  | equals => "="
  | equalEqual => "=="
  | bang => "!"
  | bangEqual => "!="
  | greater => ">"
  | greaterEqual => ">="
  | less => "<"
  | lessEqual => "<="

theorem Mark.ofChar?_spelling {c : Char} {m : Mark} (h : Mark.ofChar? c = some m) :
    String.ofList [c] = m.spelling := by
  unfold Mark.ofChar? at h
  split at h <;> cases h <;> rfl

theorem Mark.withEquals?_spelling {m longer : Mark} (h : m.withEquals? = some longer) :
    longer.spelling = m.spelling ++ "=" := by
  cases m <;> cases h <;> rfl

namespace Piece

theorem mark_spelling {c : Char} {cs : List Char} {m : Mark} (h : (mark c cs).shape = .mark m) :
    String.ofList (mark c cs).text = m.spelling := by
  unfold mark at h ⊢
  cases hc : Mark.ofChar? c with
  | none =>
    rw [hc] at h
    cases h
  | some m' =>
    rw [hc] at h
    have hspelling := Mark.ofChar?_spelling hc
    simp only at h ⊢
    split at h
    · rename_i longer ds hlonger
      cases h
      rw [Mark.withEquals?_spelling hlonger, ← hspelling]
      show String.ofList ([c] ++ ['=']) = _
      rw [String.ofList_append]
    · cases h
      exact hspelling

theorem first_spelling {c : Char} {cs : List Char} {m : Mark} (h : (first c cs).shape = .mark m) :
    String.ofList (first c cs).text = m.spelling := by
  unfold first at h ⊢
  split at h
  · cases h
  split at h
  · cases h
  split at h
  · cases h
  split at h
  · cases h
  split at h
  · cases h
  split at h
  · -- a quoted text, closed or not, is no mark
    unfold quoted at h
    simp only at h
    split at h <;> cases h
  · rename_i hblank hnewline hcomment hword hdigit hquote
    rw [if_neg hblank, if_neg hnewline, if_neg hcomment, if_neg hword, if_neg hdigit, if_neg hquote]
    exact mark_spelling h

theorem exists_first_of_mem_splitFrom {p : Piece} {cs : List Char} {k : Nat}
    (h : p ∈ splitFrom k cs) : ∃ c ds, p = first c ds := by
  induction cs generalizing k with
  | nil => cases k <;> cases h
  | cons c cs ih =>
    cases k with
    | succ k => exact ih h
    | zero =>
      rw [splitFrom, List.mem_cons] at h
      rcases h with rfl | h
      · exact ⟨c, cs, rfl⟩
      · exact ih h

theorem kind?_mark {p : Piece} {m : Mark} (h : p.kind? = some (.mark m)) : p.shape = .mark m := by
  unfold kind? at h
  split at h
  · split at h <;> cases h
  · cases h
  · cases h
    assumption
  · cases h
  · cases h

end Piece

theorem tokenize_mark_lexeme {s : String} {t : Token} {m : Mark} (ht : t ∈ (tokenize s).tokens)
    (hm : t.kind = .mark m) : t.lexeme = m.spelling := by
  rw [tokenize_tokens, List.mem_append, List.mem_singleton] at ht
  rcases ht with ht | rfl
  · obtain ⟨p, hp, hkind, hlexeme⟩ := mem_tokensFrom ht
    obtain ⟨c, ds, rfl⟩ := Piece.exists_first_of_mem_splitFrom hp
    rw [hlexeme]
    exact Piece.first_spelling (Piece.kind?_mark (hkind.trans (congrArg some hm)))
  · cases hm

/-- An operator between two operands is spelled as its token. -/
theorem tokenize_operator_lexeme {s : String} {t : Token} {op : BinaryOp}
    (ht : t ∈ (tokenize s).tokens) (hop : BinaryOp.ofKind? t.kind = some op) :
    t.lexeme = op.spelling := by
  cases hkind : t.kind with
  | mark m =>
    rw [tokenize_mark_lexeme ht hkind]
    rw [hkind] at hop
    cases m <;> cases hop <;> rfl
  | _ =>
    rw [hkind] at hop
    cases hop

end Naskah
