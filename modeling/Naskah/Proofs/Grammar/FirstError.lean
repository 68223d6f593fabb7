import Mathlib.Order.Bounds.Defs
import Naskah.Proofs.Alike.Parser
import Naskah.Proofs.Grammar.Exact

/-!
# The first error of a list

Up to the token of its first error a list can be continued to a program, and
with that token it cannot, whatever follows and whatever other tokens of the
same kinds stand there.
-/

namespace Naskah

namespace Grammar

open Naskah.Parser

/-- Whether some program with an ending behind it begins with the kinds of `c`. -/
def Begun (c : List Token) : Prop :=
  ∃ (us : List Token) (ss : List Stmt) (ending : Token), Program us ss ∧ ending.kind = .ending ∧
    c.map (·.kind.bare) <+: (us ++ [ending]).map (·.kind.bare)

theorem begun_of_program {c d : List Token} {ss : List Stmt}
    (h : Program (c ++ d) ss) : Begun c := by
  refine ⟨c ++ d, ss, ⟨.ending, "", 0⟩, h, rfl, List.IsPrefix.map _ ?_⟩
  rw [List.append_assoc]
  exact List.prefix_append _ _

theorem not_begun {c : List Token} {t : Token} (h : ∀ us, (parse (c ++ t :: us)).errors ≠ []) :
    ¬ Begun (c ++ [t]) := by
  rintro ⟨us, ss, ending, hprogram, he, v, hv⟩
  obtain ⟨w, w', hus, hw, -⟩ := List.map_eq_append_iff.mp hv.symm
  have hclean := parse_of_program hprogram he
  rw [hus] at hclean
  -- the program reads the same with the tokens of the list in place of its own
  let R : Token → Token → Prop := fun a b => a.kind.bare = b.kind.bare
  have hrefl : List.Forall₂ R w' w' := List.forall₂_same.mpr fun _ _ => rfl
  have hw : List.Forall₂ R w (c ++ [t]) := by
    rw [← List.forall₂_eq_eq_eq, List.forall₂_map_left_iff, List.forall₂_map_right_iff] at hw
    exact hw
  have halike : TokensAlike R (w ++ w') (c ++ [t] ++ w') :=
    ⟨List.rel_append hw hrefl, ending, by simp [← hus], he⟩
  obtain ⟨-, herrors⟩ := parse_alike ⟨fun h => h⟩ halike
  rw [hclean, List.forall₂_nil_left_iff, List.append_assoc] at herrors
  exact h w' herrors

/-- **The first error is at the first wrong token.** In a list with an ending
behind it, it carries the token at the least index up to which no program
begins with the kinds of the list. What stands before that token can be
completed to a program, and with the token it cannot. -/
theorem first_error_isLeast {ts : List Token} {ending : Token} (he : ending.kind = .ending)
    {error : SyntaxError} {errors : List SyntaxError}
    (h : (parse (ts ++ [ending])).errors = error :: errors) :
    ∃ i t x, (ts ++ [ending])[i]? = some t ∧ error = .unexpectedToken t x ∧
      IsLeast {i | i < (ts ++ [ending]).length ∧ ¬ Begun ((ts ++ [ending]).take (i + 1))} i ∧
      (∃ us, (parse ((ts ++ [ending]).take i ++ us ++ [ending])).errors = []) ∧
      ∀ us, (parse ((ts ++ [ending]).take (i + 1) ++ us)).errors ≠ [] := by
  rw [parse_errors] at h
  obtain ⟨c, r, x, hsplit, rfl, ⟨d, ss, hprogram⟩, hlocal⟩ :=
    (programWithin_reads _ id).stuck trivial (Nat.le_refl _) h
  have hc : ∀ t ∈ c, t.kind ≠ .ending := (List.forall_mem_append.mp hprogram.unended).1
  cases r with
  | nil =>
    rw [List.append_nil] at hsplit
    exact absurd he (hc ending (by simp [← hsplit]))
  | cons t r =>
    have htake : (ts ++ [ending]).take (c.length + 1) = c ++ [t] := by
      rw [hsplit, List.take_length_add_append]
      rfl
    have hnever : ∀ us, (parse (c ++ t :: us)).errors ≠ [] := by
      intro us
      rw [parse_errors]
      exact hlocal _ (t :: us) rfl (Nat.le_refl _)
    refine ⟨c.length, t, x, by simp [hsplit], rfl, ⟨⟨by simp [hsplit], ?_⟩, ?_⟩, ⟨d, ?_⟩, ?_⟩
    · rw [htake]
      exact not_begun hnever
    · rintro j ⟨-, hj⟩
      refine Nat.le_of_not_lt fun hlt => ?_
      rw [hsplit, List.take_append_of_le_length hlt] at hj
      refine hj (@begun_of_program _ (c.drop (j + 1) ++ d) ss ?_)
      rwa [← List.append_assoc, List.take_append_drop]
    · rw [hsplit, List.take_left]
      rw [parse_of_program hprogram he]
    · intro us
      rw [htake, List.append_assoc]
      exact hnever us

/-- In `x = ) ;` the wrong token is the parenthesis, at index 2. -/
theorem first_error_behind_equals :
    let t (k : Kind) : Token := ⟨k, "", 1⟩
    let ts := [t .name, t (.mark .equals), t (.mark .rightParen), t (.mark .semicolon)]
    IsLeast {i | i < 5 ∧ ¬ Begun ((ts ++ [t .ending]).take (i + 1))} 2 := by
  intro t ts
  have h : (parse (ts ++ [t .ending])).errors =
      [.unexpectedToken (t (.mark .rightParen)) .expression] := rfl
  obtain ⟨i, u, x, hi, hu, hleast, -⟩ := first_error_isLeast rfl h
  cases hu
  match i, hi with
  | 2, _ => exact hleast
  | 0, hi | 1, hi | 3, hi | 4, hi => cases hi

end Grammar

end Naskah
