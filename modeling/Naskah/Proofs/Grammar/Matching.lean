import Naskah.Proofs.Grammar.Braces

/-!
# Matching braces

Braces are matched from left to right with a stack: an opening brace is put on
it and a closing one takes the innermost away. A closing brace that finds none
is surplus. Counting tells only how many more are left open than are surplus,
so what is surplus early on hides what is opened behind it.
-/

namespace Naskah

/-! ## The stack -/

def braceStep (stack : List Token) (t : Token) : List Token :=
  if t.isMark .leftBrace then t :: stack
  else if t.isMark .rightBrace then stack.tail
  else stack

/-- The opening braces that no closing brace matches, innermost first. -/
def openBraces (ts : List Token) : List Token := ts.foldl braceStep []

/-- The closing braces that match none, with a stack before them. -/
def surplusFrom (stack : List Token) : List Token → List Token
  | [] => []
  | t :: ts =>
    if t.isMark .rightBrace && stack.isEmpty then t :: surplusFrom stack ts
    else surplusFrom (braceStep stack t) ts

def surplusBraces (ts : List Token) : List Token := surplusFrom [] ts

section
variable {t : Token} (stack : List Token)

theorem braceStep_left (h : t.kind = .mark .leftBrace) : braceStep stack t = t :: stack := by
  simp [braceStep, Token.isMark, h]

theorem braceStep_right (h : t.kind = .mark .rightBrace) : braceStep stack t = stack.tail := by
  simp [braceStep, Token.isMark, h]

theorem braceStep_other (h : t.kind.NoBrace) : braceStep stack t = stack := by
  rw [braceStep, if_neg (mt Token.isMark_iff.mp h.1), if_neg (mt Token.isMark_iff.mp h.2)]

end

/-! ## Counting -/

/-- The stack holds what was on it and what counting adds, but for the surplus. -/
theorem braceBalance_matched (stack ts : List Token) :
    stack.length + braceBalance ts = (ts.foldl braceStep stack).length -
      (surplusFrom stack ts).length := by
  induction ts generalizing stack with
  | nil => simp [surplusFrom]
  | cons t ts ih =>
    rw [braceBalance_cons, List.foldl_cons, surplusFrom]
    by_cases hr : t.kind = .mark .rightBrace
    · rw [braceBalance_right hr, Token.isMark_iff.mpr hr, braceStep_right _ hr]
      cases stack with
      | nil =>
        have hrest := ih []
        simp only [List.tail_nil, List.isEmpty_nil, Bool.and_self, if_true, List.length_cons,
          List.length_nil] at hrest ⊢
        omega
      | cons left stack =>
        have hrest := ih stack
        simp only [List.tail_cons, List.isEmpty_cons, Bool.and_false, Bool.false_eq_true, if_false,
          List.length_cons]
        omega
    · rw [Bool.eq_false_iff.mpr (mt Token.isMark_iff.mp hr), Bool.false_and,
        if_neg Bool.false_ne_true]
      have hrest := ih (braceStep stack t)
      by_cases hl : t.kind = .mark .leftBrace
      · rw [braceStep_left _ hl, List.length_cons] at hrest
        rw [braceBalance_left hl, braceStep_left _ hl]
        omega
      · rw [braceStep_other _ ⟨hl, hr⟩] at hrest
        rw [braceBalance_other ⟨hl, hr⟩, braceStep_other _ ⟨hl, hr⟩]
        omega

theorem braceBalance_eq (ts : List Token) :
    braceBalance ts = (openBraces ts).length - (surplusBraces ts).length := by
  have h := braceBalance_matched [] ts
  simp only [List.length_nil] at h
  rw [openBraces, surplusBraces]
  omega

/-- **The prompt waits while more braces are left open than are surplus.** So it
waits for no entry that leaves none open, and without surplus braces for each
that does. -/
theorem needsMoreInput_iff_surplus_lt (source : String) :
    (needsMoreInput source = true ↔
      (surplusBraces (tokenize source).tokens).length <
        (openBraces (tokenize source).tokens).length) ∧
    (needsMoreInput source = true → openBraces (tokenize source).tokens ≠ []) ∧
    (surplusBraces (tokenize source).tokens = [] →
      (needsMoreInput source = true ↔ openBraces (tokenize source).tokens ≠ [])) := by
  have hcount : needsMoreInput source = true ↔
      (surplusBraces (tokenize source).tokens).length <
        (openBraces (tokenize source).tokens).length := by
    rw [needsMoreInput, decide_eq_true_iff, braceBalance_eq]
    omega
  rw [hcount, ← List.length_pos_iff]
  refine ⟨Iff.rfl, fun h => Nat.zero_lt_of_lt h, fun h => ?_⟩
  rw [h, List.length_nil]

/-- A function without its last brace, and with a closing brace in a text. -/
theorem needsMoreInput_iff_surplus_lt_function :
    surplusBraces (tokenize "fungsi f() \x7b jika a \x7b cetak \"\x7d\"; \x7d").tokens = [] ∧
      needsMoreInput "fungsi f() \x7b jika a \x7b cetak \"\x7d\"; \x7d" = true ∧
      openBraces (tokenize "fungsi f() \x7b jika a \x7b cetak \"\x7d\"; \x7d").tokens ≠ [] := by
  have hsurplus :
      surplusBraces (tokenize "fungsi f() \x7b jika a \x7b cetak \"\x7d\"; \x7d").tokens = [] :=
    List.isEmpty_iff.mp (by decide +kernel)
  have hmore : needsMoreInput "fungsi f() \x7b jika a \x7b cetak \"\x7d\"; \x7d" = true := by
    decide +kernel
  exact ⟨hsurplus, hmore, ((needsMoreInput_iff_surplus_lt _).2.2 hsurplus).mp hmore⟩

/-- A surplus brace in front hides the brace that is left open behind it. -/
theorem surplus_hides_open_brace :
    needsMoreInput "\x7d\x7b" = false ∧
      openBraces (tokenize "\x7d\x7b").tokens = [⟨.mark .leftBrace, "\x7b", 1⟩] :=
  ⟨rfl, rfl⟩

end Naskah
