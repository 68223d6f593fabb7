import Naskah.Token.Scan

/-!
# Pieces and lines

No piece but a newline holds one, so a text may be cut at any of its newlines:
its pieces are those of the two parts with the newline between them, and its
tokens those of the two parts, the second some lines further down.
-/

namespace Naskah

/-! ## The piece at the front -/

theorem takeWhile_append_stop {p : Char → Bool} {x : Char} (hx : p x = false) (cs ds : List Char) :
    (cs ++ x :: ds).takeWhile p = cs.takeWhile p := by
  induction cs with
  | nil => simp [hx]
  | cons c cs ih =>
    rw [List.cons_append, List.takeWhile_cons, List.takeWhile_cons, ih]

theorem drop_takeWhile_append (p : Char → Bool) (cs ds : List Char) :
    (cs ++ ds).drop (cs.takeWhile p).length = cs.drop (cs.takeWhile p).length ++ ds :=
  List.drop_append_of_le_length (List.takeWhile_prefix p).length_le

theorem not_mem_takeWhile {p : Char → Bool} {x : Char} (hx : p x = false) (cs : List Char) :
    x ∉ cs.takeWhile p := by
  intro hmem
  have hp := List.all_eq_true.mp List.all_takeWhile x hmem
  rw [hx] at hp
  cases hp

namespace Piece

/-! A newline behind a piece is not looked at, or ends the piece. -/

theorem fraction_append_newline (cs ds : List Char) :
    fraction (cs ++ '\n' :: ds) = fraction cs := by
  match cs with
  | [] => rfl
  | [c] =>
    by_cases hc : c = '.'
    · subst hc; rfl
    · simp [fraction, hc]
  | c :: d :: cs =>
    by_cases hc : c = '.'
    · subst hc
      simp only [List.cons_append, fraction,
        takeWhile_append_stop (show isDigit '\n' = false by rfl)]
    · simp [fraction, hc]

theorem numeral_append_newline (c : Char) (cs ds : List Char) :
    numeral c (cs ++ '\n' :: ds) = numeral c cs := by
  simp only [numeral, takeWhile_append_stop (show isDigit '\n' = false by rfl),
    drop_takeWhile_append, fraction_append_newline]

theorem quoted_append_newline (c : Char) (cs ds : List Char) :
    quoted c (cs ++ '\n' :: ds) = quoted c cs := by
  simp only [quoted, takeWhile_append_stop (show isQuotable '\n' = false by rfl),
    drop_takeWhile_append]
  generalize cs.drop (cs.takeWhile isQuotable).length = rest
  cases rest with
  | nil => rfl
  | cons d rest =>
    by_cases hd : d = '"'
    · subst hd; rfl
    · simp [hd]

theorem mark_append_newline (c : Char) (cs ds : List Char) :
    mark c (cs ++ '\n' :: ds) = mark c cs := by
  unfold mark
  cases Mark.ofChar? c with
  | none => rfl
  | some m =>
    cases cs with
    | nil => cases m <;> rfl
    | cons d cs =>
      by_cases hd : d = '='
      · subst hd; cases m <;> rfl
      · simp [hd]

theorem first_append_newline (c : Char) (cs ds : List Char) :
    first c (cs ++ '\n' :: ds) = first c cs := by
  have hhead : ((cs ++ '\n' :: ds).head? = some '/') = (cs.head? = some '/') := by
    cases cs <;> simp
  have hcomment : (cs ++ '\n' :: ds).takeWhile (· ≠ '\n') = cs.takeWhile (· ≠ '\n') :=
    takeWhile_append_stop (by rfl) cs ds
  simp only [first, takeWhile_append_stop (show isBlank '\n' = false by rfl), hcomment,
    takeWhile_append_stop (show isWordPart '\n' = false by rfl), hhead, numeral_append_newline,
    quoted_append_newline, mark_append_newline]

/-! ## The text of a piece -/

theorem takeWhile_append_drop (p : Char → Bool) (cs : List Char) :
    cs.takeWhile p ++ cs.drop (cs.takeWhile p).length = cs :=
  (List.prefix_iff_eq_append.mp (List.takeWhile_prefix p))

theorem fraction_text (cs : List Char) : fraction cs <+: cs ∧ '\n' ∉ fraction cs := by
  unfold fraction
  split
  · rename_i c cs
    split
    · rename_i hc
      have hne : '\n' ≠ c := by rintro rfl; cases hc
      refine ⟨?_, ?_⟩
      · exact List.cons_prefix_cons.mpr
          ⟨rfl, List.cons_prefix_cons.mpr ⟨rfl, List.takeWhile_prefix _⟩⟩
      · simp [hne, not_mem_takeWhile (show isDigit '\n' = false by rfl)]
    · exact ⟨List.nil_prefix, by simp⟩
  · exact ⟨List.nil_prefix, by simp⟩

theorem numeral_text (c : Char) (cs : List Char) :
    ∃ more, (numeral c cs).text = c :: more ∧ more <+: cs ∧ '\n' ∉ more := by
  obtain ⟨htext, hinline⟩ := fraction_text (cs.drop (cs.takeWhile isDigit).length)
  refine ⟨cs.takeWhile isDigit ++ fraction (cs.drop (cs.takeWhile isDigit).length), rfl, ?_, ?_⟩
  · have hprefix := (List.prefix_append_right_inj (cs.takeWhile isDigit)).mpr htext
    rwa [takeWhile_append_drop] at hprefix
  · simp [hinline, not_mem_takeWhile (show isDigit '\n' = false by rfl)]

theorem quoted_text (c : Char) (cs : List Char) :
    ∃ more, (quoted c cs).text = c :: more ∧ more <+: cs ∧ '\n' ∉ more := by
  have hbody := not_mem_takeWhile (show isQuotable '\n' = false by rfl) cs
  have hcs := takeWhile_append_drop isQuotable cs
  unfold quoted
  simp only
  split
  · rename_i rest hrest
    refine ⟨cs.takeWhile isQuotable ++ ['"'], rfl, ⟨rest, ?_⟩, by simp [hbody]⟩
    rw [hrest] at hcs
    simpa using hcs
  · exact ⟨cs.takeWhile isQuotable, rfl, List.takeWhile_prefix _, hbody⟩

theorem mark_text (c : Char) (cs : List Char) :
    ∃ more, (mark c cs).text = c :: more ∧ more <+: cs ∧ '\n' ∉ more := by
  unfold mark
  split
  · exact ⟨[], rfl, List.nil_prefix, by simp⟩
  · split
    · exact ⟨['='], rfl, List.cons_prefix_cons.mpr ⟨rfl, List.nil_prefix⟩, by simp⟩
    · exact ⟨[], rfl, List.nil_prefix, by simp⟩

/-- A piece takes its character and some of what follows, but no newline
behind the character. -/
theorem first_text (c : Char) (cs : List Char) :
    ∃ more, (first c cs).text = c :: more ∧ more <+: cs ∧ '\n' ∉ more := by
  unfold first
  split
  · exact ⟨_, rfl, List.takeWhile_prefix _, not_mem_takeWhile (by rfl) cs⟩
  split
  · exact ⟨[], rfl, List.nil_prefix, by simp⟩
  split
  · exact ⟨_, rfl, List.takeWhile_prefix _, not_mem_takeWhile (by rfl) cs⟩
  split
  · exact ⟨_, rfl, List.takeWhile_prefix _, not_mem_takeWhile (by rfl) cs⟩
  split
  · exact numeral_text c cs
  split
  · exact quoted_text c cs
  · exact mark_text c cs

theorem first_newline (cs : List Char) : first '\n' cs = ⟨.newline, ['\n']⟩ := rfl

theorem first_shape {c : Char} (hc : c ≠ '\n') (cs : List Char) :
    (first c cs).shape ≠ .newline := by
  unfold first numeral quoted mark
  grind

/-! ## All pieces -/

theorem splitFrom_append_newline (k : Nat) (cs ds : List Char) (hk : k ≤ cs.length) :
    splitFrom k (cs ++ '\n' :: ds) = splitFrom k cs ++ ⟨.newline, ['\n']⟩ :: split ds := by
  induction cs generalizing k with
  | nil =>
    obtain rfl : k = 0 := Nat.le_zero.mp hk
    rfl
  | cons c cs ih =>
    cases k with
    | succ k => exact ih k (Nat.le_of_succ_le_succ hk)
    | zero =>
      obtain ⟨more, htext, hmore, -⟩ := first_text c cs
      rw [List.cons_append, splitFrom, splitFrom, first_append_newline, List.cons_append, htext]
      rw [ih _ (by simpa using hmore.length_le)]

theorem split_append_newline (cs ds : List Char) :
    split (cs ++ '\n' :: ds) = split cs ++ ⟨.newline, ['\n']⟩ :: split ds :=
  splitFrom_append_newline 0 cs ds (Nat.zero_le _)

theorem inline_of_mem_splitFrom {p : Piece} {cs : List Char} {k : Nat} (h : p ∈ splitFrom k cs) :
    p = ⟨.newline, ['\n']⟩ ∨ p.shape ≠ .newline ∧ '\n' ∉ p.text := by
  induction cs generalizing k with
  | nil => cases k <;> cases h
  | cons c cs ih =>
    cases k with
    | succ k => exact ih h
    | zero =>
      rw [splitFrom, List.mem_cons] at h
      rcases h with rfl | h
      · by_cases hc : c = '\n'
        · subst hc
          exact .inl (first_newline cs)
        · obtain ⟨more, htext, -, hmore⟩ := first_text c cs
          refine .inr ⟨first_shape hc cs, ?_⟩
          rw [htext, List.mem_cons, not_or]
          exact ⟨Ne.symm hc, hmore⟩
      · exact ih h

/-- The newline pieces of a text are its newlines. -/
theorem linesOf_splitFrom (k : Nat) (cs : List Char) :
    linesOf (splitFrom k cs) = (cs.drop k).count '\n' := by
  induction cs generalizing k with
  | nil => cases k <;> rfl
  | cons c cs ih =>
    cases k with
    | succ k => exact ih k
    | zero =>
      obtain ⟨more, htext, ⟨rest, rfl⟩, hmore⟩ := first_text c cs
      rw [splitFrom, linesOf, ih, htext]
      simp only [List.length_cons, Nat.add_sub_cancel, List.drop_left, List.drop_zero,
        List.count_cons, List.count_append, List.count_eq_zero.mpr hmore]
      by_cases hc : c = '\n'
      · subst hc
        simp [first_newline, lines, Nat.add_comm]
      · simp [lines, first_shape hc, hc]

theorem linesOf_split (cs : List Char) : linesOf (split cs) = cs.count '\n' :=
  linesOf_splitFrom 0 cs

/-! ## Tokens of pieces -/

def tokensFrom (line : Nat) (ps : List Piece) : List Token :=
  (numbered line ps).filterMap fun (line, p) => p.token? line

def errorsFrom (line : Nat) (ps : List Piece) : List SyntaxError :=
  (numbered line ps).filterMap fun (line, p) => p.error? line

theorem numbered_append (line : Nat) (ps qs : List Piece) :
    numbered line (ps ++ qs) = numbered line ps ++ numbered (line + linesOf ps) qs := by
  induction ps generalizing line with
  | nil => rfl
  | cons p ps ih => simp [numbered, linesOf, ih, Nat.add_assoc]

theorem mem_of_mem_numbered {line : Nat} {ps : List Piece} {x : Nat × Piece}
    (h : x ∈ numbered line ps) : x.2 ∈ ps := by
  induction ps generalizing line with
  | nil => cases h
  | cons p ps ih =>
    rw [numbered, List.mem_cons] at h
    rcases h with rfl | h
    · exact List.mem_cons_self
    · exact List.mem_cons_of_mem _ (ih h)

theorem tokensFrom_append (line : Nat) (ps qs : List Piece) :
    tokensFrom line (ps ++ qs) = tokensFrom line ps ++ tokensFrom (line + linesOf ps) qs := by
  simp [tokensFrom, numbered_append]

theorem errorsFrom_append (line : Nat) (ps qs : List Piece) :
    errorsFrom line (ps ++ qs) = errorsFrom line ps ++ errorsFrom (line + linesOf ps) qs := by
  simp [errorsFrom, numbered_append]

end Piece

/-! ## Further down -/

def Token.below (n : Nat) (t : Token) : Token := { t with line := t.line + n }

def SyntaxError.below (n : Nat) : SyntaxError → SyntaxError
  | .unexpectedCharacter c line => .unexpectedCharacter c (line + n)
  | .unterminatedString line => .unterminatedString (line + n)
  | .unexpectedToken t expected => .unexpectedToken (t.below n) expected

namespace Piece

theorem tokensFrom_add (line n : Nat) (ps : List Piece) :
    tokensFrom (line + n) ps = (tokensFrom line ps).map (Token.below n) := by
  induction ps generalizing line with
  | nil => rfl
  | cons p ps ih =>
    have htail : tokensFrom (line + n + p.lines) ps = (tokensFrom (line + p.lines) ps).map
        (Token.below n) := by
      rw [← ih, Nat.add_right_comm]
    simp only [tokensFrom] at htail ⊢
    rw [numbered, numbered, List.filterMap_cons, List.filterMap_cons, htail]
    simp only [token?]
    cases p.kind? <;> simp [Token.below]

theorem error?_add (line n : Nat) (p : Piece) :
    p.error? (line + n) = (p.error? line).map (SyntaxError.below n) := by
  unfold error?
  split <;> rfl

theorem errorsFrom_add (line n : Nat) (ps : List Piece) :
    errorsFrom (line + n) ps = (errorsFrom line ps).map (SyntaxError.below n) := by
  induction ps generalizing line with
  | nil => rfl
  | cons p ps ih =>
    have htail : errorsFrom (line + n + p.lines) ps = (errorsFrom (line + p.lines) ps).map
        (SyntaxError.below n) := by
      rw [← ih, Nat.add_right_comm]
    simp only [errorsFrom] at htail ⊢
    rw [numbered, numbered, List.filterMap_cons, List.filterMap_cons, htail, error?_add]
    cases p.error? line <;> simp

theorem errorsFrom_add_eq_nil {line n : Nat} {ps : List Piece} (h : errorsFrom line ps = []) :
    errorsFrom (line + n) ps = [] := by
  rw [errorsFrom_add, h, List.map_nil]

end Piece

/-! ## Tokens of a source -/

theorem mem_tokensFrom {line : Nat} {ps : List Piece} {t : Token}
    (h : t ∈ Piece.tokensFrom line ps) :
    ∃ p ∈ ps, p.kind? = some t.kind ∧ t.lexeme = String.ofList p.text := by
  rw [Piece.tokensFrom, List.mem_filterMap] at h
  obtain ⟨⟨l, p⟩, hmem, htoken⟩ := h
  obtain ⟨kind, hkind, rfl⟩ := Option.map_eq_some_iff.mp htoken
  exact ⟨p, Piece.mem_of_mem_numbered hmem, hkind, rfl⟩

theorem tokenize_tokens (s : String) : (tokenize s).tokens =
    Piece.tokensFrom 1 (Piece.split s.toList) ++ [⟨.ending, "", 1 + s.toList.count '\n'⟩] := by
  rw [← Piece.linesOf_split]
  rfl

theorem tokenize_ended (s : String) : ∃ t ∈ (tokenize s).tokens, t.kind = .ending := by
  rw [tokenize_tokens]
  exact ⟨_, List.mem_append_right _ (List.mem_singleton.mpr rfl), rfl⟩

theorem tokenize_errors (s : String) :
    (tokenize s).errors = Piece.errorsFrom 1 (Piece.split s.toList) := rfl

theorem tokensFrom_unended {line : Nat} {ps : List Piece} :
    ∀ t ∈ Piece.tokensFrom line ps, t.kind ≠ .ending := by
  intro t ht hend
  obtain ⟨p, -, hkind, -⟩ := mem_tokensFrom ht
  rw [hend, Piece.kind?] at hkind
  split at hkind
  · split at hkind <;> cases hkind
  all_goals cases hkind

theorem tokenize_inline {s : String} : ∀ t ∈ (tokenize s).tokens, '\n' ∉ t.lexeme.toList := by
  intro t ht
  rw [tokenize_tokens, List.mem_append, List.mem_singleton] at ht
  rcases ht with ht | rfl
  · obtain ⟨p, hp, hkind, hlexeme⟩ := mem_tokensFrom ht
    rcases Piece.inline_of_mem_splitFrom hp with rfl | ⟨-, hinline⟩
    · cases hkind
    · rw [hlexeme, String.toList_ofList]
      exact hinline
  · simp

/-! ## Sources with a newline between them -/

theorem newline_tokensFrom (line : Nat) (ps : List Piece) :
    Piece.tokensFrom line (⟨.newline, ['\n']⟩ :: ps) = Piece.tokensFrom (line + 1) ps := rfl

theorem newline_errorsFrom (line : Nat) (ps : List Piece) :
    Piece.errorsFrom line (⟨.newline, ['\n']⟩ :: ps) = Piece.errorsFrom (line + 1) ps := rfl

theorem filter_tokenize (s : String) :
    (tokenize s).tokens.filter (fun t => !t.isEnding) =
      Piece.tokensFrom 1 (Piece.split s.toList) := by
  have hunended : ∀ t ∈ Piece.tokensFrom 1 (Piece.split s.toList), (!t.isEnding) = true := by
    intro t ht
    have hkind := tokensFrom_unended t ht
    unfold Token.isEnding
    split
    · exact absurd ‹_› hkind
    · rfl
  rw [tokenize_tokens, List.filter_append, List.filter_eq_self.mpr hunended]
  simp [Token.isEnding]

/-- **Sources are scanned line by line.** Of two sources with a newline between
them the words are those of the first and then those of the second, as many
lines further down as the first has, and so are the errors, whatever the first
ends with and the second begins with. -/
theorem tokenize_line_by_line (a b : String) :
    (tokenize (a ++ "\n" ++ b)).tokens = (tokenize a).tokens.filter (fun t => !t.isEnding) ++
        (tokenize b).tokens.map (Token.below (a.toList.count '\n' + 1)) ∧
      (tokenize (a ++ "\n" ++ b)).errors =
        (tokenize a).errors ++
          (tokenize b).errors.map (SyntaxError.below (a.toList.count '\n' + 1)) := by
  have hlist : (a ++ "\n" ++ b).toList = a.toList ++ '\n' :: b.toList := by simp
  have hlines : 1 + a.toList.count '\n' + 1 = 1 + (a.toList.count '\n' + 1) := Nat.add_assoc _ _ _
  constructor
  · have hcount : 1 + (a ++ "\n" ++ b).toList.count '\n' = 1 + b.toList.count '\n' +
        (a.toList.count '\n' + 1) := by
      simp only [hlist, List.count_append, List.count_cons_self]
      omega
    rw [filter_tokenize, tokenize_tokens, tokenize_tokens, hcount, hlist,
      Piece.split_append_newline,
      Piece.tokensFrom_append, newline_tokensFrom, Piece.linesOf_split, hlines,
        Piece.tokensFrom_add, List.map_append,
      List.append_assoc]
    rfl
  · rw [tokenize_errors, tokenize_errors, tokenize_errors, hlist, Piece.split_append_newline,
      Piece.errorsFrom_append,
      newline_errorsFrom, Piece.linesOf_split, hlines, Piece.errorsFrom_add]

end Naskah
