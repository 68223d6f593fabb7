import Mathlib.Algebra.Order.Field.Rat
import Mathlib.Data.Char
import Mathlib.Data.List.TakeWhile
import Mathlib.Tactic.FieldSimp
import Mathlib.Tactic.Ring
import Naskah.Proofs.Token.Spelling

/-!
# The words of a source by their rules

What a stretch of text can be is said by rules, most of which match the fronts
of one another: `=` stands in `==`, `/` in a comment, a keyword in a longer
name, an open text in a closed one. The rule with the longest match takes its
stretch, a keyword before a name of the same text, and where no rule matches
one character is left over. So every source falls into stretches in one way,
and its tokens and errors are what these stretches are.
-/

namespace Naskah

/-! ## Rules -/

inductive Rule where
  | blank | newline | comment
  | keyword (word : Keyword)
  | name | number
  | mark (sign : Mark)
  | text | unclosedText
  deriving DecidableEq

inductive Rule.Matches : Rule → List Char → Prop
  | blank {cs} : cs ≠ [] → (∀ c ∈ cs, isBlank c = true) → Matches .blank cs
  | newline : Matches .newline ['\n']
  | comment {cs} : (∀ c ∈ cs, c ≠ '\n') → Matches .comment ('/' :: '/' :: cs)
  | keyword (word) : Matches (.keyword word) word.spelling.toList
  | name {c cs} : isWordStart c = true → (∀ d ∈ cs, isWordPart d = true) → Matches .name (c :: cs)
  | whole {cs} : cs ≠ [] → (∀ c ∈ cs, isDigit c = true) → Matches .number cs
  | fraction {cs ds} : cs ≠ [] → (∀ c ∈ cs, isDigit c = true) → ds ≠ [] →
      (∀ d ∈ ds, isDigit d = true) → Matches .number (cs ++ '.' :: ds)
  | mark (sign) : Matches (.mark sign) sign.spelling.toList
  | text {cs} : (∀ c ∈ cs, isQuotable c = true) → Matches .text ('"' :: (cs ++ ['"']))
  | unclosedText {cs} : (∀ c ∈ cs, isQuotable c = true) → Matches .unclosedText ('"' :: cs)

/-- A rule that takes what another matches as well: itself, or a keyword that is also a name. -/
def Rule.Precedes (r r' : Rule) : Prop := r' = r ∨ r' = .name ∧ ∃ word, r = .keyword word

/-- The rule that takes `text` where `rest` follows, if any matches there. -/
inductive Takes : Option Rule → List Char → List Char → Prop
  | longest {r : Rule} {text rest} : r.Matches text →
      (∀ (r' : Rule) text', r'.Matches text' → text' <+: text ++ rest →
        text'.length ≤ text.length) →
      (∀ r' : Rule, r'.Matches text → r.Precedes r') → Takes (some r) text rest
  | stray {c rest} : (∀ (r : Rule) text, r.Matches text → ¬ text <+: c :: rest) →
      Takes none [c] rest

/-- A stretch of a source, with the rule that takes it and all that stands before it. -/
structure Stretch where
  before : List Char
  rule : Option Rule
  text : List Char

inductive Munch : List Char → List Char → List Stretch → Prop
  | nil {before} : Munch before [] []
  | cons {before rule text rest stretches} : Takes rule text rest →
      Munch (before ++ text) rest stretches →
      Munch before (text ++ rest) (⟨before, rule, text⟩ :: stretches)

namespace Stretch

def line (s : Stretch) : Nat := 1 + s.before.count '\n'

def kind? (s : Stretch) : Option Kind :=
  match s.rule with
  | some (.keyword word) => some (.keyword word)
  | some .name => some .name
  | some .number => some (.number (numeralValue s.text))
  | some (.mark sign) => some (.mark sign)
  | some .text => some (.text (String.ofList s.text.tail.dropLast))
  | _ => none

def token? (s : Stretch) : Option Token :=
  s.kind?.map fun kind => ⟨kind, String.ofList s.text, s.line⟩

def error? (s : Stretch) : Option SyntaxError :=
  match s.rule, s.text with
  | some .unclosedText, _ => some (.unterminatedString s.line)
  | none, c :: _ => some (.unexpectedCharacter c s.line)
  | _, _ => none

end Stretch

/-! ## The value of a numeral -/

def digitValue (c : Char) : Nat := c.toNat - '0'.toNat

def wholeValue : List Char → ℚ
  | [] => 0
  | c :: cs => digitValue c * 10 ^ cs.length + wholeValue cs

def placesValue : List Char → ℚ
  | [] => 0
  | c :: cs => (digitValue c + placesValue cs) / 10

def decimalValue (text : List Char) : ℚ :=
  let whole := text.takeWhile (· ≠ '.')
  wholeValue whole + placesValue (text.drop (whole.length + 1))

/-! ## At most one way -/

theorem Rule.Matches.ne_nil {r : Rule} {text : List Char} (h : r.Matches text) : text ≠ [] := by
  cases h with
  | blank hne => exact hne
  | keyword word => cases word <;> simp [Keyword.spelling]
  | whole hne => exact hne
  | mark sign => cases sign <;> simp [Mark.spelling]
  | _ => simp

theorem Rule.Precedes.antisymm {r r' : Rule} (h : r.Precedes r') (h' : r'.Precedes r) : r = r' := by
  rcases h with rfl | ⟨rfl, word, rfl⟩
  · rfl
  · rcases h' with h' | ⟨h', -⟩ <;> cases h'

theorem Takes.ne_nil {r : Option Rule} {text rest : List Char} (h : Takes r text rest) :
    text ≠ [] := by
  cases h with
  | longest hr => exact hr.ne_nil
  | stray => simp

theorem Takes.unique {r r' : Option Rule} {text text' rest rest' : List Char}
    (h : Takes r text rest) (h' : Takes r' text' rest') (heq : text ++ rest = text' ++ rest') :
    r = r' ∧ text = text' ∧ rest = rest' := by
  cases h with
  | @longest r _ _ hr hlongest hties =>
    cases h' with
    | @longest r' _ _ hr' hlongest' hties' =>
      have hle := hlongest r' text' hr' ⟨rest', heq.symm⟩
      have hle' := hlongest' r text hr ⟨rest, heq⟩
      obtain ⟨rfl, rfl⟩ := List.append_inj heq (Nat.le_antisymm hle' hle)
      rw [(hties r' hr').antisymm (hties' r hr)]
      exact ⟨rfl, rfl, rfl⟩
    | stray hnone => exact absurd ⟨rest, heq⟩ (hnone r text hr)
  | stray hnone =>
    cases h' with
    | longest hr' => exact absurd ⟨rest', heq.symm⟩ (hnone _ text' hr')
    | stray =>
      cases heq
      exact ⟨rfl, rfl, rfl⟩

theorem Munch.unique {before text : List Char} {ps qs : List Stretch} (h : Munch before text ps)
    (h' : Munch before text qs) : ps = qs := by
  induction h generalizing qs with
  | nil =>
    generalize hnil : ([] : List Char) = text at h'
    cases h' with
    | nil => rfl
    | cons htakes => exact absurd (List.append_eq_nil_iff.mp hnil.symm).1 htakes.ne_nil
  | @cons before rule text rest ps htakes _ ih =>
    generalize hwhole : text ++ rest = whole at h'
    cases h' with
    | nil => exact absurd (List.append_eq_nil_iff.mp hwhole).1 htakes.ne_nil
    | cons htakes' h' =>
      obtain ⟨rfl, rfl, rfl⟩ := htakes.unique htakes' hwhole
      rw [ih h']

theorem Munch.flatMap_text {before text : List Char} {ps : List Stretch}
    (h : Munch before text ps) : ps.flatMap (·.text) = text := by
  induction h with
  | nil => rfl
  | cons _ _ ih => rw [List.flatMap_cons, ih]

/-! ## The piece at the front is ruled -/

theorem prefix_takeWhile {p : Char → Bool} {cs ds : List Char} (h : cs <+: ds)
    (hcs : ∀ c ∈ cs, p c = true) : cs <+: ds.takeWhile p := by
  obtain ⟨rest, rfl⟩ := h
  rw [List.takeWhile_append_of_pos hcs]
  exact List.prefix_append _ _

theorem takeWhile_stop {p : Char → Bool} {x : Char} {cs : List Char} (hcs : ∀ c ∈ cs, p c = true)
    (hx : p x = false) (ds : List Char) : (cs ++ x :: ds).takeWhile p = cs := by
  rw [takeWhile_append_stop hx, List.takeWhile_eq_self_iff.mpr hcs]

theorem Keyword.ofSpelling?_eq_some {word : String} {k : Keyword} :
    Keyword.ofSpelling? word = some k ↔ k.spelling = word := by
  constructor
  · intro h
    simpa using List.find?_some h
  · intro h
    subst h
    cases k <;> rfl

theorem Keyword.spelling_name (k : Keyword) : Rule.name.Matches k.spelling.toList := by
  cases k <;> exact .name rfl (List.all_eq_true.mp rfl)

def Rule.ofWord (text : List Char) : Rule :=
  match Keyword.ofSpelling? (String.ofList text) with
  | some word => .keyword word
  | none => .name

theorem Rule.ofWord_spelling (k : Keyword) : Rule.ofWord k.spelling.toList = .keyword k := by
  unfold Rule.ofWord
  rw [String.ofList_toList, Keyword.ofSpelling?_eq_some.mpr rfl]

theorem Rule.ofWord_precedes (text : List Char) : (Rule.ofWord text).Precedes .name := by
  unfold Rule.ofWord
  cases Keyword.ofSpelling? (String.ofList text) with
  | none => exact .inl rfl
  | some word => exact .inr ⟨rfl, word, rfl⟩

theorem Rule.ofWord_matches {text : List Char} (h : Rule.name.Matches text) :
    (Rule.ofWord text).Matches text := by
  unfold Rule.ofWord
  cases hword : Keyword.ofSpelling? (String.ofList text) with
  | none => exact h
  | some word =>
    have hmatches := Rule.Matches.keyword word
    rwa [Keyword.ofSpelling?_eq_some.mp hword, String.toList_ofList] at hmatches

theorem Mark.spelling_cases (m : Mark) :
    (∃ d, m.spelling.toList = [d] ∧ Mark.ofChar? d = some m) ∨
      ∃ d shorter, m.spelling.toList = [d, '='] ∧ Mark.ofChar? d = some shorter ∧
        shorter.withEquals? = some m := by
  cases m with
  | equalEqual => exact .inr ⟨_, _, rfl, rfl, rfl⟩
  | bangEqual => exact .inr ⟨_, _, rfl, rfl, rfl⟩
  | greaterEqual => exact .inr ⟨_, _, rfl, rfl, rfl⟩
  | lessEqual => exact .inr ⟨_, _, rfl, rfl, rfl⟩
  | _ => exact .inl ⟨_, rfl, rfl⟩

namespace Piece

def rule? (p : Piece) : Option Rule :=
  match p.shape with
  | .blank => some .blank
  | .newline => some .newline
  | .comment => some .comment
  | .word => some (.ofWord p.text)
  | .numeral => some .number
  | .mark sign => some (.mark sign)
  | .quoted => some .text
  | .unclosed => some .unclosedText
  | .stray => none

def Ruled (c : Char) (p : Piece) : Prop :=
  (∃ r, p.rule? = some r ∧ r.Matches p.text) ∨ p = ⟨.stray, [c]⟩

theorem fraction_cases (cs : List Char) :
    fraction cs = [] ∨ ∃ ds, ds ≠ [] ∧ (∀ d ∈ ds, isDigit d = true) ∧ fraction cs = '.' :: ds := by
  unfold fraction
  split
  · rename_i d ds
    by_cases hd : isDigit d = true
    · rw [if_pos hd]
      exact .inr ⟨d :: ds.takeWhile isDigit, List.cons_ne_nil _ _,
        List.forall_mem_cons.mpr ⟨hd, fun _ => List.mem_takeWhile_imp⟩, rfl⟩
    · exact .inl (if_neg hd)
  · exact .inl rfl

theorem numeral_ruled {c : Char} (hc : isDigit c = true) (cs : List Char) :
    Ruled c (numeral c cs) := by
  have hwhole : ∀ d ∈ c :: cs.takeWhile isDigit, isDigit d = true :=
    List.forall_mem_cons.mpr ⟨hc, fun _ => List.mem_takeWhile_imp⟩
  refine .inl ⟨.number, rfl, ?_⟩
  unfold numeral
  rcases fraction_cases (cs.drop (cs.takeWhile isDigit).length) with h | ⟨ds, hne, hds, h⟩
  · simp only [h, List.append_nil]
    exact .whole (List.cons_ne_nil _ _) hwhole
  · simp only [h]
    exact .fraction (List.cons_ne_nil _ _) hwhole hne hds

theorem quoted_ruled (cs : List Char) : Ruled '"' (quoted '"' cs) := by
  have hbody : ∀ d ∈ cs.takeWhile isQuotable, isQuotable d = true := fun _ => List.mem_takeWhile_imp
  unfold quoted
  simp only
  split
  · exact .inl ⟨.text, rfl, .text hbody⟩
  · exact .inl ⟨.unclosedText, rfl, .unclosedText hbody⟩

theorem mark_ruled (c : Char) (cs : List Char) : Ruled c (mark c cs) := by
  cases hc : Mark.ofChar? c with
  | none =>
    rw [mark, hc]
    exact .inr rfl
  | some m =>
    obtain ⟨m', hshape⟩ : ∃ m', (mark c cs).shape = .mark m' := by
      rw [mark, hc]
      simp only
      split <;> exact ⟨_, rfl⟩
    have htext := congrArg String.toList (mark_spelling hshape)
    rw [String.toList_ofList] at htext
    refine .inl ⟨.mark m', by rw [rule?, hshape], ?_⟩
    rw [htext]
    exact .mark m'

theorem first_ruled (c : Char) (cs : List Char) : Ruled c (first c cs) := by
  unfold first
  split
  · rename_i hc
    exact .inl ⟨.blank, rfl, .blank (List.cons_ne_nil _ _)
      (List.forall_mem_cons.mpr ⟨hc, fun _ => List.mem_takeWhile_imp⟩)⟩
  split
  · rename_i hc
    subst hc
    exact .inl ⟨.newline, rfl, .newline⟩
  split
  · rename_i hc
    obtain ⟨rfl, hhead⟩ : c = '/' ∧ cs.head? = some '/' := by simpa using hc
    obtain ⟨ds, rfl⟩ := List.head?_eq_some_iff.mp hhead
    exact .inl ⟨.comment, rfl, .comment fun d hd => by simpa using List.mem_takeWhile_imp hd⟩
  split
  · rename_i hc
    exact .inl ⟨_, rfl, Rule.ofWord_matches (.name hc fun _ => List.mem_takeWhile_imp)⟩
  split
  · rename_i hc
    exact numeral_ruled hc cs
  split
  · rename_i hc
    subst hc
    exact quoted_ruled cs
  · exact mark_ruled c cs

/-! ## The piece at the front is the longest -/

/-- The piece is at least as long as the match `text` of the rule `r`, and goes first where they are equal. -/
def Beats (p : Piece) (r : Rule) (text : List Char) : Prop :=
  ∃ r', p.rule? = some r' ∧ text <+: p.text ∧ (text = p.text → r'.Precedes r)

theorem first_of_class {p : Char → Bool} {c : Char} (hc : p c = true)
    (hp : [' ', '\t', '\r', '\x0c', '\n', '/'].any p = false) (cs : List Char) :
    first c cs =
      if isWordStart c then ⟨.word, c :: cs.takeWhile isWordPart⟩
      else if isDigit c then numeral c cs
      else if c = '"' then quoted c cs
      else mark c cs := by
  have hne : ∀ d ∈ [' ', '\t', '\r', '\x0c', '\n', '/'], c ≠ d := by
    intro d hd heq
    subst heq
    exact List.any_eq_false.mp hp c hd hc
  simp only [List.forall_mem_cons] at hne
  obtain ⟨hspace, htab, hreturn, hfeed, hnewline, hslash, -⟩ := hne
  simp [first, isBlank, hspace, htab, hreturn, hfeed, hnewline, hslash]

theorem first_word {c : Char} (hc : isWordStart c = true) (cs : List Char) :
    first c cs = ⟨.word, c :: cs.takeWhile isWordPart⟩ := by
  rw [first_of_class hc rfl, if_pos hc]

theorem isWordStart_of_isDigit {c : Char} (hc : isDigit c = true) : isWordStart c = false := by
  obtain ⟨-, hnine⟩ : '0' ≤ c ∧ c ≤ '9' := by simpa [isDigit] using hc
  have hbelow : ∀ d, '9' < d → c < d := fun d hd => lt_of_le_of_lt hnine hd
  have hlower := not_le.mpr (hbelow 'a' (by decide))
  have hupper := not_le.mpr (hbelow 'A' (by decide))
  simp [isWordStart, hlower, hupper, (hbelow '_' (by decide)).ne]

theorem first_numeral {c : Char} (hc : isDigit c = true) (cs : List Char) :
    first c cs = numeral c cs := by
  rw [first_of_class hc rfl, isWordStart_of_isDigit hc, if_pos hc]
  rfl

theorem first_mark {c : Char} {m : Mark} (hm : Mark.ofChar? c = some m) {cs : List Char}
    (hcomment : ¬ (c = '/' ∧ cs.head? = some '/')) : first c cs = mark c cs := by
  have hclass : isBlank c = false ∧ c ≠ '\n' ∧ isWordStart c = false ∧
      isDigit c = false ∧ c ≠ '"' := by
    unfold Mark.ofChar? at hm
    split at hm <;> cases hm <;> decide
  obtain ⟨hblank, hnewline, hword, hdigit, hquote⟩ := hclass
  simp [first, hblank, hnewline, hcomment, hword, hdigit, hquote]

/-! A word, a numeral, a text and a mark against each match that can stand in their place. -/

variable {c : Char} {cs : List Char}

theorem first_beats_name {text : List Char} (h : Rule.name.Matches text)
    (hfront : text <+: c :: cs) :
    (first c cs).rule? = some (.ofWord (first c cs).text) ∧ text <+: (first c cs).text := by
  cases h with
  | name hc hds =>
    obtain ⟨rfl, hmore⟩ := List.cons_prefix_cons.mp hfront
    rw [first_word hc]
    exact ⟨rfl, List.cons_prefix_cons.mpr ⟨rfl, prefix_takeWhile hmore hds⟩⟩

theorem first_beats_keyword (k : Keyword) (hfront : k.spelling.toList <+: c :: cs) :
    (first c cs).Beats (.keyword k) k.spelling.toList := by
  obtain ⟨hrule, htext⟩ := first_beats_name k.spelling_name hfront
  refine ⟨_, hrule, htext, fun heq => .inl ?_⟩
  rw [← heq, Rule.ofWord_spelling]

theorem first_beats_whole {text : List Char} (hne : text ≠ [])
    (htext : ∀ d ∈ text, isDigit d = true) (hfront : text <+: c :: cs) :
    (first c cs).Beats .number text := by
  obtain ⟨d, ds, rfl⟩ := List.exists_cons_of_ne_nil hne
  obtain ⟨rfl, hmore⟩ := List.cons_prefix_cons.mp hfront
  obtain ⟨hd, hds⟩ := List.forall_mem_cons.mp htext
  rw [first_numeral hd]
  have hwhole : d :: ds <+: d :: cs.takeWhile isDigit :=
    List.cons_prefix_cons.mpr ⟨rfl, prefix_takeWhile hmore hds⟩
  exact ⟨.number, rfl, hwhole.trans (List.prefix_append _ _), fun _ => .inl rfl⟩

theorem first_beats_fraction {ds es : List Char} (hne : ds ≠ []) (hds : ∀ d ∈ ds, isDigit d = true)
    (hne' : es ≠ []) (hes : ∀ e ∈ es, isDigit e = true) (hfront : ds ++ '.' :: es <+: c :: cs) :
    (first c cs).Beats .number (ds ++ '.' :: es) := by
  obtain ⟨d, ds, rfl⟩ := List.exists_cons_of_ne_nil hne
  obtain ⟨e, es, rfl⟩ := List.exists_cons_of_ne_nil hne'
  obtain ⟨rfl, rest, hrest⟩ := List.cons_prefix_cons.mp hfront
  obtain rfl : ds ++ '.' :: e :: (es ++ rest) = cs := by simpa using hrest
  obtain ⟨hd, hds⟩ := List.forall_mem_cons.mp hds
  obtain ⟨he, hes⟩ := List.forall_mem_cons.mp hes
  have hplaces : es <+: (es ++ rest).takeWhile isDigit :=
    prefix_takeWhile (List.prefix_append _ _) hes
  rw [first_numeral hd]
  refine ⟨.number, rfl, ?_, fun _ => .inl rfl⟩
  -- the whole part ends at the point
  simp only [numeral, takeWhile_stop hds (show isDigit '.' = false by rfl), List.drop_left,
    fraction, if_pos he]
  simpa using hplaces

theorem first_beats_text {ds : List Char} (hds : ∀ d ∈ ds, isQuotable d = true)
    (hfront : '"' :: (ds ++ ['"']) <+: c :: cs) :
    (first c cs).Beats .text ('"' :: (ds ++ ['"'])) := by
  obtain ⟨rfl, rest, hrest⟩ := List.cons_prefix_cons.mp hfront
  obtain rfl : ds ++ '"' :: rest = cs := by simpa using hrest
  have hquoted : first '"' (ds ++ '"' :: rest) = ⟨.quoted, '"' :: (ds ++ ['"'])⟩ := by
    show quoted '"' (ds ++ '"' :: rest) = _
    simp only [quoted, takeWhile_stop hds (show isQuotable '"' = false by rfl), List.drop_left,
      List.cons_append]
  rw [hquoted]
  exact ⟨.text, rfl, List.prefix_rfl, fun _ => .inl rfl⟩

theorem first_beats_unclosed {ds : List Char} (hds : ∀ d ∈ ds, isQuotable d = true)
    (hfront : '"' :: ds <+: c :: cs) : (first c cs).Beats .unclosedText ('"' :: ds) := by
  obtain ⟨rfl, hmore⟩ := List.cons_prefix_cons.mp hfront
  have hbody := prefix_takeWhile hmore hds
  show (quoted '"' cs).Beats .unclosedText ('"' :: ds)
  unfold quoted
  simp only
  split
  · refine ⟨.text, rfl, List.cons_prefix_cons.mpr ⟨rfl, hbody.trans (List.prefix_append _ _)⟩,
      fun heq => ?_⟩
    -- an open text does not hold the quote that closes this one
    have hquote : '"' ∈ ds := by
      rw [(List.cons.inj heq).2]
      simp
    cases hds '"' hquote
  · exact ⟨.unclosedText, rfl, List.cons_prefix_cons.mpr ⟨rfl, hbody⟩, fun _ => .inl rfl⟩

theorem first_beats_comment {ds : List Char} (hds : ∀ d ∈ ds, d ≠ '\n')
    (hfront : '/' :: '/' :: ds <+: c :: cs) : (first c cs).Beats .comment ('/' :: '/' :: ds) := by
  obtain ⟨rfl, hmore⟩ := List.cons_prefix_cons.mp hfront
  obtain ⟨es, rfl⟩ : ∃ es, cs = '/' :: es := by
    obtain ⟨rest, rfl⟩ := hmore
    exact ⟨ds ++ rest, rfl⟩
  have hbody : '/' :: ds <+: ('/' :: es).takeWhile (· ≠ '\n') :=
    prefix_takeWhile hmore (List.forall_mem_cons.mpr ⟨rfl, fun d hd => decide_eq_true (hds d hd)⟩)
  exact ⟨.comment, rfl, List.cons_prefix_cons.mpr ⟨rfl, hbody⟩, fun _ => .inl rfl⟩

theorem first_beats_short {m : Mark} (hm : Mark.ofChar? c = some m) :
    (first c cs).Beats (.mark m) [c] := by
  by_cases hcomment : c = '/' ∧ cs.head? = some '/'
  · obtain ⟨rfl, hhead⟩ := hcomment
    obtain ⟨ds, rfl⟩ := List.head?_eq_some_iff.mp hhead
    exact ⟨.comment, rfl, List.cons_prefix_cons.mpr ⟨rfl, List.nil_prefix⟩, fun heq => by cases heq⟩
  · rw [first_mark hm hcomment, mark, hm]
    simp only
    split
    · exact ⟨_, rfl, List.cons_prefix_cons.mpr ⟨rfl, List.nil_prefix⟩, fun heq => by cases heq⟩
    · exact ⟨_, rfl, List.prefix_rfl, fun _ => .inl rfl⟩

theorem first_beats_mark (m : Mark) (hfront : m.spelling.toList <+: c :: cs) :
    (first c cs).Beats (.mark m) m.spelling.toList := by
  rcases m.spelling_cases with ⟨d, hspelling, hm⟩ | ⟨d, shorter, hspelling, hshorter, hm⟩
  · rw [hspelling] at hfront ⊢
    obtain ⟨rfl, -⟩ := List.cons_prefix_cons.mp hfront
    exact first_beats_short hm
  · rw [hspelling] at hfront ⊢
    obtain ⟨rfl, rest, rfl⟩ := List.cons_prefix_cons.mp hfront
    have hmark : first d (['='] ++ rest) = ⟨.mark m, [d, '=']⟩ := by
      rw [first_mark hshorter (by simp), mark, hshorter]
      simp only [hm, List.cons_append]
    rw [hmark]
    exact ⟨_, rfl, List.prefix_rfl, fun _ => .inl rfl⟩

theorem first_beats {r : Rule} {text : List Char} (h : r.Matches text) (hfront : text <+: c :: cs) :
    (first c cs).Beats r text := by
  cases h with
  | blank hne hall =>
    obtain ⟨d, ds, rfl⟩ := List.exists_cons_of_ne_nil hne
    obtain ⟨rfl, hmore⟩ := List.cons_prefix_cons.mp hfront
    obtain ⟨hd, hds⟩ := List.forall_mem_cons.mp hall
    rw [first, if_pos hd]
    exact ⟨.blank, rfl, List.cons_prefix_cons.mpr ⟨rfl, prefix_takeWhile hmore hds⟩,
      fun _ => .inl rfl⟩
  | newline =>
    obtain ⟨rfl, -⟩ := List.cons_prefix_cons.mp hfront
    exact ⟨.newline, rfl, List.prefix_rfl, fun _ => .inl rfl⟩
  | comment hds => exact first_beats_comment hds hfront
  | keyword k => exact first_beats_keyword k hfront
  | name hd hds =>
    obtain ⟨hrule, htext⟩ := first_beats_name (.name hd hds) hfront
    exact ⟨_, hrule, htext, fun _ => Rule.ofWord_precedes _⟩
  | whole hne hall => exact first_beats_whole hne hall hfront
  | fraction hne hds hne' hes => exact first_beats_fraction hne hds hne' hes hfront
  | mark m => exact first_beats_mark m hfront
  | text hds => exact first_beats_text hds hfront
  | unclosedText hds => exact first_beats_unclosed hds hfront

theorem first_append_rest (c : Char) (cs : List Char) :
    (first c cs).text ++ cs.drop ((first c cs).text.length - 1) = c :: cs := by
  obtain ⟨more, htext, ⟨rest, rfl⟩, -⟩ := first_text c cs
  simp [htext]

theorem first_takes (c : Char) (cs : List Char) :
    Takes (first c cs).rule? (first c cs).text (cs.drop ((first c cs).text.length - 1)) := by
  rcases first_ruled c cs with ⟨r, hrule, hmatches⟩ | hstray
  · rw [hrule]
    refine .longest hmatches ?_ ?_
    · intro r' text' h' hfront
      rw [first_append_rest] at hfront
      obtain ⟨-, -, hlonger, -⟩ := first_beats h' hfront
      exact hlonger.length_le
    · intro r' h'
      obtain ⟨r₁, hr₁, -, hties⟩ := first_beats h' ⟨_, first_append_rest c cs⟩
      obtain rfl : r = r₁ := Option.some.inj (hrule.symm.trans hr₁)
      exact hties rfl
  · rw [hstray]
    refine .stray fun r text h hfront => ?_
    obtain ⟨r₁, hr₁, -⟩ := first_beats h (show text <+: c :: cs from hfront)
    rw [hstray] at hr₁
    cases hr₁

/-! ## The pieces of a text are its stretches -/

def stretch (before : List Char) (p : Piece) : Stretch := ⟨before, p.rule?, p.text⟩

def stretches (before : List Char) : List Piece → List Stretch
  | [] => []
  | p :: ps => p.stretch before :: stretches (before ++ p.text) ps

theorem splitFrom_drop (k : Nat) (cs : List Char) : splitFrom k cs = split (cs.drop k) := by
  induction cs generalizing k with
  | nil => cases k <;> rfl
  | cons c cs ih =>
    cases k with
    | zero => rfl
    | succ k => exact ih k

theorem munch_split (before text : List Char) :
    Munch before text (stretches before (split text)) := by
  -- each piece takes a character at least, so the rest is shorter
  induction hlength : text.length using Nat.strong_induction_on generalizing before text with
  | h n ih =>
    cases text with
    | nil => exact .nil
    | cons c cs =>
      have hshorter : (cs.drop ((first c cs).text.length - 1)).length < n := by
        simp only [List.length_drop, List.length_cons] at hlength ⊢
        omega
      have hrest := ih _ hshorter (before ++ (first c cs).text) _ rfl
      rw [← splitFrom_drop] at hrest
      have hmunch := Munch.cons (first_takes c cs) hrest
      rw [first_append_rest] at hmunch
      exact hmunch

theorem stretch_kind? (before : List Char) (p : Piece) : (p.stretch before).kind? = p.kind? := by
  obtain ⟨shape, text⟩ := p
  cases shape with
  | word =>
    simp only [stretch, rule?, Rule.ofWord, Stretch.kind?, kind?]
    cases Keyword.ofSpelling? (String.ofList text) <;> rfl
  | _ => rfl

theorem stretch_token? (before : List Char) (p : Piece) :
    (p.stretch before).token? = p.token? (1 + before.count '\n') := by
  rw [Stretch.token?, stretch_kind?]
  rfl

theorem stretch_error? (before : List Char) (p : Piece) :
    (p.stretch before).error? = p.error? (1 + before.count '\n') := by
  obtain ⟨shape, text⟩ := p
  cases shape with
  | word =>
    simp only [stretch, rule?, Rule.ofWord, Stretch.error?, error?]
    cases Keyword.ofSpelling? (String.ofList text) <;> rfl
  | stray => cases text <;> rfl
  | _ => rfl

theorem lines_eq_count {p : Piece} {cs : List Char} (h : p ∈ split cs) :
    p.lines = p.text.count '\n' := by
  rcases inline_of_mem_splitFrom h with rfl | ⟨hshape, hinline⟩
  · rfl
  · rw [lines, if_neg hshape, List.count_eq_zero.mpr hinline]

theorem filterMap_stretches {α : Type} {f : Stretch → Option α} {g : Nat × Piece → Option α}
    (hfg : ∀ before p, f (p.stretch before) = g (1 + before.count '\n', p)) (before : List Char)
    {ps : List Piece} (hlines : ∀ p ∈ ps, p.lines = p.text.count '\n') :
    (stretches before ps).filterMap f = (numbered (1 + before.count '\n') ps).filterMap g := by
  induction ps generalizing before with
  | nil => rfl
  | cons p ps ih =>
    obtain ⟨hp, hps⟩ := List.forall_mem_cons.mp hlines
    have htail := ih (before ++ p.text) hps
    rw [List.count_append, ← hp, ← Nat.add_assoc] at htail
    rw [stretches, numbered, List.filterMap_cons, List.filterMap_cons, hfg, htail]

end Piece

/-! ## The number of a numeral is its decimal value -/

theorem cast_foldl_digits (n : Nat) (cs : List Char) :
    ((cs.foldl (fun n c => 10 * n + (c.toNat - '0'.toNat)) n : Nat) : ℚ) = n * 10 ^ cs.length +
      wholeValue cs := by
  induction cs generalizing n with
  | nil => simp [wholeValue]
  | cons c cs ih =>
    rw [List.foldl_cons, ih, wholeValue, List.length_cons, digitValue]
    push_cast
    ring

theorem cast_ofDigits (cs : List Char) : (Decimal.ofDigits cs : ℚ) = wholeValue cs := by
  rw [Decimal.ofDigits, cast_foldl_digits]
  simp

theorem wholeValue_append (cs ds : List Char) :
    wholeValue (cs ++ ds) = wholeValue cs * 10 ^ ds.length + wholeValue ds := by
  induction cs with
  | nil => simp [wholeValue]
  | cons c cs ih =>
    rw [List.cons_append, wholeValue, wholeValue, ih, List.length_append, pow_add]
    ring

theorem placesValue_eq (cs : List Char) : placesValue cs = wholeValue cs / 10 ^ cs.length := by
  induction cs with
  | nil => simp [placesValue, wholeValue]
  | cons c cs ih =>
    rw [placesValue, wholeValue, ih, List.length_cons, pow_succ]
    field_simp

theorem ofDigits_div (whole places : List Char) :
    (Decimal.ofDigits (whole ++ places) : ℚ) / 10 ^ places.length = wholeValue whole +
      placesValue places := by
  rw [cast_ofDigits, wholeValue_append, placesValue_eq]
  field_simp

theorem takeWhile_isDigit_eq {text : List Char} (h : Rule.number.Matches text) :
    text.takeWhile isDigit = text.takeWhile (· ≠ '.') := by
  have hpoint : ∀ c, isDigit c = true → decide (c ≠ '.') = true := by
    intro c hc
    refine decide_eq_true fun heq => ?_
    subst heq
    cases hc
  cases h with
  | whole _ hcs =>
    rw [List.takeWhile_eq_self_iff.mpr hcs, List.takeWhile_eq_self_iff.mpr fun c hc =>
      hpoint c (hcs c hc)]
  | fraction _ hcs _ _ =>
    rw [takeWhile_stop hcs (by rfl), takeWhile_stop (fun c hc => hpoint c (hcs c hc)) (by rfl)]

theorem numeralValue_decimal {text : List Char} (h : Rule.number.Matches text) :
    ∃ n k : Nat, numeralValue text = Float.ofScientific n true k ∧
      (n : ℚ) / 10 ^ k = decimalValue text := by
  refine ⟨_, _, rfl, ?_⟩
  simp only [ofDigits_div, decimalValue, takeWhile_isDigit_eq h, List.drop_drop]

theorem Munch.rule_matches {before text : List Char} {ps : List Stretch}
    (h : Munch before text ps) : ∀ p ∈ ps, ∀ r, p.rule = some r → r.Matches p.text := by
  induction h with
  | nil => simp
  | cons htakes _ ih =>
    refine List.forall_mem_cons.mpr ⟨fun r hr => ?_, ih⟩
    cases htakes with
    | longest hmatches =>
      cases hr
      exact hmatches
    | stray => cases hr

theorem Munch.text_ne_nil {before text : List Char} {ps : List Stretch} (h : Munch before text ps) :
    ∀ p ∈ ps, p.text ≠ [] := by
  induction h with
  | nil => simp
  | cons htakes _ ih => exact List.forall_mem_cons.mpr ⟨htakes.ne_nil, ih⟩

/-- **A source is scanned by longest match.** It falls into stretches in one
way, none of them empty and all of them together the source. Its tokens are
the stretches that are words, each with its text and its line, and the ending
behind them; its errors are the texts left open and the characters left over.
The number of a numeral is read from its decimal value. -/
theorem tokenize_longest_match (source : String) :
    ∃ ps, (∀ qs, Munch [] source.toList qs ↔ qs = ps) ∧
      ps.flatMap (·.text) = source.toList ∧ (∀ p ∈ ps, p.text ≠ []) ∧
      (tokenize source).tokens = ps.filterMap Stretch.token? ++
        [⟨.ending, "", 1 + source.toList.count '\n'⟩] ∧
      (tokenize source).errors = ps.filterMap Stretch.error? ∧
      ∀ p ∈ ps, p.rule = some .number →
        ∃ n k : Nat, p.kind? = some (.number (Float.ofScientific n true k)) ∧
          (n : ℚ) / 10 ^ k = decimalValue p.text := by
  have hmunch := Piece.munch_split [] source.toList
  have hlines : ∀ p ∈ Piece.split source.toList, p.lines = p.text.count '\n' :=
    fun _ => Piece.lines_eq_count
  refine ⟨Piece.stretches [] (Piece.split source.toList), fun qs =>
    ⟨fun h => h.unique hmunch, fun h => h ▸ hmunch⟩,
    hmunch.flatMap_text, hmunch.text_ne_nil, ?_, ?_, ?_⟩
  · rw [tokenize_tokens,
      Piece.filterMap_stretches (g := fun x => x.2.token? x.1) Piece.stretch_token? [] hlines]
    rfl
  · rw [tokenize_errors,
      Piece.filterMap_stretches (g := fun x => x.2.error? x.1) Piece.stretch_error? [] hlines]
    rfl
  · intro p hp hrule
    obtain ⟨n, k, hvalue, hdecimal⟩ := numeralValue_decimal (hmunch.rule_matches p hp _ hrule)
    refine ⟨n, k, ?_, hdecimal⟩
    simp only [Stretch.kind?, hrule, hvalue]

end Naskah
