import Naskah.Proofs.Token.Munch

/-!
# Words with separators between them

A separator begins with a blank or a newline and holds besides these only
comments with the newlines that end them. In front of one, every word of a
source is scanned whole and as itself, and the separator is no part of any
word. So words that are printed with separators between them are scanned as
they were, on the lines where the separators put them.
-/

namespace Naskah

/-! ## Separators -/

def gaps : List Char := [' ', '\t', '\r', '\x0c', '\n']

/-- Gaps and comments, each comment with its newline. -/
inductive Filler : List Char → Prop
  | nil : Filler []
  | gap {c cs} : c ∈ gaps → Filler cs → Filler (c :: cs)
  | comment {body cs} : (∀ c ∈ body, c ≠ '\n') → Filler cs →
      Filler ('/' :: '/' :: (body ++ '\n' :: cs))

inductive Separator : List Char → Prop
  | mk {c cs} : c ∈ gaps → Filler cs → Separator (c :: cs)

/-- Separators, of which the last may be empty. -/
inductive Separators : List String → Prop
  | nil : Separators []
  | last : Separators [""]
  | cons {sep seps} : Separator sep.toList → Separators seps → Separators (sep :: seps)

def joined : List String → List String → String
  | [], _ => ""
  | text :: texts, [] => text ++ joined texts []
  | text :: texts, sep :: seps => text ++ (sep ++ joined texts seps)

def newlines : List String → Nat
  | [] => 0
  | sep :: seps => sep.toList.count '\n' + newlines seps

theorem mem_gaps {c : Char} : c ∈ gaps ↔ isBlank c = true ∨ c = '\n' := by
  simp [gaps, isBlank, or_assoc]

theorem Separator.filler {cs : List Char} : Separator cs → Filler cs
  | .mk hc h => .gap hc h

/-! ## Separators are no words -/

namespace Piece

theorem split_cons (c : Char) (cs : List Char) :
    split (c :: cs) = first c cs :: split (cs.drop ((first c cs).text.length - 1)) := by
  rw [split, splitFrom, splitFrom_drop]

def heard (line : Nat) (ps : List Piece) : List Token × List SyntaxError :=
  (tokensFrom line ps, errorsFrom line ps)

theorem heard_blank (line : Nat) (text : List Char) (ps : List Piece) :
    heard line (⟨.blank, text⟩ :: ps) = heard line ps :=
  rfl

theorem heard_newline (line : Nat) (ps : List Piece) :
    heard line (⟨.newline, ['\n']⟩ :: ps) = heard (line + 1) ps :=
  rfl

theorem heard_comment (line : Nat) (text : List Char) (ps : List Piece) :
    heard line (⟨.comment, text⟩ :: ps) = heard line ps :=
  rfl

theorem split_blank {c : Char} (hc : isBlank c = true) (cs : List Char) :
    split (c :: cs) = ⟨.blank, c :: cs.takeWhile isBlank⟩ ::
      split (cs.drop (cs.takeWhile isBlank).length) := by
  rw [split_cons, first, if_pos hc]
  rfl

/-- A blank more in front makes no difference, as it joins those behind it. -/
theorem heard_split_blank {c : Char} (hc : isBlank c = true) (cs : List Char) (line : Nat) :
    heard line (split (c :: cs)) = heard line (split cs) := by
  rw [split_blank hc, heard_blank]
  cases cs with
  | nil => rfl
  | cons d ds =>
    by_cases hd : isBlank d = true
    · rw [split_blank hd, heard_blank, List.takeWhile_cons_of_pos hd]
      rfl
    · rw [List.takeWhile_cons_of_neg hd]
      rfl

theorem split_comment {body : List Char} (hbody : ∀ c ∈ body, c ≠ '\n') :
    split ('/' :: '/' :: body) = [⟨.comment, '/' :: '/' :: body⟩] := by
  have hwhole : ('/' :: body).takeWhile (· ≠ '\n') = '/' :: body :=
    List.takeWhile_eq_self_iff.mpr
      (List.forall_mem_cons.mpr ⟨rfl, fun c hc => decide_eq_true (hbody c hc)⟩)
  have hfirst : first '/' ('/' :: body) = ⟨.comment, '/' :: ('/' :: body).takeWhile (· ≠ '\n')⟩ :=
    rfl
  rw [split_cons, hfirst, hwhole, List.length_cons, Nat.add_sub_cancel, List.drop_length]
  rfl

/-- Filler in front moves what follows down by its newlines and does nothing else. -/
theorem heard_filler {cs : List Char} (h : Filler cs) (rest : List Char) (line : Nat) :
    heard line (split (cs ++ rest)) = heard (line + cs.count '\n') (split rest) := by
  induction h generalizing line with
  | nil => rfl
  | @gap c cs hc _ ih =>
    rcases mem_gaps.mp hc with hblank | rfl
    · have hne : c ≠ '\n' := by
        rintro rfl
        cases hblank
      rw [List.cons_append, heard_split_blank hblank, ih, List.count_cons_of_ne hne]
    · rw [List.count_cons_self, Nat.add_comm (cs.count '\n'), ← Nat.add_assoc]
      exact ih (line + 1)
  | @comment body cs hbody _ ih =>
    have hcount : ('/' :: '/' :: (body ++ '\n' :: cs)).count '\n' = 1 + cs.count '\n' := by
      have hnone : body.count '\n' = 0 := List.count_eq_zero.mpr fun hmem => hbody _ hmem rfl
      simp [List.count_append, hnone, Nat.add_comm]
    have hlist : '/' :: '/' :: (body ++ '\n' :: cs) ++ rest = ('/' :: '/' :: body) ++ '\n' ::
        (cs ++ rest) := by simp
    rw [hcount, hlist, split_append_newline, split_comment hbody, List.singleton_append,
      heard_comment, heard_newline, ← Nat.add_assoc]
    exact ih (line + 1)

/-! ## Words in front of a gap -/

def AtGap (cs : List Char) : Prop := ∀ c ∈ cs.head?, c ∈ gaps

variable {c : Char} {cs rest : List Char}

theorem takeWhile_atGap {p : Char → Bool} (hp : gaps.any p = false) (hcs : ∀ c ∈ cs, p c = true)
    (hrest : AtGap rest) : (cs ++ rest).takeWhile p = cs := by
  cases rest with
  | nil => rw [List.append_nil, List.takeWhile_eq_self_iff.mpr hcs]
  | cons x ds =>
    have hx : p x = false := by
      rw [← Bool.not_eq_true]
      exact List.any_eq_false.mp hp x (hrest x rfl)
    exact takeWhile_stop hcs hx ds

theorem first_word_atGap (h : Rule.name.Matches (c :: cs)) (hrest : AtGap rest) :
    first c (cs ++ rest) = ⟨.word, c :: cs⟩ := by
  cases h with
  | name hc hcs => rw [first_word hc, takeWhile_atGap (by rfl) hcs hrest]

theorem fraction_atGap (hrest : AtGap rest) : fraction rest = [] := by
  cases rest with
  | nil => rfl
  | cons x ds =>
    have hx : x ≠ '.' := by
      rintro rfl
      exact absurd (hrest '.' rfl) (by decide)
    simp [fraction, hx]

theorem first_numeral_atGap (h : Rule.number.Matches (c :: cs)) (hrest : AtGap rest) :
    first c (cs ++ rest) = ⟨.numeral, c :: cs⟩ := by
  generalize htext : c :: cs = text at h
  cases h with
  | whole _ hall =>
    subst htext
    obtain ⟨hc, hcs⟩ := List.forall_mem_cons.mp hall
    rw [first_numeral hc, numeral]
    simp only [takeWhile_atGap (show gaps.any isDigit = false by rfl) hcs hrest, List.drop_left,
      fraction_atGap hrest, List.append_nil]
  | @fraction ds es hne hds hne' hes =>
    obtain ⟨d, ds, rfl⟩ := List.exists_cons_of_ne_nil hne
    obtain ⟨e, es, rfl⟩ := List.exists_cons_of_ne_nil hne'
    rw [List.cons_append] at htext
    obtain ⟨rfl, rfl⟩ := List.cons.inj htext
    obtain ⟨hc, hds⟩ := List.forall_mem_cons.mp hds
    obtain ⟨he, hes⟩ := List.forall_mem_cons.mp hes
    have hplaces := takeWhile_atGap (show gaps.any isDigit = false by rfl) hes hrest
    rw [first_numeral hc, numeral]
    -- the whole part ends at the point, the places end at the gap
    simp only [List.append_assoc, List.cons_append,
      takeWhile_stop hds (show isDigit '.' = false by rfl), List.drop_left,
      fraction, if_pos he, hplaces]

theorem first_mark_atGap {m : Mark} (h : m.spelling.toList = c :: cs) (hrest : AtGap rest) :
    first c (cs ++ rest) = ⟨.mark m, c :: cs⟩ := by
  have hhead : ∀ x, x ∉ gaps → rest.head? ≠ some x := fun x hx hhead => hx (hrest x hhead)
  rcases m.spelling_cases with ⟨d, hspelling, hm⟩ | ⟨d, shorter, hspelling, hshorter, hm⟩
  · obtain ⟨rfl, rfl⟩ := List.cons.inj (h.symm.trans hspelling)
    rw [List.nil_append, first_mark hm fun hcomment => hhead '/' (by decide) hcomment.2, mark, hm]
    simp only
    split
    · exact absurd rfl (hhead '=' (by decide))
    · rfl
  · obtain ⟨rfl, rfl⟩ := List.cons.inj (h.symm.trans hspelling)
    rw [first_mark hshorter (by simp), mark, hshorter]
    simp only [hm, List.cons_append]

theorem first_quoted (h : Rule.text.Matches (c :: cs)) (rest : List Char) :
    first c (cs ++ rest) = ⟨.quoted, c :: cs⟩ := by
  cases h with
  | @text ds hds =>
    show quoted '"' (ds ++ ['"'] ++ rest) = _
    rw [List.append_assoc, List.singleton_append]
    simp only [quoted, takeWhile_stop hds (show isQuotable '"' = false by rfl), List.drop_left,
      List.cons_append]

theorem name_of_ofWord {text : List Char} (h : (Rule.ofWord text).Matches text) :
    Rule.name.Matches text := by
  unfold Rule.ofWord at h
  cases hword : Keyword.ofSpelling? (String.ofList text) with
  | none =>
    rw [hword] at h
    exact h
  | some word =>
    rw [← String.toList_ofList (l := text), ← Keyword.ofSpelling?_eq_some.mp hword]
    exact word.spelling_name

theorem first_again {p : Piece} {kind : Kind} (hp : p.kind? = some kind) {r : Rule}
    (hrule : p.rule? = some r) (hmatches : r.Matches p.text) (htext : p.text = c :: cs)
    (hrest : AtGap rest) : first c (cs ++ rest) = p := by
  obtain ⟨shape, text⟩ := p
  subst htext
  cases shape with
  | word =>
    cases hrule
    exact first_word_atGap (name_of_ofWord hmatches) hrest
  | numeral =>
    cases hrule
    exact first_numeral_atGap hmatches hrest
  | mark sign =>
    cases hrule
    generalize hspelling : c :: cs = text at hmatches
    cases hmatches with
    | mark => exact hspelling ▸ first_mark_atGap hspelling.symm hrest
  | quoted =>
    cases hrule
    exact first_quoted hmatches rest
  | _ => cases hp

/-- A word is scanned whole and as itself wherever a gap follows it. -/
theorem split_again {p : Piece} {text : List Char} (hp : p ∈ split text) {kind : Kind}
    (hkind : p.kind? = some kind) (hrest : AtGap rest) :
    split (p.text ++ rest) = p :: split rest := by
  obtain ⟨c, ds, rfl⟩ := exists_first_of_mem_splitFrom hp
  obtain ⟨more, htext, -⟩ := first_text c ds
  rcases first_ruled c ds with ⟨r, hrule, hmatches⟩ | hstray
  · have hagain := first_again hkind hrule hmatches htext hrest
    rw [htext, List.cons_append, split_cons, hagain, htext, List.length_cons, Nat.add_sub_cancel,
      List.drop_left]
  · rw [hstray] at hkind
    cases hkind

theorem heard_word {p : Piece} {kind : Kind} (hp : p.kind? = some kind) (line : Nat)
    (ps : List Piece) :
    heard line (p :: ps) =
      (⟨kind, String.ofList p.text, line⟩ :: (heard line ps).1, (heard line ps).2) := by
  have htoken : p.token? line = some ⟨kind, String.ofList p.text, line⟩ := by
    rw [token?, hp, Option.map_some]
  have hquiet : p.error? line = none ∧ p.lines = 0 := by
    obtain ⟨shape, text⟩ := p
    cases shape <;> first | exact ⟨rfl, rfl⟩ | cases hp
  simp only [heard, tokensFrom, errorsFrom, numbered, List.filterMap_cons, htoken, hquiet.1,
    hquiet.2, Nat.add_zero]

end Piece

/-! ## Words and separators -/

structure Token.Stable (t : Token) : Prop where
  heard : ∀ rest line, Piece.AtGap rest →
    Piece.heard line (Piece.split (t.lexeme.toList ++ rest)) =
      ({ t with line := line } :: (Piece.heard line (Piece.split rest)).1,
        (Piece.heard line (Piece.split rest)).2)

theorem tokensFrom_stable {line : Nat} {text : List Char} :
    ∀ t ∈ Piece.tokensFrom line (Piece.split text), t.Stable := by
  intro t ht
  obtain ⟨p, hp, hkind, hlexeme⟩ := mem_tokensFrom ht
  refine ⟨fun rest line hrest => ?_⟩
  rw [hlexeme, String.toList_ofList, Piece.split_again hp hkind hrest,
    Piece.heard_word hkind, ← hlexeme]

theorem Separator.atGap {cs : List Char} (h : Separator cs) (rest : List Char) :
    Piece.AtGap (cs ++ rest) := by
  cases h with
  | mk hc _ =>
    intro d hd
    cases hd
    exact hc

theorem joined_cons (text sep : String) (texts seps : List String) :
    (joined (text :: texts) (sep :: seps)).toList = text.toList ++
      (sep.toList ++ (joined texts seps).toList) := by
  simp [joined]

/-- Words in front of the empty lexeme of an ending. -/
theorem heard_joined {ws : List Token} (hws : ∀ t ∈ ws, t.Stable) {seps : List String}
    (hseps : Separators seps) (hlength : seps.length = ws.length) (line : Nat) :
    Piece.heard line (Piece.split (joined (ws.map (·.lexeme) ++ [""]) seps).toList) =
      (ws.mapIdx fun i t => { t with line := line + newlines (seps.take i) }, []) := by
  induction hseps generalizing ws line with
  | nil =>
    obtain rfl : ws = [] := List.eq_nil_of_length_eq_zero hlength.symm
    rfl
  | last =>
    obtain ⟨t, rfl⟩ := List.length_eq_one_iff.mp hlength.symm
    have hstable := (hws t List.mem_cons_self).heard [] line (by simp [Piece.AtGap])
    simpa [joined, newlines, Piece.heard, Piece.split, Piece.splitFrom, Piece.tokensFrom,
      Piece.errorsFrom, Piece.numbered] using hstable
  | @cons sep seps hsep _ ih =>
    cases ws with
    | nil => cases hlength
    | cons t ws =>
      obtain ⟨ht, hws⟩ := List.forall_mem_cons.mp hws
      rw [List.map_cons, List.cons_append, joined_cons, ht.heard _ _ (hsep.atGap _),
        Piece.heard_filler hsep.filler, ih hws (Nat.succ.inj hlength)]
      simp [List.mapIdx_cons, newlines, Nat.add_assoc]

theorem count_joined {texts seps : List String} (htexts : ∀ text ∈ texts, '\n' ∉ text.toList)
    (hlength : seps.length ≤ texts.length) :
    (joined texts seps).toList.count '\n' = newlines seps := by
  induction texts generalizing seps with
  | nil =>
    obtain rfl : seps = [] := List.eq_nil_of_length_eq_zero (Nat.le_zero.mp hlength)
    rfl
  | cons text texts ih =>
    obtain ⟨htext, htexts⟩ := List.forall_mem_cons.mp htexts
    have hnone := List.count_eq_zero.mpr htext
    cases seps with
    | nil =>
      have hrest : (joined texts []).toList.count '\n' = newlines [] := ih htexts (Nat.zero_le _)
      rw [joined, String.toList_append, List.count_append, hnone, hrest, Nat.zero_add]
    | cons sep seps =>
      rw [joined_cons, List.count_append, List.count_append, hnone,
        ih htexts (Nat.le_of_succ_le_succ hlength), newlines, Nat.zero_add]

theorem tokenize_heard (s : String) :
    tokenize s =
      ⟨(Piece.heard 1 (Piece.split s.toList)).1 ++ [⟨.ending, "", 1 + s.toList.count '\n'⟩],
      (Piece.heard 1 (Piece.split s.toList)).2⟩ := by
  show Scan.mk (tokenize s).tokens (tokenize s).errors = _
  rw [tokenize_tokens, tokenize_errors]
  rfl

/-- **Printing tokens and scanning them again gives them back.** Printed with
any separators between them, the tokens of a source, its ending among them,
are scanned without errors as the same kinds and lexemes, each on the line
that the newlines before it make. The separator before the ending may be
empty. -/
theorem tokenize_joined {source : String} {seps : List String} (hseps : Separators seps)
    (hlength : seps.length + 1 = (tokenize source).tokens.length) :
    tokenize (joined ((tokenize source).tokens.map (·.lexeme)) seps) =
      ⟨(tokenize source).tokens.mapIdx fun i t =>
        { t with line := 1 + newlines (seps.take i) }, []⟩ := by
  have hinline : ∀ text ∈ (tokenize source).tokens.map (·.lexeme), '\n' ∉ text.toList :=
    List.forall_mem_map.mpr tokenize_inline
  have hcount := @count_joined _ seps hinline (by rw [List.length_map]; omega)
  rw [tokenize_tokens] at hlength hcount ⊢
  have hstable := @tokensFrom_stable 1 source.toList
  generalize Piece.tokensFrom 1 (Piece.split source.toList) = ws at hlength hcount hstable ⊢
  have hwords : seps.length = ws.length := by simpa using hlength
  have hheard := heard_joined hstable hseps hwords 1
  rw [List.map_append, List.map_singleton] at hcount ⊢
  rw [tokenize_heard, hheard, hcount, List.mapIdx_concat]
  simp [← hwords]

/-- The tokens of `f(1.5)/"x y"` on three lines, with a comment behind the slash and nothing behind the text. -/
theorem tokenize_joined_quotient :
    let source := "f(1.5)/\"x y\""
    let seps := ["\t", " ", "\n", "\r ", " // /\n", ""]
    let printed := "f\t( 1.5\n)\r / // /\n\"x y\""
    Separators seps ∧ seps.length + 1 = (tokenize source).tokens.length ∧
      joined ((tokenize source).tokens.map (·.lexeme)) seps = printed ∧
      (tokenize printed).errors = [] ∧
      (tokenize printed).tokens.map (·.line) = [1, 1, 1, 2, 2, 3, 3] := by
  intro source seps printed
  have hgap : ∀ c ∈ gaps, Separator [c] := fun c hc => .mk hc .nil
  have hcomment : Separator [' ', '/', '/', ' ', '/', '\n'] :=
    .mk (by decide) (@Filler.comment [' ', '/'] [] (by simp) .nil)
  have hseps : Separators seps :=
    .cons (hgap '\t' (by decide)) <| .cons (hgap ' ' (by decide)) <|
      .cons (hgap '\n' (by decide)) <|
      .cons (@Separator.mk '\r' [' '] (by decide) (.gap (by decide) .nil)) <| .cons hcomment .last
  have hlength : seps.length + 1 = (tokenize source).tokens.length := by decide +kernel
  have hjoined : joined ((tokenize source).tokens.map (·.lexeme)) seps = printed := by
    decide +kernel
  have h := tokenize_joined hseps hlength
  rw [hjoined] at h
  refine ⟨hseps, hlength, hjoined, ?_, ?_⟩
  · rw [h]
  · rw [h]
    decide +kernel

end Naskah
