import Mathlib.Data.List.Forall2
import Naskah.Proofs.Grammar.Exact
import Naskah.Proofs.Grammar.Segment

/-!
# Programs with malformed segments in them

Malformed segments may stand between declarations at the top level and in
blocks at any depth. The parser reads such a program as the one without them,
and reports each of them once, at one of its tokens.
-/

namespace Naskah

namespace Grammar

open Naskah.Parser

/-! ## Inserting segments -/

mutual
/-- `Strewn c d s ms`: between declarations of its blocks `c` holds the
segments `ms`, and without them it is the declaration `d` of `s`. -/
inductive Strewn : List Token → List Token → Stmt → List (List Token) → Prop
  | whole {c s} : Declaration c s → Strewn c c s []
  | function {keyword name left c params right d d' body ms} : keyword.kind = .keyword .fungsi →
      name.kind = .name → left.kind = .mark .leftParen → Listed Name c params →
      right.kind = .mark .rightParen → StrewnBlock d d' body ms →
      Strewn (keyword :: name :: left :: (c ++ right :: d))
        (keyword :: name :: left :: (c ++ right :: d')) (.function name params body) ms
  | block {c c' body ms} : StrewnBlock c c' body ms → Strewn c c' (.block body) ms
  | branch {c c' s ms} : StrewnBranch c c' s ms → Strewn c c' s ms
  | loop {keyword c e d d' body ms} : keyword.kind = .keyword .selama → Expression c e →
      StrewnBlock d d' body ms →
        Strewn (keyword :: (c ++ d)) (keyword :: (c ++ d')) (.loop e body) ms
inductive StrewnBranch : List Token → List Token → Stmt → List (List Token) → Prop
  | mk {keyword c e d d' body ms o o' rest ns} : keyword.kind = .keyword .jika → Expression c e →
      StrewnBlock d d' body ms → StrewnOtherwise o o' rest ns →
      StrewnBranch (keyword :: (c ++ (d ++ o))) (keyword :: (c ++ (d' ++ o')))
        (.branch e body rest) (ms ++ ns)
inductive StrewnOtherwise : List Token → List Token → List Stmt → List (List Token) → Prop
  | missing : StrewnOtherwise [] [] [] []
  | branch {keyword c c' s ms} : keyword.kind = .keyword .lain → StrewnBranch c c' s ms →
      StrewnOtherwise (keyword :: c) (keyword :: c') [s] ms
  | block {keyword c c' body ms} : keyword.kind = .keyword .lain → StrewnBlock c c' body ms →
      StrewnOtherwise (keyword :: c) (keyword :: c') body ms
inductive StrewnBlock : List Token → List Token → List Stmt → List (List Token) → Prop
  | mk {left c c' body ms right} : left.kind = .mark .leftBrace → StrewnProgram c c' body ms →
      right.kind = .mark .rightBrace →
        StrewnBlock (left :: (c ++ [right])) (left :: (c' ++ [right])) body ms
inductive StrewnProgram : List Token → List Token → List Stmt → List (List Token) → Prop
  | nil : StrewnProgram [] [] [] []
  | declaration {c c' s ms d d' ss ns} : Strewn c c' s ms → StrewnProgram d d' ss ns →
      StrewnProgram (c ++ d) (c' ++ d') (s :: ss) (ms ++ ns)
  | segment {m d d' ss ns} : Malformed m → StrewnProgram d d' ss ns →
      StrewnProgram (m ++ d) d' ss (m :: ns)
end

abbrev Blames (errors : List SyntaxError) (segments : List (List Token)) : Prop :=
  List.Forall₂ (fun e m => ∃ t ∈ m, ∃ x, e = .unexpectedToken t x) errors segments

/-! ## Without the segments -/

mutual
theorem Strewn.without {c c' : List Token} {s : Stmt} {ms : List (List Token)} :
    Strewn c c' s ms → Declaration c' s
  | .whole h => h
  | .function hk hf hl hp hr hb => .function hk hf hl hp hr hb.without
  | .block h => .statement (.block h.without)
  | .branch h => .statement (.branch h.without)
  | .loop hk he hb => .statement (.loop hk he hb.without)
theorem StrewnBranch.without {c c' : List Token} {s : Stmt} {ms : List (List Token)} :
    StrewnBranch c c' s ms → Branch c' s
  | .mk hk he hb ho => .mk hk he hb.without ho.without
theorem StrewnOtherwise.without {c c' : List Token} {ss : List Stmt} {ms : List (List Token)} :
    StrewnOtherwise c c' ss ms → Otherwise c' ss
  | .missing => .missing
  | .branch hk h => .branch hk h.without
  | .block hk h => .block hk h.without
theorem StrewnBlock.without {c c' : List Token} {ss : List Stmt} {ms : List (List Token)} :
    StrewnBlock c c' ss ms → Block c' ss
  | .mk hl h hr => .mk hl h.without hr
theorem StrewnProgram.without {c c' : List Token} {ss : List Stmt} {ms : List (List Token)} :
    StrewnProgram c c' ss ms → Program c' ss
  | .nil => .nil
  | .declaration h hs => .cons h.without hs.without
  | .segment _ hs => hs.without
end

/-! ## First words -/

def GoesOn (k : Kind) : Prop := k ≠ .keyword .lain ∧ k ≠ .mark .rightBrace ∧ k ≠ .ending

theorem Malformed.begins {m : List Token} (h : Malformed m) : Begins GoesOn m := by
  obtain @⟨m, stop, hs, hm, -, -⟩ := h
  cases m with
  | nil => exact ⟨stop, [], rfl, by simp [GoesOn, hs]⟩
  | cons t m =>
    have ht := hm t (by simp)
    exact ⟨t, m ++ [stop], rfl, ht.2.2.2.1, ht.2.2.1, ht.2.2.2.2⟩

theorem StrewnBlock.begins {c c' : List Token} {ss : List Stmt} {ms : List (List Token)} :
    StrewnBlock c c' ss ms → Begins (· = .mark .leftBrace) c
  | .mk hl _ _ => ⟨_, _, rfl, hl⟩

theorem StrewnBranch.begins {c c' : List Token} {s : Stmt} {ms : List (List Token)} :
    StrewnBranch c c' s ms → Begins (· = .keyword .jika) c
  | .mk hk _ _ _ => ⟨_, _, rfl, hk⟩

theorem Strewn.begins {c c' : List Token} {s : Stmt} {ms : List (List Token)} :
    Strewn c c' s ms → Begins GoesOn c
  | .whole h => h.begins.mono fun _ hk => hk.ne
  | .function hk _ _ _ _ _ => ⟨_, _, rfl, by simp [GoesOn, hk]⟩
  | .block h => h.begins.mono (by intro k hk; simp [GoesOn, hk])
  | .branch h => h.begins.mono (by intro k hk; simp [GoesOn, hk])
  | .loop hk _ _ => ⟨_, _, rfl, by simp [GoesOn, hk]⟩

theorem StrewnProgram.front_ne {c c' : List Token} {ss : List Stmt} {ms : List (List Token)}
    (h : StrewnProgram c c' ss ms) {r : List Token} (hr : (front r).kind ≠ .keyword .lain) :
    (front (c ++ r)).kind ≠ .keyword .lain := by
  cases h with
  | nil => exact hr
  | declaration h _ => exact ((h.begins.append _).front r).1
  | segment h _ => exact ((h.begins.append _).front r).1

/-! ## Items with reports -/

section
variable {α β : Type} {ts r r' : List Token} {es es' : List SyntaxError} {a : α}

theorem bind_of_reports {p : Parser α} {f : α → Parser β} {b : β} (hp : p ts = ⟨.ok a, es, r⟩)
    (hf : f a r = ⟨.ok b, es', r'⟩) : (p >>= f) ts = ⟨.ok b, es ++ es', r'⟩ := by
  simp [Bind.bind, Parser.bind, hp, hf]

theorem bind_of_reports_pure {p : Parser α} (hp : p ts = ⟨.ok a, es, r⟩) (g : α → β) :
    (p >>= fun a => pure (g a)) ts = ⟨.ok (g a), es, r⟩ := by
  simpa using bind_of_reports (f := fun a => pure (g a)) hp (pure_apply (g a) r)

theorem many_of_reports {item : Parser (Option α)} {as : List α} {b : Nat}
    (h : item ts = ⟨.ok (some a), es, r⟩) (hmore : many item b r = ⟨.ok as, es', r'⟩) :
    many item (b + 1) ts = ⟨.ok (a :: as), es ++ es', r'⟩ := by
  rw [many]
  exact bind_of_reports h (bind_of_reports_pure hmore _)

end

def ItemOf (p : Parser Stmt) (item : Parser (Option (Option Stmt))) : Prop :=
  ∀ ts, GoesOn (front ts).kind → item ts = (recover p >>= fun s => pure (some s)) ts

theorem blockItem_itemOf (p : Parser Stmt) : ItemOf p (blockItem p) := by
  intro ts ht
  rw [blockItem, peek_bind, if_neg]
  rw [Bool.or_eq_true, Token.isMark_iff, Token.isEnding_iff, not_or]
  exact ht.2

theorem programItem_itemOf (p : Parser Stmt) : ItemOf p (programItem p) := by
  intro ts ht
  rw [programItem, peek_bind, if_neg (by rw [Token.isEnding_iff]; exact ht.2.2),
    if_neg (by rw [Token.isMark_iff]; exact ht.2.1)]

theorem ItemOf.read {p : Parser Stmt} {item : Parser (Option (Option Stmt))} (hitem : ItemOf p item)
    {ts r : List Token} (ht : GoesOn (front ts).kind) {s : Stmt} {es : List SyntaxError}
    (h : p ts = ⟨.ok s, es, r⟩) :
    item ts = ⟨.ok (some (some s)), es, r⟩ := by
  rw [hitem ts ht]
  have hread : recover p ts = ⟨.ok (some s), es, r⟩ := by rw [recover, h]
  exact bind_of_reports_pure hread some

theorem ItemOf.recovered {p : Parser Stmt} {item : Parser (Option (Option Stmt))}
    (hitem : ItemOf p item) {ts r : List Token} (ht : GoesOn (front ts).kind)
    {es : List SyntaxError} (h : recover p ts = ⟨.ok none, es, r⟩) :
    item ts = ⟨.ok (some none), es, r⟩ := by
  rw [hitem ts ht]
  exact bind_of_reports_pure h some

theorem block_of_reports {p : Parser Stmt} {b : Nat} {ts r : List Token} {right : Token}
    {os : List (Option Stmt)} {es : List SyntaxError} (hr : right.kind = .mark .rightBrace)
    (h : many (blockItem p) b ts = ⟨.ok os, es, right :: r⟩) :
    block b p ts = ⟨.ok (os.filterMap id), es, r⟩ := by
  have hclose := bind_of_reports
    (f := fun os => mark .rightBrace .blockEnd >>= fun _ => pure (os.filterMap id)) h
    (mark_bind hr .blockEnd _ r)
  rwa [List.append_nil] at hclose

theorem bracedBlock_of_reports {p : Parser Stmt} {b : Nat} {left : Token} {ts r : List Token}
    {ss : List Stmt} {es : List SyntaxError} (hl : left.kind = .mark .leftBrace)
    (h : block b p ts = ⟨.ok ss, es, r⟩) (x : Expectation) :
    bracedBlock b p x (left :: ts) = ⟨.ok ss, es, r⟩ := by
  rw [bracedBlock, mark_bind hl, h]

/-! ## Reading -/

theorem declarationWithin_eq_plain {t : Token} (hf : t.kind ≠ .keyword .fungsi)
    (hm : t.kind ≠ .keyword .misal) (hx : t.kind ≠ .name) (n : Nat) (ts : List Token) :
    declarationWithin (n + 1) (t :: ts) = plainStatement (n + 1) (declarationWithin n)
      (t :: ts) := by
  rw [declarationWithin, anyStatement_eq_assignmentOrPlain hf hm]
  refine assignmentOrPlain_eq_plain ?_
  intro x r h hname
  cases h
  exact absurd hname hx

mutual
theorem Strewn.read {c c' : List Token} {s : Stmt} {ms : List (List Token)} : Strewn c c' s ms →
    ∀ (r : List Token) (n : Nat), (c ++ r).length ≤ n + 1 → (front r).kind ≠ .keyword .lain →
    ∃ es, Blames es ms ∧ declarationWithin (n + 1) (c ++ r) = ⟨.ok s, es, r⟩
  | .whole h => fun r n hn hr => ⟨[], .nil, h.read r (n + 1) hn hr⟩
  | .function (c := c) (d := d) hk hf hl hp hr hb => by
    intro r n hn _
    simp only [List.cons_append, List.append_assoc, List.length_cons, List.length_append] at hn ⊢
    have hparams := commaList_read hr (r := d ++ r) (name_readable hp (n + 1) .parameterName)
      (by simp; omega) (Nat.le_refl _) .parametersEnd
    obtain ⟨left, d, rfl, hleft, es, hes, hbody⟩ := hb.read r n (n + 1) (by simp; omega) (by omega)
    refine ⟨es, hes, ?_⟩
    rw [declarationWithin, anyStatement, peek_bind, front, hk]
    simp only
    rw [skip_bind (by simp [hk]), function, name_bind hf, mark_bind hl, bind_of_ok hparams]
    simp only
    exact bind_of_reports_pure (bracedBlock_of_reports hleft hbody .bodyStart) _
  | .block h => by
    intro r n hn _
    obtain ⟨left, d, rfl, hl, es, hes, hbody⟩ := h.read r n (n + 1) hn (by omega)
    refine ⟨es, hes, ?_⟩
    rw [List.cons_append, declarationWithin_eq_plain (by simp [hl]) (by simp [hl]) (by simp [hl]),
      plainStatement, peek_bind, front, hl]
    simp only
    rw [skip_bind (by simp [hl])]
    exact bind_of_reports_pure hbody _
  | .branch h => h.read
  | .loop (c := c) (d := d) hk he hb => by
    intro r n hn _
    simp only [List.cons_append, List.append_assoc, List.length_cons, List.length_append] at hn ⊢
    obtain ⟨left, d, rfl, hl, es, hes, hbody⟩ := hb.read r n (n + 1) (by simp; omega) (by omega)
    have hcond : expressionWithin (n + 1) (c ++ left :: (d ++ r)) = ⟨.ok _, [], left :: (d ++ r)⟩ :=
      expression_read he (by simp at hn ⊢; omega) (follows_of_kind hl (by decide))
    refine ⟨es, hes, ?_⟩
    rw [declarationWithin_eq_plain (by simp [hk]) (by simp [hk]) (by simp [hk]), plainStatement,
      peek_bind, front, hk]
    simp only
    rw [skip_bind (by simp [hk]), loop, List.cons_append, bind_of_ok hcond]
    exact bind_of_reports_pure (bracedBlock_of_reports hl hbody .loopStart) _
theorem StrewnBranch.read {c c' : List Token} {s : Stmt} {ms : List (List Token)} :
    StrewnBranch c c' s ms →
    ∀ (r : List Token) (n : Nat), (c ++ r).length ≤ n + 1 → (front r).kind ≠ .keyword .lain →
    ∃ es, Blames es ms ∧ declarationWithin (n + 1) (c ++ r) = ⟨.ok s, es, r⟩
  | .mk (c := c) (d := d) (o := o) hk he hb ho => by
    intro r n hn hr
    simp only [List.cons_append, List.append_assoc, List.length_cons, List.length_append] at hn ⊢
    obtain ⟨left, d, rfl, hl, es, hes, hbody⟩ :=
      hb.read (o ++ r) n (n + 1) (by simp; omega) (by omega)
    obtain ⟨es', hes', hrest⟩ := ho.read r n (n + 1) (by simp; omega) (by omega) hr
    have hcond : expressionWithin (n + 1) (c ++ left :: (d ++ (o ++ r))) =
        ⟨.ok _, [], left :: (d ++ (o ++ r))⟩ :=
      expression_read he (by simp at hn ⊢; omega) (follows_of_kind hl (by decide))
    refine ⟨es ++ es', List.rel_append hes hes', ?_⟩
    rw [declarationWithin_eq_plain (by simp [hk]) (by simp [hk]) (by simp [hk]), plainStatement,
      peek_bind, front, hk]
    simp only
    rw [skip_bind (by simp [hk]), branch, List.cons_append, bind_of_ok hcond]
    exact bind_of_reports (bracedBlock_of_reports hl hbody .branchStart)
      (bind_of_reports_pure hrest _)
theorem StrewnOtherwise.read {c c' : List Token} {ss : List Stmt} {ms : List (List Token)} :
    StrewnOtherwise c c' ss ms → ∀ (r : List Token) (n b : Nat), (c ++ r).length ≤ n + 1 → n ≤ b →
    (front r).kind ≠ .keyword .lain →
    ∃ es, Blames es ms ∧ otherwise b (declarationWithin n) (c ++ r) = ⟨.ok ss, es, r⟩
  | .missing => fun r n b hn hb hr => ⟨[], .nil, Otherwise.missing.read r n b hn hb hr⟩
  | .branch (c := c) hk h => by
    intro r n b hn hb hr
    simp only [List.cons_append, List.length_cons] at hn ⊢
    have hbegins := h.begins
    obtain ⟨n, rfl⟩ : ∃ n', n = n' + 1 := ⟨n - 1, by
      obtain ⟨t, d, rfl, -⟩ := hbegins; simp at hn; omega⟩
    obtain ⟨es, hes, hread⟩ := h.read r n (by omega) hr
    refine ⟨es, hes, ?_⟩
    rw [otherwise, peek_bind, front, if_pos (Token.isKeyword_iff.mpr hk),
      skip_bind (by simp [hk]), peek_bind, if_pos (Token.isKeyword_iff.mpr (hbegins.front r))]
    exact bind_of_reports_pure hread _
  | .block (c := c) hk h => by
    intro r n b hn hb hr
    simp only [List.cons_append, List.length_cons] at hn ⊢
    obtain ⟨left, d, rfl, hl, es, hes, hbody⟩ := h.read r n b (by omega) (by omega)
    refine ⟨es, hes, ?_⟩
    rw [otherwise, peek_bind, front, if_pos (Token.isKeyword_iff.mpr hk),
      skip_bind (by simp [hk]), peek_bind,
      List.cons_append, front, if_neg (by rw [Token.isKeyword_iff, hl]; simp)]
    exact bracedBlock_of_reports hl hbody .otherwiseStart
theorem StrewnBlock.read {c c' : List Token} {ss : List Stmt} {ms : List (List Token)} :
    StrewnBlock c c' ss ms → ∀ (r : List Token) (n b : Nat), (c ++ r).length ≤ n + 1 → n ≤ b →
    ∃ left d, c = left :: d ∧ left.kind = .mark .leftBrace ∧
      ∃ es, Blames es ms ∧ block b (declarationWithin n) (d ++ r) = ⟨.ok ss, es, r⟩
  | @StrewnBlock.mk _ c _ _ _ right hl h hr => by
    intro r n b hn hb
    simp only [List.cons_append, List.append_assoc, List.nil_append, List.length_cons,
      List.length_append] at hn
    have stop : blockItem (declarationWithin n) (right :: r) = ⟨.ok none, [], right :: r⟩ := by
      rw [blockItem, peek_bind, front, if_pos (by simp [Token.isMark, hr])]
      rfl
    obtain ⟨os, es, hos, hes, hitems⟩ := h.read (right :: r) n b _ (by simp; omega) (by omega)
      (by simp [front, hr]) (blockItem_itemOf _) stop
    refine ⟨_, _, rfl, hl, es, hes, ?_⟩
    rw [List.append_assoc, ← hos]
    exact block_of_reports hr hitems
/-- Declarations and segments as items of a block or of a program: a segment
gives an item with no statement. -/
theorem StrewnProgram.read {c c' : List Token} {ss : List Stmt} {ms : List (List Token)} :
    StrewnProgram c c' ss ms →
    ∀ (r : List Token) (n b : Nat) (item : Parser (Option (Option Stmt))), (c ++ r).length ≤ n →
    c.length ≤ b →
    (front r).kind ≠ .keyword .lain → ItemOf (declarationWithin n) item →
    item r = ⟨.ok none, [], r⟩ →
    ∃ os es, os.filterMap id = ss ∧ Blames es ms ∧ many item b (c ++ r) = ⟨.ok os, es, r⟩
  | .nil => fun r n b item _ _ _ _ stop => ⟨[], [], rfl, .nil, many_of_none stop b⟩
  | .declaration (c := c) (d := d) h hs => by
    intro r n b item hn hb hr hitem stop
    have hbegins := h.begins
    have hpos : 0 < c.length := List.length_pos_iff.mpr hbegins.ne_nil
    simp only [List.append_assoc, List.length_append] at hn hb ⊢
    obtain ⟨n, rfl⟩ : ∃ n', n = n' + 1 := ⟨n - 1, by omega⟩
    obtain ⟨b, rfl⟩ : ∃ b', b = b' + 1 := ⟨b - 1, by omega⟩
    obtain ⟨es, hes, hread⟩ := h.read (d ++ r) n (by simp; omega) (hs.front_ne hr)
    obtain ⟨os, es', hos, hes', hrest⟩ :=
      hs.read r (n + 1) b item (by simp; omega) (by omega) hr hitem stop
    refine ⟨some _ :: os, es ++ es', by rw [← hos]; rfl, List.rel_append hes hes', ?_⟩
    exact many_of_reports (hitem.read (hbegins.front (d ++ r)) hread) hrest
  | .segment (m := m) (d := d) h hs => by
    intro r n b item hn hb hr hitem stop
    have hbegins := h.begins
    have hpos : 0 < m.length := List.length_pos_iff.mpr hbegins.ne_nil
    simp only [List.append_assoc, List.length_append] at hn hb ⊢
    obtain ⟨b, rfl⟩ : ∃ b', b = b' + 1 := ⟨b - 1, by omega⟩
    obtain ⟨t, ht, x, hrecovered⟩ := h.recovered (d ++ r) (n := n) (by simp; omega)
    obtain ⟨os, es, hos, hes, hrest⟩ := hs.read r n b item (by simp; omega) (by omega) hr hitem stop
    refine ⟨none :: os,
      .unexpectedToken t x :: es, by rw [← hos]; rfl, .cons ⟨t, ht, x, rfl⟩ hes, ?_⟩
    exact many_of_reports (hitem.recovered (hbegins.front (d ++ r)) hrecovered) hrest
end

theorem not_declaration {c : List Token} (h : (parse (c ++ [.noMore])).errors.isEmpty = false) :
    ¬ ∃ s, Declaration c s := by
  intro ⟨s, hs⟩
  have hprogram : Program c [s] := by simpa using Declarations.cons hs .nil
  rw [parse_of_program hprogram rfl] at h
  cases h

/-- **Recovery reports every malformed segment once and keeps the rest.** A
program with malformed segments between declarations, at the top level and in
blocks at any depth, is read as the program without them, and the errors are
one for each segment, in order, at a token of the segment. -/
theorem recovery_keeps_program {ts us : List Token} {ss : List Stmt} {ms : List (List Token)}
    (h : StrewnProgram ts us ss ms) {ending : Token} (he : ending.kind = .ending) :
    parse (us ++ [ending]) = ⟨ss, []⟩ ∧ ∃ es, Blames es ms ∧ parse (ts ++ [ending]) = ⟨ss, es⟩ := by
  refine ⟨parse_of_program h.without he, ?_⟩
  have stop : ∀ n, programItem (declarationWithin n) [ending] = ⟨.ok none, [], [ending]⟩ := by
    intro n
    rw [programItem, peek_bind, front, if_pos (Token.isEnding_iff.mpr he)]
    rfl
  obtain ⟨os, es, hos, hes, hitems⟩ := h.read [ending] _ (ts ++ [ending]).length _ (Nat.le_refl _)
    (by simp) (by simp [front, he]) (programItem_itemOf _) (stop _)
  refine ⟨es, hes, ?_⟩
  have hprogram := bind_of_reports_pure hitems (fun os : List (Option Stmt) => os.filterMap id)
  rw [hos] at hprogram
  rw [parse, programWithin, hprogram]
  rfl

/-- `jika a { cetak (b; cetak a; } lain { ; } a + ;` holds three segments. -/
theorem recovery_keeps_branch :
    let word (k : Keyword) : Token := ⟨.keyword k, k.spelling, 1⟩
    let sign (m : Mark) : Token := ⟨.mark m, "", 1⟩
    let a : Token := ⟨.name, "a", 1⟩
    let b : Token := ⟨.name, "b", 1⟩
    let ms := [[word .cetak, sign .leftParen, b, sign .semicolon], [sign .semicolon],
      [a, sign .plus, sign .semicolon]]
    let ts := [word .jika, a, sign .leftBrace, word .cetak, sign .leftParen, b, sign .semicolon,
      word .cetak, a, sign .semicolon, sign .rightBrace, word .lain, sign .leftBrace,
      sign .semicolon, sign .rightBrace, a, sign .plus, sign .semicolon]
    let us := [word .jika, a, sign .leftBrace, word .cetak, a, sign .semicolon,
      sign .rightBrace, word .lain, sign .leftBrace, sign .rightBrace]
    let ss : List Stmt := [.branch (.name a) [.print (word .cetak) (.name a)] []]
    StrewnProgram ts us ss ms ∧ ∃ es, Blames es ms ∧ parse (ts ++ [.noMore]) = ⟨ss, es⟩ := by
  intro word sign a b ms ts us ss
  have hprint : Malformed [word .cetak, sign .leftParen, b, sign .semicolon] :=
    .mk (m := [word .cetak, sign .leftParen, b]) rfl (by simp [word, sign, b])
      (by simp [sign, b]) (not_declaration rfl)
  have hempty : Malformed [sign .semicolon] :=
    .mk (m := []) rfl (by simp) (by simp) (not_declaration rfl)
  have hsum : Malformed [a, sign .plus, sign .semicolon] :=
    .mk (m := [a, sign .plus]) rfl (by simp [sign, a])
      (by simp [sign]) (not_declaration rfl)
  have ha : Expression [a] (.name a) := (Primary.name rfl).expression
  have hkept : Declaration [word .cetak, a, sign .semicolon] (.print (word .cetak) (.name a)) :=
    .statement (.print rfl (.mk ha rfl))
  have hthen := @StrewnBlock.mk (sign .leftBrace) _ _ _ _ (sign .rightBrace) rfl
    (.segment hprint (.declaration (.whole hkept) .nil)) rfl
  have helse :=
    @StrewnBlock.mk (sign .leftBrace) _ _ _ _ (sign .rightBrace) rfl (.segment hempty .nil) rfl
  have hbranch := @StrewnBranch.mk (word .jika) _ _ _ _ _ _ _ _ _ _ rfl ha hthen
    (@StrewnOtherwise.block (word .lain) _ _ _ _ rfl helse)
  have h : StrewnProgram ts us ss ms := .declaration (.branch hbranch) (.segment hsum .nil)
  exact ⟨h, (recovery_keeps_program h rfl).2⟩

end Grammar

end Naskah
