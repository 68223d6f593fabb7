import Naskah.Proofs.Grammar.ExpressionSound
import Naskah.Proofs.Grammar.StatementComplete

/-!
# What the readers of statements have read

As for expressions. Reports inside a block count as errors of the reader of
the block, so its first error is the first that any declaration in it meets.
-/

namespace Naskah

namespace Grammar

open Naskah.Parser

section
variable {n b : Nat} {n' b' : Nat → Nat} {p : Parser Stmt} {p' : Nat → Parser Stmt}

/-! ## Blocks -/

abbrev Item : Phrases (Option Stmt) := fun c o => ∃ s, o = some s ∧ Declaration c s

theorem item_ne_nil (o : Option Stmt) : ¬ Item [] o := by
  rintro ⟨s, -, h⟩
  exact h.begins.ne_nil rfl

theorem declarations_of_row {c : List Token} {os : List (Option Stmt)} (h : Row Item c os) :
    Declarations c (os.filterMap id) := by
  induction h with
  | nil => exact .nil
  | cons h _ ih =>
    obtain ⟨s, rfl, h⟩ := h
    exact .cons h ih

theorem blockItem_reads (h : Reads Anything n n' p p' Declaration) :
    Reads Anything n n' (blockItem p) (fun i => blockItem (p' i)) (Optional Item) := by
  refine Reads.peek ⟨[], none, .none⟩ fun t _ => ?_
  by_cases ht : (t.isMark .rightBrace || t.isEnding) = true
  · simp only [if_pos ht]
    refine (Reads.pure none).mono ?_
    rintro _ _ ⟨rfl, rfl⟩
    exact .none
  · simp only [if_neg ht]
    refine (((h.only fun _ _ => trivial).recover).bind fun s => Reads.pure (some s)).mono ?_
    rintro _ _ ⟨c, _, o, rfl, hc, rfl, rfl⟩
    simpa using Optional.some hc

theorem blockItem_stops (p : Parser Stmt) : StopsAtEnd (blockItem p) := by
  intro ts ht
  rw [blockItem, peek_bind, if_pos (by simp [Token.isEnding, ht])]
  rfl

theorem block_reads (h : Reads Anything n n' p p' Declaration) (hb : n ≤ b)
    (hb' : ∀ i, n' i ≤ b' i) : Reads Anything n n' (block b p) (fun i => block (b' i) (p' i))
      (fun c body => ∃ d right, c = d ++ [right] ∧ Declarations d body ∧
        right.kind = .mark .rightBrace) := by
  have hitems :=
    Reads.many item_ne_nil (fun i => blockItem_stops (p' i)) b b' hb hb' (blockItem_reads h)
  refine (hitems.bind fun items => (Reads.mark .rightBrace .blockEnd).bind fun _ =>
    Reads.pure _).mono ?_
  rintro _ _ ⟨c, _, os, rfl, hc, _, _, right, rfl, ⟨rfl, hr⟩, rfl, rfl⟩
  exact ⟨c, right, by simp, declarations_of_row hc, hr⟩

theorem bracedBlock_reads (h : Reads Anything n n' p p' Declaration) (hb : n ≤ b)
    (hb' : ∀ i, n' i ≤ b' i) (x : Expectation) :
    Reads Anything n n' (bracedBlock b p x) (fun i => bracedBlock (b' i) (p' i) x) Block := by
  refine ((Reads.mark .leftBrace x).bind fun _ => block_reads h hb hb').mono ?_
  rintro _ _ ⟨_, _, left, rfl, ⟨rfl, hl⟩, c, right, rfl, hc, hr⟩
  exact .mk hl hc hr

/-! ## Statements behind their keywords -/

theorem function_reads (h : Reads Anything n n' p p' Declaration) (hb : n ≤ b)
    (hb' : ∀ i, n' i ≤ b' i) {keyword : Token} (hk : keyword.kind = .keyword .fungsi) :
    Reads Anything n n' (function b p) (fun i => function (b' i) (p' i))
      (fun c s => Declaration (keyword :: c) s) := by
  refine ((Reads.name .functionName).bind fun f =>
    (Reads.mark .leftParen .parametersStart).bind fun _ =>
      (commaList_reads (Reads.name .parameterName) hb hb' .parametersEnd).bind fun params =>
        (bracedBlock_reads h hb hb' .bodyStart).bind fun body =>
          Reads.pure (Stmt.function f params.1 body)).mono ?_
  rintro _ _ ⟨_, _, f, rfl, ⟨rfl, hf⟩, _, _, left, rfl, ⟨rfl, hl⟩, _, _, params, rfl,
    ⟨c, rfl, hr, hc⟩, d, _, body, rfl, hd, rfl, rfl⟩
  have hc : Listed Name c params.1 := hc.imp (by rintro _ t ⟨rfl, ht⟩; exact ⟨ht⟩)
  simpa using Declaration.function hk hf hl hc hr hd

theorem declare_reads {keyword : Token} (hk : keyword.kind = .keyword .misal) (hb : n ≤ b)
    (hb' : ∀ i, n' i ≤ b' i) :
    Reads Anything n n' (declare b) (fun i => declare (b' i))
      (fun c s => Declaration (keyword :: c) s) := by
  have hclosed := (closedExpression_reads b b' .declarationEnd).within hb hb'
  refine ((Reads.name .variableName).bind fun x => (Reads.mark .equals .initializer).bind fun _ =>
    hclosed.bind fun e => Reads.pure (Stmt.declare x e)).mono ?_
  rintro _ _ ⟨_, _, x, rfl, ⟨rfl, hx⟩, _, _, sign, rfl, ⟨rfl, hs⟩, c, _, e, rfl, hc, rfl, rfl⟩
  simpa using Declaration.declare hk hx hs hc

theorem branch_of_declaration {t : Token} {d : List Token} {s : Stmt} (ht : t.kind = .keyword .jika)
    (h : Declaration (t :: d) s) : Branch (t :: d) s := by
  generalize hc : t :: d = c at h
  cases h with
  | function hk | declare hk | assign hk => cases hc; rw [ht] at hk; cases hk
  | statement h =>
    cases h with
    | branch h => exact h
    | print hk | loop hk | giveBackNothing hk | giveBack hk => cases hc; rw [ht] at hk; cases hk
    | block h =>
      obtain ⟨u, d', rfl, hk⟩ := h.begins
      cases hc
      rw [ht] at hk
      cases hk
    | expression h =>
      obtain ⟨u, d', rfl, hk⟩ := h.begins
      cases hc
      simp [ht, BeginsExpression, BeginsPrimary] at hk

theorem exists_block : ∃ c ss, Block c ss :=
  ⟨_, _, @Block.mk ⟨.mark .leftBrace, "", 0⟩ [] [] ⟨.mark .rightBrace, "", 0⟩ rfl .nil rfl⟩

theorem exists_branch : ∃ c s, Branch c s := by
  obtain ⟨c, e, hc⟩ := exists_primary
  obtain ⟨d, ss, hd⟩ := exists_block
  exact ⟨_, _, @Branch.mk ⟨.keyword .jika, "", 0⟩ _ _ _ _ _ _ rfl hc.expression hd .missing⟩

theorem otherwise_reads (h : Reads Anything n n' p p' Declaration) (hb : n ≤ b)
    (hb' : ∀ i, n' i ≤ b' i) :
    Reads Anything n n' (otherwise b p) (fun i => otherwise (b' i) (p' i)) Otherwise := by
  refine Reads.peek ⟨[], [], .missing⟩ fun t _ => ?_
  by_cases ht : t.isKeyword .lain = true
  · simp only [if_pos ht]
    rw [Token.isKeyword_iff] at ht
    have hother : Reads Anything n n'
        (peek >>= fun u => if u.isKeyword .jika = true then p >>= fun s => pure [s]
          else bracedBlock b p .otherwiseStart)
        (fun i => peek >>= fun u => if u.isKeyword .jika = true then p' i >>= fun s => pure [s]
          else bracedBlock (b' i) (p' i) .otherwiseStart)
        (fun c ss => Otherwise (t :: c) ss) := by
      obtain ⟨c, ss, hc⟩ := exists_block
      refine Reads.peek ⟨c, ss, .block ht hc⟩ fun u _ => ?_
      by_cases hu : u.isKeyword .jika = true
      · simp only [if_pos hu]
        rw [Token.isKeyword_iff] at hu
        have hbranch :=
          (h.only fun _ _ => trivial).atFront exists_branch (fun _ hc => hc.begins.ne_nil rfl)
          fun d s => branch_of_declaration (t := u) hu
        refine (hbranch.bind fun s => Reads.pure [s]).mono ?_
        rintro _ _ ⟨c, _, s, rfl, hc, rfl, rfl⟩
        simpa using Otherwise.branch ht hc
      · simp only [if_neg hu]
        exact ((bracedBlock_reads h hb hb' .otherwiseStart).only fun _ _ => trivial).mono
          fun _ _ hc => .block ht hc
    refine (Reads.skip (by simp [ht])
      (hother.within (Nat.sub_le _ _) fun _ => Nat.sub_le _ _)).mono ?_
    rintro _ _ ⟨c, rfl, hc⟩
    exact hc
  · simp only [if_neg ht]
    refine (Reads.pure []).mono ?_
    rintro _ _ ⟨rfl, rfl⟩
    exact .missing

theorem branch_reads (h : Reads Anything n n' p p' Declaration) (hb : n ≤ b)
    (hb' : ∀ i, n' i ≤ b' i) {keyword : Token} (hk : keyword.kind = .keyword .jika) :
    Reads Anything n n' (branch b p) (fun i => branch (b' i) (p' i))
      (fun c s => Branch (keyword :: c) s) := by
  refine (((expressionWithin_reads b b').within hb hb').bind fun e =>
    (bracedBlock_reads h hb hb' .branchStart).bind
    fun body => (otherwise_reads h hb hb').bind fun rest =>
      Reads.pure (Stmt.branch e body rest)).mono ?_
  rintro _ _ ⟨c, _, e, rfl, hc, d, _, body, rfl, hd, o, _, rest, rfl, ho, rfl, rfl⟩
  simpa using Branch.mk hk hc hd ho

theorem loop_reads (h : Reads Anything n n' p p' Declaration) (hb : n ≤ b) (hb' : ∀ i, n' i ≤ b' i)
    {keyword : Token} (hk : keyword.kind = .keyword .selama) :
    Reads Anything n n' (loop b p) (fun i => loop (b' i) (p' i))
      (fun c s => Statement (keyword :: c) s) := by
  refine (((expressionWithin_reads b b').within hb hb').bind fun e =>
    (bracedBlock_reads h hb hb' .loopStart).bind fun body => Reads.pure (Stmt.loop e body)).mono ?_
  rintro _ _ ⟨c, _, e, rfl, hc, d, _, body, rfl, hd, rfl, rfl⟩
  simpa using Statement.loop hk hc hd

theorem giveBack_reads {keyword : Token} (hk : keyword.kind = .keyword .balikin) (hb : n ≤ b)
    (hb' : ∀ i, n' i ≤ b' i) :
    Reads Anything n n' (giveBack b keyword) (fun i => giveBack (b' i) keyword)
      (fun c s => Statement (keyword :: c) s) := by
  refine Reads.peek ⟨[⟨.mark .semicolon, "", 0⟩], _, .giveBackNothing hk rfl⟩ fun t _ => ?_
  by_cases ht : t.isMark .semicolon = true
  · simp only [if_pos ht]
    rw [Token.isMark_iff] at ht
    refine (Reads.skip (by simp [ht]) (Reads.pure (Stmt.giveBack keyword none))).mono ?_
    rintro _ _ ⟨_, rfl, rfl, rfl⟩
    exact .giveBackNothing hk ht
  · simp only [if_neg ht]
    refine ((((closedExpression_reads b b' .returnEnd).within hb hb').only fun _ _ => trivial).bind
      fun e => Reads.pure (Stmt.giveBack keyword (some e))).mono ?_
    rintro _ _ ⟨c, _, e, rfl, hc, rfl, rfl⟩
    simpa using Statement.giveBack hk hc

/-! ## Statements -/

theorem exists_closed : ∃ c e, Closed c e := by
  obtain ⟨c, e, hc⟩ := exists_primary
  exact ⟨_, _, @Closed.mk _ _ ⟨.mark .semicolon, "", 0⟩ hc.expression rfl⟩

theorem exists_statement : ∃ c s, Statement c s := by
  obtain ⟨c, e, hc⟩ := exists_closed
  exact ⟨c, _, .expression hc⟩

theorem plainStatement_reads (h : Reads Anything (n - 1) (fun i => n' i - 1) p p' Declaration) :
    Reads Anything n n' (plainStatement n p) (fun i => plainStatement (n' i) (p' i)) Statement := by
  have closed : ∀ x, Reads Anything (n - 1) (fun i => n' i - 1) (closedExpression n x)
      (fun i => closedExpression (n' i) x) Closed :=
    fun x => (closedExpression_reads n n' x).within (Nat.sub_le _ _) fun _ => Nat.sub_le _ _
  have hb : n - 1 ≤ n := Nat.sub_le _ _
  have hb' : ∀ i, n' i - 1 ≤ n' i := fun i => Nat.sub_le _ _
  refine Reads.peek exists_statement fun t _ => ?_
  split
  · rename_i hk
    refine (Reads.skip (by simp [hk])
      ((closed .printEnd).bind fun e => Reads.pure (Stmt.print t e))).mono ?_
    rintro _ _ ⟨_, rfl, c, _, e, rfl, hc, rfl, rfl⟩
    simpa using Statement.print hk hc
  · rename_i hk
    refine (Reads.skip (by simp [hk]) (branch_reads h hb hb' hk)).mono ?_
    rintro _ _ ⟨c, rfl, hc⟩
    exact .branch hc
  · rename_i hk
    refine (Reads.skip (by simp [hk]) (loop_reads h hb hb' hk)).mono ?_
    rintro _ _ ⟨c, rfl, hc⟩
    exact hc
  · rename_i hk
    refine (Reads.skip (by simp [hk]) (giveBack_reads hk hb hb')).mono ?_
    rintro _ _ ⟨c, rfl, hc⟩
    exact hc
  · rename_i hk
    refine (Reads.skip (by simp [hk])
      ((block_reads h hb hb').bind fun body => Reads.pure (Stmt.block body))).mono ?_
    rintro _ _ ⟨_, rfl, _, _, body, rfl, ⟨c, right, rfl, hc, hr⟩, rfl, rfl⟩
    simpa using Statement.block (.mk hk hc hr)
  · refine (((closedExpression_reads n n' .expressionEnd).only fun _ _ => trivial).bind
      fun e => Reads.pure (Stmt.expression e)).mono ?_
    rintro _ _ ⟨c, _, e, rfl, hc, rfl, rfl⟩
    simpa using Statement.expression hc

end

/-! ## The look at two tokens -/

section
variable {n : Nat} {n' : Nat → Nat} {p : Parser Stmt} {p' : Nat → Parser Stmt} {t : Token}

/-- No error is at a name in front, as the name may be the whole expression. -/
theorem assignmentOrPlain_stuck_at_name (ht : t.kind = .name)
    (h : ∀ r, front r = t → r.length ≤ n → (plainStatement n p r).errors ≠ []) {r : List Token}
    (hr : front r = t) (hl : r.length ≤ n) : (assignmentOrPlain n p r).errors ≠ [] := by
  let stop : Token := ⟨.mark .semicolon, "", 0⟩
  by_cases hn : 2 ≤ n
  · have hexpr : Closed [t, stop] (.name t) := .mk (Primary.name ht).expression rfl
    have hread : plainStatement n p [t, stop] = ⟨.ok (.expression (.name t)), [], []⟩ :=
      expressionStatement_read hexpr (r := []) hn p
    have hne := h [t, stop] rfl hn
    rw [hread] at hne
    exact absurd rfl hne
  · cases r with
    | nil => rw [← hr] at ht; cases ht
    | cons u r =>
      obtain rfl : u = t := hr
      obtain rfl : r = [] := List.eq_nil_of_length_eq_zero (by simp at hl; omega)
      rw [assignmentOrPlain_of_ne (by simp [front, Token.noMore])]
      exact h [u] rfl hl

/-- In front of a name the token behind it decides, and that token is read
with the name or is where reading stops. -/
theorem assignmentOrPlain_reads_name (ht : t.kind = .name)
    (h : Reads Anything n n' (plainStatement n p) (fun i => plainStatement (n' i) (p' i))
      Statement) :
    Reads (· = t) n n' (assignmentOrPlain n p)
      (fun i => assignmentOrPlain (n' i) (p' i)) Declaration := by
  have hassign : Reads Anything n n'
      (closedExpression n .assignmentEnd >>= fun e => pure (Stmt.assign t e))
      (fun i => closedExpression (n' i) .assignmentEnd >>= fun e => pure (Stmt.assign t e)) _ :=
    (closedExpression_reads n n' .assignmentEnd).bind fun e => Reads.pure _
  have split : ∀ ts, front ts = t →
      (∃ sign ts', ts = t :: sign :: ts' ∧ sign.kind = .mark .equals) ∨
        ∃ ts', ts = t :: ts' ∧ (front ts').kind ≠ .mark .equals := by
    intro ts hts
    cases ts with
    | nil => rw [← hts] at ht; cases ht
    | cons u ts =>
      obtain rfl : u = t := hts
      by_cases hs : (front ts).kind = .mark .equals
      · cases ts with
        | nil => cases hs
        | cons sign ts => exact .inl ⟨sign, ts, rfl, hs⟩
      · exact .inr ⟨ts, rfl, hs⟩
  obtain ⟨c₀, s₀, h₀⟩ := exists_statement
  refine ⟨⟨c₀, s₀, .statement h₀⟩, fun {ts s r} hT hn hp => ?_, fun {ts e es} hT hn hp => ?_⟩
  · rcases split ts hT with ⟨sign, ts, rfl, hs⟩ | ⟨ts, rfl, hs⟩
    · rw [assignmentOrPlain_eq_assign ht hs] at hp
      simp only [List.length_cons] at hn
      obtain ⟨c, rfl, ⟨c₁, _, e, rfl, hc, rfl, rfl⟩, hlocal⟩ := hassign.clean trivial (by omega) hp
      refine ⟨t :: sign :: c₁, by simp, .assign ht hs hc, fun i r' hr' hl => ?_⟩
      rw [List.cons_append, List.cons_append, assignmentOrPlain_eq_assign ht hs]
      simpa using hlocal i r' hr' (by simp at hl ⊢; omega)
    · rw [assignmentOrPlain_of_ne hs] at hp
      obtain ⟨c, hts, hc, hlocal⟩ := h.clean trivial hn hp
      cases c with
      | nil => exact absurd rfl hc.begins.ne_nil
      | cons v c =>
        obtain ⟨rfl, rfl⟩ := List.cons.inj hts
        refine ⟨t :: c, rfl, .statement hc, fun i r' hr' hl => ?_⟩
        rw [List.cons_append, assignmentOrPlain_of_ne (by rw [front_append_congr hr']; exact hs)]
        exact hlocal i r' hr' hl
  · rcases split ts hT with ⟨sign, ts, rfl, hs⟩ | ⟨ts, rfl, hs⟩
    · rw [assignmentOrPlain_eq_assign ht hs] at hp
      simp only [List.length_cons] at hn
      obtain ⟨c, r, x, rfl, he, ⟨d, s, c₁, _, e', hcd, hc, rfl, rfl⟩, hlocal⟩ :=
        hassign.stuck trivial (by omega) hp
      refine ⟨t :: sign :: c, r, x, by simp, he, ⟨d, .assign t e', ?_⟩, fun i r' hr' hl => ?_⟩
      · rw [List.cons_append, List.cons_append, hcd]
        simpa using Declaration.assign ht hs hc
      · rw [List.cons_append, List.cons_append, assignmentOrPlain_eq_assign ht hs]
        exact hlocal i r' hr' (by simp at hl ⊢; omega)
    · rw [assignmentOrPlain_of_ne hs] at hp
      obtain ⟨c, r, x, hts, he, ⟨d, s, hc⟩, hlocal⟩ := h.stuck trivial hn hp
      refine ⟨c, r, x, hts, he, ⟨d, s, .statement hc⟩, fun i r' hr' hl => ?_⟩
      cases c with
      | nil =>
        rw [List.nil_append] at hts
        subst hts
        exact assignmentOrPlain_stuck_at_name ht (hlocal i) hr' hl
      | cons v c =>
        obtain ⟨rfl, rfl⟩ := List.cons.inj hts
        rw [List.cons_append, assignmentOrPlain_of_ne (by rw [front_append_congr hr']; exact hs)]
        exact hlocal i r' hr' hl

theorem assignmentOrPlain_reads
    (h : Reads Anything n n' (plainStatement n p) (fun i => plainStatement (n' i) (p' i))
      Statement) :
    Reads (· = t) n n' (assignmentOrPlain n p)
      (fun i => assignmentOrPlain (n' i) (p' i)) Declaration := by
  by_cases ht : t.kind = .name
  · exact assignmentOrPlain_reads_name ht h
  · have hplain : ∀ {n p ts}, front ts = t → plainStatement n p ts = assignmentOrPlain n p ts := by
      intro n p ts hts
      refine (assignmentOrPlain_eq_plain ?_).symm
      rintro x ts' rfl hx
      rw [← hts] at ht
      exact absurd hx ht
    exact ((h.only fun _ _ => trivial).congr (fun ts hts => hplain hts) fun _ ts hts =>
      hplain hts).mono fun _ _ => Declaration.statement

theorem anyStatement_reads (h : Reads Anything (n - 1) (fun i => n' i - 1) p p' Declaration) :
    Reads Anything n n' (anyStatement n p) (fun i => anyStatement (n' i) (p' i)) Declaration := by
  have hb : n - 1 ≤ n := Nat.sub_le _ _
  have hb' : ∀ i, n' i - 1 ≤ n' i := fun i => Nat.sub_le _ _
  obtain ⟨c₀, s₀, h₀⟩ := exists_statement
  refine Reads.peek ⟨c₀, s₀, .statement h₀⟩ fun t _ => ?_
  split
  · rename_i hk
    refine (Reads.skip (by simp [hk]) (function_reads h hb hb' hk)).mono ?_
    rintro _ _ ⟨c, rfl, hc⟩
    exact hc
  · rename_i hk
    refine (Reads.skip (by simp [hk]) (declare_reads hk hb hb')).mono ?_
    rintro _ _ ⟨c, rfl, hc⟩
    exact hc
  · exact assignmentOrPlain_reads (plainStatement_reads h)

end

/-! ## Declarations and programs -/

theorem declarationWithin_reads : ∀ n n',
    Reads Anything n n' (declarationWithin n) (fun i => declarationWithin (n' i)) Declaration
  | 0, n' => by
    obtain ⟨c, s, hc⟩ := exists_statement
    exact reads_zero ⟨c, s, .statement hc⟩ (failsAtEnd_of_asks (declarationWithin_asksAtEnd 0))
      (fun _ => failsAtEnd_of_asks (declarationWithin_asksAtEnd _)) n'
  | n + 1, n' => by
    have ih := declarationWithin_reads n fun i => n' i - 1
    refine (anyStatement_reads (n := n + 1) ih).agree fun i ts hn => ?_
    cases hi : n' i with
    | succ m => rfl
    | zero =>
      obtain rfl : ts = [] := List.eq_nil_of_length_eq_zero (by omega)
      rfl

theorem programItem_reads {n : Nat} {n' : Nat → Nat} {p : Parser Stmt} {p' : Nat → Parser Stmt}
    (h : Reads Anything n n' p p' Declaration) :
    Reads Anything n n' (programItem p) (fun i => programItem (p' i)) (Optional Item) := by
  refine Reads.peek ⟨[], none, .none⟩ fun t _ => ?_
  by_cases ht : t.isEnding = true
  · simp only [if_pos ht]
    refine (Reads.pure none).mono ?_
    rintro _ _ ⟨rfl, rfl⟩
    exact .none
  · by_cases hr : t.isMark .rightBrace = true
    · simp only [if_neg ht, if_pos hr]
      exact Reads.report ⟨[], none, .none⟩ _ _ _
    · simp only [if_neg ht, if_neg hr]
      refine (((h.only fun _ _ => trivial).recover).bind fun s => Reads.pure (some s)).mono ?_
      rintro _ _ ⟨c, _, o, rfl, hc, rfl, rfl⟩
      simpa using Optional.some hc

theorem programItem_stops (p : Parser Stmt) : StopsAtEnd (programItem p) := by
  intro ts ht
  rw [programItem, peek_bind, if_pos (by simp [Token.isEnding, ht])]
  rfl

theorem programWithin_reads (n : Nat) (n' : Nat → Nat) :
    Reads Anything n n' (programWithin n) (fun i => programWithin (n' i)) Program := by
  have hitems := Reads.many item_ne_nil (fun _ => programItem_stops _) n n' (Nat.le_refl n)
    (fun i => Nat.le_refl (n' i)) (programItem_reads (declarationWithin_reads n n'))
  refine (hitems.bind fun items => Reads.pure _).mono ?_
  rintro _ _ ⟨c, _, os, rfl, hc, rfl, rfl⟩
  simpa using declarations_of_row hc

end Grammar

end Naskah
