import Naskah.Proofs.Session.CutOff
import Naskah.Proofs.Token.Spelling

/-!
# One line for each print

A quoted text ends at the first quote or newline, so that no literal has either
of them in it, and no operator brings one into a text. What is printed for a
number or a function has no newline in it as well. So the output has a line for
each print.
-/

namespace Naskah

open Eval

/-! ## Texts of values -/

def PlainText (s : String) : Prop := '\n' ∉ s.toList ∧ '"' ∉ s.toList

theorem PlainText.append {s t : String} (hs : PlainText s) (ht : PlainText t) :
    PlainText (s ++ t) := by
  rw [PlainText, String.toList_append, List.mem_append, List.mem_append, not_or, not_or]
  exact ⟨⟨hs.1, ht.1⟩, hs.2, ht.2⟩

theorem Decimal.inline_text (d : Decimal) : Inline d.text := by
  have hdigits := newline_not_mem_toDigits d.digits
  have hzeros : ∀ n, '\n' ∉ List.replicate n '0' := fun n hmem => by
    cases List.eq_of_mem_replicate hmem
  unfold Decimal.text
  split
  · exact inline_ofList (by simp [hdigits])
  · apply inline_ofList
    simp only [List.mem_append, List.mem_cons, not_or]
    have hpadded : ∀ n, '\n' ∉ List.replicate n '0' ++ Nat.toDigits 10 d.digits := by simp [hdigits]
    refine ⟨fun hmem => hpadded _ (List.mem_of_mem_take hmem), by decide, fun hmem => ?_⟩
    exact hpadded _ (List.mem_of_mem_drop hmem)

theorem inline_numberText (x : Float) : Inline (numberText x) := by
  have hsign : ∀ bits : Nat, Inline (if bits < Nat.pow 2 63 then "" else "-") := by
    intro bits
    split <;> exact inline_ofList (by decide)
  unfold numberText
  simp only
  split
  · exact inline_ofList (by decide)
  split
  · exact inline_append.mpr ⟨hsign _, inline_ofList (by decide)⟩
  split
  · exact inline_append.mpr ⟨hsign _, inline_ofList (by decide)⟩
  · exact inline_append.mpr ⟨hsign _, Decimal.inline_text _⟩

/-! ## Texts of tokens -/

namespace Piece

theorem quoted_payload {c : Char} {cs : List Char} (h : (quoted c cs).shape = .quoted) :
    PlainText (String.ofList (quoted c cs).text.tail.dropLast) := by
  unfold quoted at h ⊢
  simp only at h ⊢
  split
  · simp only [List.cons_append, List.tail_cons, List.dropLast_concat, PlainText,
      String.toList_ofList]
    exact ⟨not_mem_takeWhile (by rfl) cs, not_mem_takeWhile (by rfl) cs⟩
  · rename_i hopen
    split at h
    · rename_i rest hrest
      exact absurd hrest (hopen rest)
    · cases h

theorem first_payload {c : Char} {cs : List Char} (h : (first c cs).shape = .quoted) :
    PlainText (String.ofList (first c cs).text.tail.dropLast) := by
  have hmark : (mark c cs).shape ≠ .quoted := by
    unfold mark
    grind
  -- of the other pieces at the front none is quoted
  unfold first at h ⊢
  grind [quoted_payload, numeral]

theorem kind?_text {p : Piece} {s : String} (h : p.kind? = some (.text s)) :
    p.shape = .quoted ∧ s = String.ofList p.text.tail.dropLast := by
  unfold kind? at h
  split at h
  · split at h <;> cases h
  · cases h
  · cases h
  · cases h
    exact ⟨‹_›, rfl⟩
  · cases h

end Piece

theorem tokenize_payload {source s : String} {t : Token} (ht : t ∈ (tokenize source).tokens)
    (hs : t.kind = .text s) : PlainText s := by
  rw [tokenize_tokens, List.mem_append, List.mem_singleton] at ht
  rcases ht with ht | rfl
  · obtain ⟨p, hp, hkind, -⟩ := mem_tokensFrom ht
    rw [hs] at hkind
    obtain ⟨hshape, rfl⟩ := Piece.kind?_text hkind
    obtain ⟨c, cs, rfl⟩ := Piece.exists_first_of_mem_splitFrom hp
    exact Piece.first_payload hshape
  · cases hs

/-! ## Texts of trees -/

/-- Tokens of one kind, of which the first brings only plain texts into a tree. -/
structure PlainWord (t u : Token) : Prop where
  kind : t.kind = u.kind
  inline : Inline t.lexeme
  payload : ∀ s, t.kind = .text s → PlainText s

theorem plainWord_ofKinds : OfKinds PlainWord := ⟨fun h => congrArg Kind.bare h.kind⟩

def Expr.Plain (e : Expr) : Prop := ∃ f, e.Alike PlainWord f

def Stmt.Plain (s : Stmt) : Prop := ∃ s', s.Alike PlainWord s'

theorem exists_of_forall₂ {α β : Type} {A : α → β → Prop} {as : List α} {bs : List β}
    (h : List.Forall₂ A as bs) : ∀ a ∈ as, ∃ b, A a b := by
  induction h with
  | nil => simp
  | cons h _ ih => exact List.forall_mem_cons.mpr ⟨⟨_, h⟩, ih⟩

theorem programOf_plain (source : String) : ∀ s ∈ programOf source, s.Plain := by
  by_cases hclean : Clean source
  · have htokens : TokensAlike PlainWord (tokenize source).tokens (tokenize source).tokens :=
      ⟨List.forall₂_same.mpr fun t ht => ⟨rfl, tokenize_inline t ht, fun _ => tokenize_payload ht⟩,
        tokenize_ended source⟩
    rw [programOf_clean hclean]
    exact exists_of_forall₂ (parse_alike plainWord_ofKinds htokens).1
  · rw [programOf_not_clean hclean]
    simp

/-! ## Values that are met -/

def Value.Plain : Value → Prop
  | .text s => PlainText s
  | .function f => Inline f.name.lexeme ∧ ∀ s ∈ f.body, s.Plain
  | _ => True

theorem Value.Plain.inline_shown {v : Value} (h : v.Plain) : Inline v.shown := by
  cases v with
  | number x => exact inline_numberText x
  | text s => exact h.1
  | truth b => cases b <;> exact inline_ofList (by decide)
  | nil => exact inline_ofList (by decide)
  | function f =>
    simp only [Value.shown, inline_append]
    exact ⟨⟨inline_ofList (by decide), h.1⟩, inline_ofList (by decide)⟩

theorem PlainWord.literal {t u : Token} {v : Literal} (h : PlainWord t u)
    (hv : t.literal? = some v) : (Value.ofLiteral v).Plain := by
  unfold Token.literal? at hv
  split at hv <;> cases hv
  · trivial
  · exact h.payload _ ‹_›
  all_goals trivial

theorem UnaryOp.apply_plain {op : UnaryOp} {v r : Value} (h : op.apply v = .ok r) : r.Plain := by
  unfold UnaryOp.apply at h
  split at h <;> cases h <;> trivial

theorem BinaryOp.apply_plain {op : BinaryOp} {v w r : Value} (hv : v.Plain) (hw : w.Plain)
    (h : op.apply v w = .ok r) : r.Plain := by
  unfold BinaryOp.apply at h
  split at h <;> cases h
  · trivial
  · trivial
  · exact hv.append hw
  · cases op <;> trivial

structure Machine.Plain (m : Machine) : Prop where
  bound : m.store.All Value.Plain
  unlimited : m.out.limit = none

theorem Machine.Plain.define {m : Machine} (h : m.Plain) {v : Value} (hv : v.Plain)
    (scope : ScopeId) (name : String) :
    Machine.Plain { m with store := m.store.define scope name v } :=
  ⟨h.bound.define hv scope name, h.unlimited⟩

theorem printLine_plain (t : Token) (text : String) :
    Meets Machine.Plain Machine.Plain (fun _ => True) (fun _ => True) (printLine t text) := by
  intro m hm
  simp only [printLine]
  split <;> exact ⟨⟨hm.bound, hm.unlimited⟩, trivial⟩

def plainness : Conduct where
  Ok := fun _ => fun P e => Meets Machine.Plain Machine.Plain (fun _ => True) P e
  Holds := Value.Plain
  Reads := Expr.Plain
  Does _ := Stmt.Plain
  Closes _ := True

theorem plainness_laws : plainness.Laws where
  pure h := meets_pure h
  bind he hf := he.bind hf
  unfinished := meets_unfinished fun _ hm => hm
  child _ scope := fun _ hm => ⟨⟨hm.bound.child scope, hm.unlimited⟩, trivial⟩
  literal h := by
    obtain ⟨_, h⟩ := h
    cases h with
    | literal ht hv _ => exact ht.literal hv
  name _ _ := meets_lookup (fun _ _ hm hv => hm.bound.get? hv) trivial
  group h := by
    obtain ⟨_, h⟩ := h
    cases h with
    | group he => exact ⟨_, he⟩
  unary h := by
    obtain ⟨_, h⟩ := h
    cases h with
    | unary _ he =>
      exact ⟨⟨_, he⟩, fun _ _ => meets_settle (fun _ => UnaryOp.apply_plain) fun _ _ => trivial⟩
  binary h := by
    obtain ⟨_, h⟩ := h
    cases h with
    | binary _ he he' =>
      exact ⟨⟨_, he⟩, ⟨_, he'⟩, fun _ _ hv hw =>
        meets_settle (fun _ => BinaryOp.apply_plain hv hw) fun _ _ => trivial⟩
  logical h := by
    obtain ⟨_, h⟩ := h
    cases h with
    | logical _ he he' => exact ⟨⟨_, he⟩, _, he'⟩
  arguments h := by
    obtain ⟨_, h⟩ := h
    cases h with
    | call he hes _ => exact ⟨⟨_, he⟩, exists_of_forall₂ hes, trivial⟩
  expression h := by
    obtain ⟨_, h⟩ := h
    cases h with
    | expression he => exact ⟨_, he⟩
  print h := by
    obtain ⟨_, h⟩ := h
    cases h with
    | print _ he => exact ⟨⟨_, he⟩, fun v _ => printLine_plain _ v.shown⟩
  declare h := by
    obtain ⟨_, h⟩ := h
    cases h with
    | declare _ he => exact ⟨⟨_, he⟩, fun scope _ hv _ hm => ⟨hm.define hv scope _, trivial⟩⟩
  assign h := by
    obtain ⟨_, h⟩ := h
    cases h with
    | assign _ he => exact ⟨⟨_, he⟩, fun _ _ hv _ hm => ⟨hm.define hv _ _, trivial⟩⟩
  block h := by
    obtain ⟨_, h⟩ := h
    cases h with
    | block hb => exact exists_of_forall₂ hb
  branch h := by
    obtain ⟨_, h⟩ := h
    cases h with
    | branch he hb ho => exact ⟨⟨_, he⟩, exists_of_forall₂ hb, exists_of_forall₂ ho⟩
  loop h := by
    obtain ⟨_, h⟩ := h
    cases h with
    | loop he hb => exact ⟨⟨_, he⟩, exists_of_forall₂ hb⟩
  function h scope := by
    obtain ⟨_, h⟩ := h
    cases h with
    | function ht _ hb =>
      refine ⟨fun _ hm => ⟨⟨hm.bound, hm.unlimited⟩, ht.inline, exists_of_forall₂ hb⟩,
        fun _ hv _ hm => ?_⟩
      exact ⟨hm.define hv scope _, trivial⟩
  giveBack h := by
    obtain ⟨_, h⟩ := h
    cases h with
    | giveBack _ he =>
      refine ⟨meets_requireCall fun _ _ _ => trivial, fun e hsome => ?_⟩
      subst hsome
      cases he with
      | some he => exact ⟨_, he⟩
  giveNothing := trivial
  param _ _ _ _ scope _ hv := fun _ hm => ⟨hm.define hv scope _, trivial⟩
  body h _ := h.2
  duringCall h := h.duringCall (fun _ hm => ⟨hm.bound, hm.unlimited⟩)
    (fun _ hm => ⟨hm.bound, hm.unlimited⟩) (fun _ hm => hm) fun _ hf => hf
  notCallable _ := meets_fault trivial
  argumentCount _ _ _ := meets_fault trivial

/-! ## Runs -/

theorem plainness_shows :
    plainness.Telling fun d _ P e T => plainness.Ok d P e ∧ ∀ m, m.Plain → ∀ x ∈ T m,
    plainness.Shows Machine.Plain x := by
  apply Conduct.telling_shows plainness_laws
  · intro d α P e m a k he hm hend
    have hk := he m hm
    rw [hend] at hk
    exact hk
  · intro m hm
    exact ⟨hm.bound, hm.unlimited⟩

theorem Machine.Plain.during {m : Machine} (h : m.Plain) (fuel : Nat) (source : String) :
    (m.during fuel source).Plain := by
  have hends :=
    Stmt.execsWithin_ok (d := 0) plainness_laws (programOf_plain source) fuel Store.globalScope m h
  unfold Machine.during
  cases hend : Stmt.execsWithin fuel (programOf source) Store.globalScope m with
  | done => rw [hend] at hends; exact hends.1
  | failed => rw [hend] at hends; exact hends.1
  | unfinished => rw [hend] at hends; exact hends

theorem Machine.Plain.trace {m : Machine} (h : m.Plain) (fuel : Nat) (source : String) :
    ∀ x ∈ m.trace fuel source, plainness.Shows Machine.Plain x :=
  (Stmt.execsWithin_told (d := 0) plainness_laws plainness_shows
    (programOf_plain source) fuel Store.globalScope).2 m h

theorem Machine.Plain.run {m m' : Machine} (h : m.Plain) {fuel : Nat} {source : String}
    {status : Status} (hrun : m.run fuel source = some (status, m')) : m'.Plain := by
  refine ⟨?_, ?_⟩
  · rw [Machine.run_store hrun]
    exact (h.during fuel source).bound
  · rw [Machine.run_written h.unlimited hrun]

theorem Machine.during_written {m : Machine} (h : m.out.limit = none) (fuel : Nat)
    (source : String) :
    (m.during fuel source).out = ⟨m.out.written ++ printedBytes (m.trace fuel source), none⟩ :=
  (execsWithin_cuts fuel (programOf source) Store.globalScope).out m h

/-! ## Runs one after another -/

/-- What is done in runs of sources one after another, up to one that does not end. -/
def Machine.traceAll (fuel : Nat) : List String → Machine → List Moment
  | [], _ => []
  | source :: sources, m =>
    m.trace fuel source ++
      match m.run fuel source with
      | some (_, m') => m'.traceAll fuel sources
      | none => []

def Machine.afterAll (fuel : Nat) : List String → Machine → Machine
  | [], m => m
  | source :: sources, m =>
    match m.run fuel source with
    | some (_, m') => m'.afterAll fuel sources
    | none => m.during fuel source

variable {m : Machine} {fuel : Nat}

theorem Machine.Plain.traceAll (h : m.Plain) (sources : List String) :
    ∀ x ∈ m.traceAll fuel sources, plainness.Shows Machine.Plain x := by
  induction sources generalizing m with
  | nil => simp [Machine.traceAll]
  | cons source sources ih =>
    rw [Machine.traceAll, List.forall_mem_append]
    refine ⟨h.trace fuel source, ?_⟩
    cases hrun : m.run fuel source with
    | none => simp
    | some r => exact ih (h.run hrun)

theorem Machine.Plain.afterAll (h : m.Plain) (sources : List String) :
    (m.afterAll fuel sources).Plain := by
  induction sources generalizing m with
  | nil => exact h
  | cons source sources ih =>
    rw [Machine.afterAll]
    cases hrun : m.run fuel source with
    | none => exact h.during fuel source
    | some r => exact ih (h.run hrun)

theorem Machine.afterAll_written (h : m.out.limit = none) (sources : List String) :
    (m.afterAll fuel sources).out.written = m.out.written ++
      printedBytes (m.traceAll fuel sources) := by
  induction sources generalizing m with
  | nil => simp [Machine.afterAll, Machine.traceAll, printedBytes_nil]
  | cons source sources ih =>
    rw [Machine.afterAll, Machine.traceAll, printedBytes_append]
    cases hrun : m.run fuel source with
    | none => simp [Machine.during_written h, printedBytes_nil]
    | some r =>
      have hr := Machine.run_written h hrun
      simp only
      rw [ih (by rw [hr]), hr, ByteArray.append_assoc]

/-! ## Lines of the output -/

theorem count_newline_of_inline {s : String} (h : Inline s) :
    (s ++ "\n").toList.count '\n' = 1 := by
  rw [String.toList_append, List.count_append, List.count_eq_zero_of_not_mem h]
  rfl

theorem count_newline_join {lines : List String} (h : ∀ line ∈ lines, Inline line) :
    (String.join (lines.map (· ++ "\n"))).toList.count '\n' = lines.length := by
  induction lines with
  | nil => simp
  | cons line lines ih =>
    obtain ⟨hline, hlines⟩ := List.forall_mem_cons.mp h
    rw [List.map_cons, String.join_cons, String.toList_append, List.count_append,
      count_newline_of_inline hline, ih hlines, List.length_cons, Nat.add_comm]

theorem printed_inline {ms : List Moment} (h : ∀ x ∈ ms, plainness.Shows Machine.Plain x) :
    ∀ line ∈ printedLines ms, Inline line := by
  intro line hline
  obtain ⟨⟨act, k⟩, hx, hact⟩ := List.mem_filterMap.mp hline
  obtain ⟨-, _, hlets⟩ := h _ hx
  cases act with
  | print t v =>
    cases hact
    exact Value.Plain.inline_shown hlets
  | _ => cases hact

def Act.values : Act → List Value
  | .carryOut _ _ => []
  | .bind _ v => [v]
  | .print _ v => [v]
  | .call callee args => callee :: args
  | .giveBack v => [v]

def Value.Unbroken (v : Value) : Prop := ∀ s, v = .text s → PlainText s

theorem Value.Plain.unbroken {v : Value} (h : v.Plain) : v.Unbroken := by
  intro s hs
  subst hs
  exact h

theorem Conduct.Shows.unbroken {x : Moment} (h : plainness.Shows Machine.Plain x) :
    ∀ v ∈ x.act.values, v.Unbroken := by
  obtain ⟨-, d, hlets⟩ := h
  intro v hv
  apply Value.Plain.unbroken
  cases hact : x.act with
  | carryOut s scope =>
    rw [hact] at hv
    cases hv
  | call callee args =>
    rw [hact] at hv hlets
    exact List.forall_mem_cons.mpr hlets v hv
  | _ =>
    rw [hact] at hv hlets
    rw [List.mem_singleton.mp hv]
    exact hlets

def momentsOf (fuel : Nat) (sources : List String) : List Moment :=
  (Machine.fresh none none).traceAll fuel sources

def machineAfter (fuel : Nat) (sources : List String) : Machine :=
  (Machine.fresh none none).afterAll fuel sources

theorem plain_fresh : (Machine.fresh none none).Plain := ⟨Store.all_initial, rfl⟩

/-- In runs of sources one after another, at every moment: no text that is bound,
passed, given back or printed has a newline or a quote in it, and a print adds
its line to the output, whose only newline is at the end. So the output has as
many lines as there were prints. -/
theorem prints_one_line_each (fuel : Nat) (sources : List String) :
    (∀ x ∈ momentsOf fuel sources,
        x.machine.store.All Value.Unbroken ∧ ∀ v ∈ x.act.values, v.Unbroken) ∧
      (machineAfter fuel sources).store.All Value.Unbroken ∧
      (∀ t v k, ⟨.print t v, k⟩ ∈ momentsOf fuel sources →
        printLine t v.shown k =
          .done () { k with out := ⟨k.out.written ++ (v.shown ++ "\n").toUTF8, none⟩ } ∧
          '\n' ∉ v.shown.toList) ∧
      ∃ text : String, (machineAfter fuel sources).out.written = text.toUTF8 ∧
        text.toList.count '\n' = (printedLines (momentsOf fuel sources)).length := by
  have hshows : ∀ x ∈ momentsOf fuel sources, plainness.Shows Machine.Plain x :=
    plain_fresh.traceAll sources
  have hlast : (machineAfter fuel sources).Plain := plain_fresh.afterAll sources
  refine ⟨fun x hx => ⟨?_, (hshows x hx).unbroken⟩, ?_, fun t v k hx => ⟨?_, ?_⟩, ?_⟩
  · exact fun i n v hv => ((hshows x hx).1.bound i n v hv).unbroken
  · exact fun i n v hv => (hlast.bound i n v hv).unbroken
  · have hunlimited : k.out.limit = none := (hshows _ hx).1.unlimited
    obtain ⟨store, ⟨w, _⟩, diagnostics, depth, made⟩ := k
    cases hunlimited
    simp only [printLine, Sink.writeLine_unlimited]
    rfl
  · obtain ⟨-, _, hlets⟩ := hshows _ hx
    exact Value.Plain.inline_shown hlets
  · refine ⟨_, ?_, count_newline_join (printed_inline hshows)⟩
    have hwritten : (machineAfter fuel sources).out.written = _ :=
      Machine.afterAll_written rfl sources
    rw [hwritten]
    exact ByteArray.empty_append

end Naskah
