import Naskah.Proofs.Session.Faults

/-!
# Names that a program does not mention

What a name means is looked up, and a bare assignment asks whether a name is
bound, but only for names that stand in the program or in the declaration of a
function that it meets. A global binding of any other name is not seen: two
machines that differ in it alone carry out the program step by step alike, and
differ in it alone afterwards.
-/

namespace Naskah

open Eval

/-! ## Names in trees -/

mutual
def Expr.names : Expr → List String
  | .literal _ _ => []
  | .name t => [t.lexeme]
  | .group e => e.names
  | .unary _ _ e => e.names
  | .binary _ _ e e' => e.names ++ e'.names
  | .logical _ _ e e' => e.names ++ e'.names
  | .call e es _ => e.names ++ Expr.namesOf es
def Expr.namesOf : List Expr → List String
  | [] => []
  | e :: es => e.names ++ Expr.namesOf es
end

mutual
def Stmt.names : Stmt → List String
  | .expression e => e.names
  | .print _ e => e.names
  | .declare t e => t.lexeme :: e.names
  | .assign t e => t.lexeme :: e.names
  | .block b => Stmt.namesOf b
  | .branch e b o => e.names ++ (Stmt.namesOf b ++ Stmt.namesOf o)
  | .loop e b => e.names ++ Stmt.namesOf b
  | .function t ps b => t.lexeme :: (ps.map (·.lexeme) ++ Stmt.namesOf b)
  | .giveBack _ none => []
  | .giveBack _ (some e) => e.names
def Stmt.namesOf : List Stmt → List String
  | [] => []
  | s :: ss => s.names ++ Stmt.namesOf ss
end

def Closure.names (f : Closure) : List String :=
  f.name.lexeme :: (f.params.map (·.lexeme) ++ Stmt.namesOf f.body)

theorem Expr.mem_namesOf {x : String} {es : List Expr} :
    x ∈ Expr.namesOf es ↔ ∃ e ∈ es, x ∈ e.names := by
  induction es with
  | nil => simp [Expr.namesOf]
  | cons e es ih => simp [Expr.namesOf, ih]

theorem Stmt.mem_namesOf {x : String} {ss : List Stmt} :
    x ∈ Stmt.namesOf ss ↔ ∃ s ∈ ss, x ∈ s.names := by
  induction ss with
  | nil => simp [Stmt.namesOf]
  | cons s ss ih => simp [Stmt.namesOf, ih]

/-! The names in trees that fit their tokens are those of name tokens. -/

variable {T : Token → Prop} {x : String}

theorem Expr.Fits.names {e : Expr} (h : e.Fits T) (hx : x ∈ e.names) :
    ∃ t, T t ∧ t.kind = .name ∧ t.lexeme = x := by
  induction h with
  | literal => simp [Expr.names] at hx
  | @name t hT ht =>
    simp only [Expr.names, List.mem_singleton] at hx
    exact ⟨t, hT, ht, hx.symm⟩
  | group _ ih => exact ih hx
  | unary _ _ _ ih => exact ih hx
  | binary _ _ _ _ ih ih' => exact (List.mem_append.mp hx).elim ih ih'
  | logical _ _ ih ih' => exact (List.mem_append.mp hx).elim ih ih'
  | call _ _ _ _ ih ihs =>
    rcases List.mem_append.mp hx with hx | hx
    · exact ih hx
    · obtain ⟨e, he, hx⟩ := Expr.mem_namesOf.mp hx
      exact ihs e he hx

theorem Stmt.Fits.names {s : Stmt} (h : s.Fits T) (hx : x ∈ s.names) :
    ∃ t, T t ∧ t.kind = .name ∧ t.lexeme = x := by
  -- in every list of statements there is one that has the name
  have hbody : ∀ b : List Stmt, (∀ s ∈ b, x ∈ s.names → ∃ t, T t ∧ t.kind = .name ∧ t.lexeme = x) →
      x ∈ Stmt.namesOf b → ∃ t, T t ∧ t.kind = .name ∧ t.lexeme = x := by
    intro b hb hx
    obtain ⟨s, hs, hx⟩ := Stmt.mem_namesOf.mp hx
    exact hb s hs hx
  induction h with
  | expression he => exact he.names hx
  | print _ _ he => exact he.names hx
  | @declare t e hT ht he =>
    rcases List.mem_cons.mp hx with hx | hx
    · exact ⟨t, hT, ht, hx.symm⟩
    · exact he.names hx
  | @assign t e hT ht he =>
    rcases List.mem_cons.mp hx with hx | hx
    · exact ⟨t, hT, ht, hx.symm⟩
    · exact he.names hx
  | block _ ih => exact hbody _ ih hx
  | branch he _ _ ihb iho =>
    simp only [Stmt.names, List.mem_append] at hx
    rcases hx with hx | hx | hx
    · exact he.names hx
    · exact hbody _ ihb hx
    · exact hbody _ iho hx
  | loop he _ ih =>
    rcases List.mem_append.mp hx with hx | hx
    · exact he.names hx
    · exact hbody _ ih hx
  | @function t ps b hT ht hps _ ih =>
    simp only [Stmt.names, List.mem_cons, List.mem_append, List.mem_map] at hx
    rcases hx with hx | ⟨p, hp, hx⟩ | hx
    · exact ⟨t, hT, ht, hx.symm⟩
    · exact ⟨p, (hps p hp).1, (hps p hp).2, hx⟩
    · exact hbody b ih hx
  | @giveBack t value _ _ he =>
    cases value with
    | none => simp [Stmt.names] at hx
    | some e => exact (he e rfl).names hx

theorem programOf_names {source : String}
    (h : ∀ t ∈ (tokenize source).tokens, t.kind = .name → t.lexeme ≠ x) :
    ∀ s ∈ programOf source, x ∉ s.names := by
  intro s hs hx
  obtain ⟨t, hT, ht, heq⟩ := (programOf_fits (fun _ t ht => h t ht) s hs).names hx
  exact hT ht heq

/-! ## Machines that differ in one global binding -/

structure Store.EqualBut (x : String) (s s' : Store) : Prop where
  size : s.frames.size = s'.frames.size
  parent? : ∀ i, s.parent? i = s'.parent? i
  here? : ∀ i n, ¬ (i = Store.globalScope ∧ n = x) → s.here? i n = s'.here? i n

structure Machine.EqualBut (x : String) (m m' : Machine) : Prop where
  store : m.store.EqualBut x m'.store
  out : m.out = m'.out
  diagnostics : m.diagnostics = m'.diagnostics
  callDepth : m.callDepth = m'.callDepth
  functionsMade : m.functionsMade = m'.functionsMade

def Machine.bindGlobal (m : Machine) (name : String) (v : Value) : Machine :=
  { m with store := m.store.define Store.globalScope name v }

theorem Machine.equalBut_bindGlobal (m : Machine) (x : String) (v : Value) :
    m.EqualBut x (m.bindGlobal x v) := by
  refine ⟨⟨?_, fun i => ?_, fun i n hn => ?_⟩, rfl, rfl, rfl, rfl⟩
  · simp [Machine.bindGlobal]
  · simp [Machine.bindGlobal]
  · rw [Machine.bindGlobal, Store.here?_define, if_neg fun h => hn ⟨h.1, h.2.1⟩]

namespace Store.EqualBut

variable {s s' : Store} (h : s.EqualBut x s') {n : String} (hn : n ≠ x)
include h

theorem chain (i : ScopeId) : s.chain i = s'.chain i := by
  have hwithin : ∀ length i, s.chainWithin length i = s'.chainWithin length i := by
    intro length
    induction length with
    | zero => exact fun _ => rfl
    | succ length ih =>
      intro i
      rw [chainWithin_succ, chainWithin_succ, h.size, h.parent?, funext ih]
  exact hwithin (i + 1) i

theorem child (i : ScopeId) : (s.child i).2.EqualBut x (s'.child i).2 where
  size := by simp [h.size]
  parent? j := by
    by_cases hj : j < s.frames.size
    · rw [parent?_child hj, parent?_child (h.size ▸ hj), h.parent?]
    · simp only [Store.parent?, Store.child, Array.getElem?_push, h.size]
      split
      · rfl
      · exact h.parent? j
  here? j n hn := by rw [here?_child, here?_child, h.here? j n hn]

theorem define (i : ScopeId) (n : String) (v : Value) :
    (s.define i n v).EqualBut x (s'.define i n v) where
  size := by simp [h.size]
  parent? j := by rw [parent?_define, parent?_define, h.parent?]
  here? j n' hn' := by rw [here?_define, here?_define, h.size, h.here? j n' hn']

include hn

theorem binder? (i : ScopeId) : s.binder? i n = s'.binder? i n := by
  have hsame : (fun j => (s.here? j n).isSome) = fun j => (s'.here? j n).isSome := by
    funext j
    rw [h.here? j n fun hj => hn hj.2]
  rw [Store.binder?, Store.binder?, h.chain, hsame]

theorem get? (i : ScopeId) : s.get? i n = s'.get? i n := by
  rw [Store.get?, Store.get?, h.binder? hn]
  congr 1
  funext j
  exact h.here? j n fun hj => hn hj.2

end Store.EqualBut

/-! ## Two machines in step -/

variable {α β : Type} {I : Machine → Machine → Prop} {P : α → Prop} {Q : β → Prop}

/-- The same end, or no end, and machines in the relation `I`. -/
inductive Outcome.InStep (I : Machine → Machine → Prop) (P : α → Prop) :
    Outcome α → Outcome α → Prop
  | done {a m m'} : I m m' → P a → InStep I P (.done a m) (.done a m')
  | failed {f m m'} : I m m' → InStep I P (.failed f m) (.failed f m')
  | unfinished {m m'} : I m m' → InStep I P (@Outcome.unfinished _ m) (@Outcome.unfinished _ m')

namespace Eval

def InStep (I : Machine → Machine → Prop) (P : α → Prop) (e : Eval α) : Prop :=
  ∀ m m', I m m' → (e m).InStep I P (e m')

theorem inStep_pure {a : α} (h : P a) : InStep I P (pure a) :=
  fun _ _ hm => .done hm h

theorem inStep_unfinished : InStep I P unfinished :=
  fun _ _ hm => .unfinished hm

theorem inStep_fault (t : Token) (c : Cause) : InStep I P (fault t c) :=
  fun _ _ hm => .failed hm

theorem inStep_settle (t : Token) {r : Except Cause α} (h : ∀ a, r = .ok a → P a) :
    InStep I P (settle t r) := by
  cases r with
  | ok a => exact inStep_pure (h a rfl)
  | error c => exact inStep_fault t c

theorem InStep.bind {e : Eval α} {f : α → Eval β} (he : InStep I P e)
    (hf : ∀ a, P a → InStep I Q (f a)) : InStep I Q (e >>= f) := by
  intro m m' hm
  have h := he m m' hm
  simp only [Bind.bind, Eval.bind]
  generalize e m = o at h ⊢
  generalize e m' = o' at h ⊢
  cases h with
  | done hk ha => exact hf _ ha _ _ hk
  | failed hk => exact .failed hk
  | unfinished hk => exact .unfinished hk

end Eval

/-! ## A name that is not seen -/

def Value.Avoids (x : String) (v : Value) : Prop := ∀ f, v = .function f → x ∉ f.names

theorem Value.avoids_of_kind {v : Value} (h : v.kind ≠ .function) : v.Avoids x := by
  intro f hf
  subst hf
  exact absurd rfl h

/-- Machines that differ in the global `x` alone, bound to `a` and to `b`, whose
functions that a program can meet do not mention it. -/
structure Machine.Unseen (x : String) (a b : Option Value) (m m' : Machine) : Prop where
  equal : m.EqualBut x m'
  functions : ∀ i n v, n ≠ x → m.store.here? i n = some v → v.Avoids x
  first : m.store.here? Store.globalScope x = a
  second : m'.store.here? Store.globalScope x = b

section
variable {a b : Option Value} {m m' : Machine} (h : m.Unseen x a b m')
include h

theorem Machine.Unseen.get? {i : ScopeId} {n : String} {v : Value} (hn : n ≠ x)
    (hv : m.store.get? i n = some v) : v.Avoids x := by
  obtain ⟨j, -, hj⟩ := Option.bind_eq_some_iff.mp hv
  exact h.functions j n v hn hj

theorem Machine.Unseen.child (i : ScopeId) :
    Machine.Unseen x a b { m with store := (m.store.child i).2 }
      { m' with store := (m'.store.child i).2 } where
  equal := { h.equal with store := h.equal.store.child i }
  functions j n v hn hv := by
    rw [Store.here?_child] at hv
    exact h.functions j n v hn hv
  first := by rw [Store.here?_child, h.first]
  second := by rw [Store.here?_child, h.second]

theorem Machine.Unseen.define {n : String} (hn : n ≠ x) {v : Value} (hv : v.Avoids x)
    (i : ScopeId) :
    Machine.Unseen x a b { m with store := m.store.define i n v }
      { m' with store := m'.store.define i n v } where
  equal := { h.equal with store := h.equal.store.define i n v }
  functions j n' w hn' hw := by
    rw [Store.here?_define] at hw
    split at hw
    · cases hw
      exact hv
    · exact h.functions j n' w hn' hw
  first := by rw [Store.here?_define, if_neg fun hx => hn hx.2.1.symm, h.first]
  second := by rw [Store.here?_define, if_neg fun hx => hn hx.2.1.symm, h.second]

end

namespace Eval

variable {a b : Option Value} {n : String} (hn : n ≠ x) {v : Value} (hv : v.Avoids x)

theorem inStep_child (i : ScopeId) : InStep (Machine.Unseen x a b) (fun _ => True) (child i) := by
  intro m m' hm
  have hsize :
      child i m' = .done m.store.frames.size { m' with store := (m'.store.child i).2 } := by
    rw [hm.equal.store.size]
    rfl
  rw [hsize]
  exact .done (hm.child i) trivial

theorem inStep_makeFunction {i : ScopeId} {t : Token} {ps : List Token} {body : List Stmt}
    (h : x ∉ (Stmt.function t ps body).names) :
    InStep (Machine.Unseen x a b) (Value.Avoids x) (makeFunction i t ps body) := by
  intro m m' hm
  rw [makeFunction, makeFunction, ← hm.equal.functionsMade]
  refine .done { hm with equal := { hm.equal with functionsMade := rfl } } ?_
  intro f hf
  cases hf
  exact h

theorem inStep_printLine (t : Token) (text : String) :
    InStep (Machine.Unseen x a b) (fun _ => True) (printLine t text) := by
  intro m m' hm
  simp only [printLine, ← hm.equal.out]
  split
  · exact .done { hm with equal := { hm.equal with out := rfl } } trivial
  · exact .failed { hm with equal := { hm.equal with out := rfl } }

theorem inStep_requireCall (t : Token) :
    InStep (Machine.Unseen x a b) (fun _ => True) (requireCall t) := by
  intro m m' hm
  rw [requireCall, requireCall, ← hm.equal.callDepth]
  split
  · exact .failed hm
  · exact .done hm trivial

theorem InStep.duringCall {e : Eval α} (he : InStep (Machine.Unseen x a b) P e) :
    InStep (Machine.Unseen x a b) P (duringCall e) := by
  intro m m' hm
  have h := he { m with callDepth := m.callDepth + 1 } { m' with callDepth := m'.callDepth + 1 }
    { hm with equal := { hm.equal with callDepth := congrArg (· + 1) hm.equal.callDepth } }
  unfold Eval.duringCall
  generalize e _ = o at h ⊢
  generalize e _ = o' at h ⊢
  cases h with
  | done hk ha =>
    exact .done
      { hk with equal := { hk.equal with callDepth := congrArg (· - 1) hk.equal.callDepth } } ha
  | failed hk =>
    exact .failed
      { hk with equal := { hk.equal with callDepth := congrArg (· - 1) hk.equal.callDepth } }
  | unfinished hk => exact .unfinished hk

include hn

theorem inStep_lookup {t : Token} (ht : t.lexeme = n) (i : ScopeId) :
    InStep (Machine.Unseen x a b) (Value.Avoids x) (lookup i t) := by
  subst ht
  intro m m' hm
  rw [lookup, lookup, ← hm.equal.store.get? hn]
  cases hv : m.store.get? i t.lexeme with
  | none => exact .failed hm
  | some v => exact .done hm (hm.get? hn hv)

include hv

theorem inStep_define (i : ScopeId) :
    InStep (Machine.Unseen x a b) (fun _ => True) (define i n v) :=
  fun _ _ hm => .done (hm.define hn hv i) trivial

theorem inStep_assignOrDefine (i : ScopeId) :
    InStep (Machine.Unseen x a b) (fun _ => True) (assignOrDefine i n v) := by
  intro m m' hm
  rw [assignOrDefine, assignOrDefine, Store.assignOrDefine, Store.assignOrDefine,
    ← hm.equal.store.binder? hn]
  exact .done (hm.define hn hv _) trivial

end Eval

def blindTo (x : String) (a b : Option Value) : Conduct where
  Ok := fun _ => fun P e => InStep (Machine.Unseen x a b) P e
  Holds := Value.Avoids x
  Reads e := x ∉ e.names
  Does _ s := x ∉ s.names
  Closes _ := True

theorem blindTo_laws (x : String) (a b : Option Value) : (blindTo x a b).Laws where
  pure h := inStep_pure h
  bind he hf := he.bind hf
  unfinished := inStep_unfinished
  child _ scope := inStep_child scope
  literal {v _} _ := by
    apply Value.avoids_of_kind
    cases v <;> simp [Value.ofLiteral, Value.kind]
  name {_ t} h scope := by
    have ht : t.lexeme ≠ x := by simpa [blindTo, Expr.names, eq_comm] using h
    exact inStep_lookup ht rfl scope
  group h := h
  unary h :=
    ⟨h, fun v _ => inStep_settle _ fun r hr => Value.avoids_of_kind (UnaryOp.apply_kind hr)⟩
  binary {_ _ _ e e'} h := by
    obtain ⟨he, he'⟩ : x ∉ e.names ∧ x ∉ e'.names := by simpa [blindTo, Expr.names] using h
    exact ⟨he, he', fun v w _ _ => inStep_settle _ fun r hr =>
      Value.avoids_of_kind (BinaryOp.apply_kind hr)⟩
  logical h := by simpa [blindTo, Expr.names] using h
  arguments h := by simpa [blindTo, Expr.names, Expr.mem_namesOf] using h
  expression h := h
  print h := ⟨h, fun _ _ => inStep_printLine _ _⟩
  declare {_ t e} h := by
    obtain ⟨ht, he⟩ : t.lexeme ≠ x ∧ x ∉ e.names := by simpa [blindTo, Stmt.names, eq_comm] using h
    exact ⟨he, fun scope v hv => inStep_define ht hv scope⟩
  assign {_ t e} h := by
    obtain ⟨ht, he⟩ : t.lexeme ≠ x ∧ x ∉ e.names := by simpa [blindTo, Stmt.names, eq_comm] using h
    exact ⟨he, fun scope v hv => inStep_assignOrDefine ht hv scope⟩
  block h := by simpa [blindTo, Stmt.names, Stmt.mem_namesOf] using h
  branch h := by simpa [blindTo, Stmt.names, Stmt.mem_namesOf] using h
  loop h := by simpa [blindTo, Stmt.names, Stmt.mem_namesOf] using h
  function {_ t _ _} h scope := by
    have ht : t.lexeme ≠ x := fun ht => h (ht ▸ List.mem_cons_self)
    exact ⟨inStep_makeFunction h, fun v hv => inStep_define ht hv scope⟩
  giveBack h := by
    refine ⟨inStep_requireCall _, fun e he => ?_⟩
    subst he
    exact h
  giveNothing := Value.avoids_of_kind (by simp [Value.kind])
  param {f} h p hp d scope v hv := by
    have hp' : p.lexeme ≠ x := by
      intro heq
      apply h f rfl
      simp only [Closure.names, List.mem_cons, List.mem_append, List.mem_map]
      exact .inr (.inl ⟨p, hp, heq⟩)
    exact inStep_define hp' hv scope
  body {f} h d s hs := by
    intro hx
    apply h f rfl
    simp only [Closure.names, List.mem_cons, List.mem_append, Stmt.mem_namesOf]
    exact .inr (.inr ⟨s, hs, hx⟩)
  duringCall h := h.duringCall
  notCallable _ := inStep_fault _ _
  argumentCount _ _ _ := inStep_fault _ _

/-! ## Runs -/

variable {m m' : Machine} {source : String}

theorem Machine.Unseen.withDiagnostics {a b : Option Value} (h : m.Unseen x a b m')
    (write : Sink → Sink) : Machine.Unseen x a b { m with diagnostics := write m.diagnostics }
      { m' with diagnostics := write m'.diagnostics } :=
  { h with equal := { h.equal with diagnostics := congrArg write h.equal.diagnostics } }

theorem Machine.Unseen.reportSyntax {a b : Option Value} (h : m.Unseen x a b m')
    (stray wrong : List SyntaxError) :
    (m.reportSyntax stray wrong).Unseen x a b (m'.reportSyntax stray wrong) := by
  have hreported := h.withDiagnostics fun d =>
    ((stray.foldl (fun d e => (d.writeLine e.message).1) d).writeLines (wrong.map (·.message))).1
  exact hreported

theorem Machine.Unseen.interpret {a b : Option Value} (h : m.Unseen x a b m') {program : List Stmt}
    (hprogram : ∀ s ∈ program, x ∉ s.names) (fuel : Nat) :
    Option.Rel (fun r r' => r.1 = r'.1 ∧ r.2.Unseen x a b r'.2)
      (m.interpret fuel program) (m'.interpret fuel program) := by
  have hends : (Stmt.execsWithin fuel program Store.globalScope m).InStep (Machine.Unseen x a b) _
      (Stmt.execsWithin fuel program Store.globalScope m') :=
    Stmt.execsWithin_ok (d := 0) (blindTo_laws x a b) hprogram fuel Store.globalScope m m' h
  unfold Machine.interpret
  generalize Stmt.execsWithin fuel program Store.globalScope m = o at hends ⊢
  generalize Stmt.execsWithin fuel program Store.globalScope m' = o' at hends ⊢
  cases hends with
  | done hk _ => exact .some ⟨rfl, hk⟩
  | @failed fault _ _ hk =>
    exact .some ⟨rfl, hk.withDiagnostics fun d => (d.writeLine fault.message).1⟩
  | unfinished => exact .none

theorem Machine.Unseen.run {a b : Option Value} (h : m.Unseen x a b m')
    (hsource : ∀ t ∈ (tokenize source).tokens, t.kind = .name → t.lexeme ≠ x) (fuel : Nat) :
    Option.Rel (fun r r' => r.1 = r'.1 ∧ r.2.Unseen x a b r'.2) (m.run fuel source)
      (m'.run fuel source) := by
  by_cases hclean : Clean source
  · have hends := h.interpret (programOf_names hsource) fuel
    rw [programOf_clean hclean] at hends
    rw [m.run_of_clean hclean.words hclean.tree, m'.run_of_clean hclean.words hclean.tree]
    unfold statementsOf at hends
    generalize m.interpret fuel _ = o at hends ⊢
    generalize m'.interpret fuel _ = o' at hends ⊢
    cases hends with
    | none => exact .none
    | some hr =>
      obtain ⟨hfaulty, hk⟩ := hr
      exact .some ⟨by simp only [hfaulty], hk⟩
  · rw [m.run_of_not_clean hclean, m'.run_of_not_clean hclean]
    exact .some ⟨rfl, h.reportSyntax _ _⟩

/-- **Names that are not mentioned are not seen.** A machine and the same with
`x` bound, or bound to something else, in the global scope differ in this
binding alone. If no name token of a source is `x` and no function of the
machine mentions it, then of two such machines, with the same fuel, both end a
run or none does, with the same status. They differ in the global `x` alone
afterwards, and each has it bound as before. -/
theorem unmentioned_names_unseen
    (hsource : ∀ t ∈ (tokenize source).tokens, t.kind = .name → t.lexeme ≠ x)
    (hfunctions : ∀ i n f, m.store.here? i n = some (.function f) → x ∉ f.names) :
    (∀ v, m.EqualBut x (m.bindGlobal x v)) ∧
      ∀ m', m.EqualBut x m' → ∀ fuel, Option.Rel
        (fun r r' => r.1 = r'.1 ∧ r.2.EqualBut x r'.2 ∧
          r.2.store.here? Store.globalScope x = m.store.here? Store.globalScope x ∧
          r'.2.store.here? Store.globalScope x = m'.store.here? Store.globalScope x)
        (m.run fuel source) (m'.run fuel source) := by
  refine ⟨m.equalBut_bindGlobal x, fun m' hm fuel => ?_⟩
  have hunseen :
      m.Unseen x (m.store.here? Store.globalScope x) (m'.store.here? Store.globalScope x) m' := by
    refine ⟨hm, fun i n v _ hv f hf => ?_, rfl, rfl⟩
    subst hf
    exact hfunctions i n f hv
  have hruns := hunseen.run hsource fuel
  generalize m.run fuel source = o at hruns ⊢
  generalize m'.run fuel source = o' at hruns ⊢
  cases hruns with
  | none => exact .none
  | some hr => exact .some ⟨hr.1, hr.2.equal, hr.2.first, hr.2.second⟩

/-- A function that assigns a name nowhere bound, called with and without a global `x`. -/
theorem unmentioned_names_unseen_call :
    let f : Closure :=
      ⟨⟨.name, "f", 1⟩, [⟨.name, "a", 1⟩], [.assign ⟨.name, "b", 1⟩ (.name ⟨.name, "a", 1⟩)], 0, 0⟩
    let m : Machine := { Machine.fresh none none with store := ⟨#[⟨none, [("f", .function f)]⟩]⟩ }
    let source := "y = f(benar); cetak y;"
    (∀ t ∈ (tokenize source).tokens, t.kind = .name → t.lexeme ≠ "x") ∧
      (∀ i n g, m.store.here? i n = some (.function g) → "x" ∉ g.names) ∧
      ∃ k k', m.run 2 source = some (.completed, k) ∧
        (m.bindGlobal "x" .nil).run 2 source = some (.completed, k') ∧
        k.EqualBut "x" k' ∧ k.store.here? Store.globalScope "x" = none ∧
        k'.store.here? Store.globalScope "x" = some .nil := by
  intro f m source
  have hlexemes : (tokenize source).tokens.all (fun t => t.lexeme ≠ "x") = true := by decide +kernel
  have hsource : ∀ t ∈ (tokenize source).tokens, t.kind = .name → t.lexeme ≠ "x" := by
    intro t ht _
    simpa using List.all_eq_true.mp hlexemes t ht
  have hfunctions : ∀ i n g, m.store.here? i n = some (.function g) → "x" ∉ g.names := by
    intro i n g hg
    obtain rfl : i = 0 := Nat.lt_one_iff.mp (Store.here?_lt hg)
    by_cases hn : n = "f"
    · subst hn
      cases hg
      decide
    · simp [m, Store.here?, Bindings.get?, List.lookup_cons, beq_false_of_ne hn] at hg
  have hcompleted : (m.run 2 source).map (·.1) = some .completed := by decide +kernel
  obtain ⟨⟨status, k⟩, hrun, hstatus⟩ := Option.map_eq_some_iff.mp hcompleted
  obtain rfl : status = .completed := hstatus
  obtain ⟨hbind, hends⟩ := unmentioned_names_unseen hsource hfunctions
  have hend := hends _ (hbind .nil) 2
  rw [hrun] at hend
  generalize (m.bindGlobal "x" .nil).run 2 source = o at hend ⊢
  cases hend with
  | @some _ r' hr =>
    obtain ⟨hstatus', hequal, hfirst, hsecond⟩ := hr
    obtain ⟨status', k'⟩ := r'
    cases hstatus'
    exact ⟨hsource, hfunctions, k, k', hrun, rfl, hequal, hfirst, hsecond⟩

end Naskah
