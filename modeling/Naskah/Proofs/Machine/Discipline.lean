import Naskah.Proofs.Alike.Run
import Naskah.Proofs.Scope.Store

/-!
# Disciplines of scopes

Two machines that differ in their stores only carry out the same program side
by side. A discipline says how their stores may differ, and what may be met on
the way: which values, which scopes names may be bound in, and which statements
may be carried out in a scope. What it says of a store stays true as the store
grows, so that its laws, one for each way to touch a scope, lead from the start
of a run to its end, to a fault, and to any machine on the way. A property of
one store is a discipline of two stores that are the same.
-/

namespace Naskah

def Stmt.declared? : Stmt → Option String
  | .declare name _ => some name.lexeme
  | .assign name _ => some name.lexeme
  | .function name _ _ => some name.lexeme
  | _ => none

/-- The lists of statements that a statement carries out in a scope of its own. -/
def Stmt.inner : Stmt → List (List Stmt)
  | .block body => [body]
  | .branch _ body otherwise => [body, otherwise]
  | .loop _ body => [body]
  | _ => []

structure Discipline where
  Good : Store → Store → Prop
  Holds : Store → Value → Prop
  /-- Scopes in which names may be bound. -/
  Free : Store → ScopeId → Prop
  /-- Statements that may be carried out in a scope; where no statements may, expressions still may. -/
  Allows : Store → ScopeId → List Stmt → Prop
  size : ∀ {s s'}, Good s s' → s.frames.size = s'.frames.size
  -- what was said of a store stays true of a later one
  holds_mono : ∀ {s t v}, s.Grows t → Holds s v → Holds t v
  free_mono : ∀ {s t i}, s.Grows t → Free s i → Free t i
  allows_mono : ∀ {s t i ss}, s.Grows t → Allows s i ss → Allows t i ss
  -- values met: all but functions, what names stand for, and functions made here
  plain : ∀ {s v}, v.kind ≠ .function → Holds s v
  found : ∀ {s s' i}, Good s s' → Allows s i [] → ∀ n, s.get? i n = s'.get? i n ∧
    ∀ v, s.get? i n = some v → Holds s v
  closure : ∀ {s i name ps b} serial, Allows s i [.function name ps b] →
    Holds s (.function ⟨name, ps, b, i, serial⟩)
  -- what is allowed of a list is allowed of its statements
  first : ∀ {s i st ss}, Allows s i (st :: ss) → Allows s i [st]
  rest : ∀ {s i st ss}, Allows s i (st :: ss) → Allows s i ss
  free : ∀ {s i st}, Allows s i [st] → st.declared?.isSome → Free s i
  -- scopes made by statements and by calls
  inner : ∀ {s s' i st b}, Good s s' → Allows s i [st] → b ∈ st.inner →
    Good (s.child i).2 (s'.child i).2 ∧ Allows (s.child i).2 s.frames.size b
  call : ∀ {s s' f}, Good s s' → Holds s (.function f) →
    Good (s.child f.scope).2 (s'.child f.scope).2 ∧
    Free (s.child f.scope).2 s.frames.size ∧ Allows (s.child f.scope).2 s.frames.size f.body
  -- names that are bound
  define : ∀ {s s' i v} n, Good s s' → Free s i → Holds s v →
    Good (s.define i n v) (s'.define i n v)
  assign : ∀ {s s' i v} n, Good s s' → Free s i → Holds s v →
    Good (s.assignOrDefine i n v) (s'.assignOrDefine i n v)

variable {G : Discipline} {s t : Store} {α β : Type} {A : Store → α → Prop} {B : Store → β → Prop}

structure Discipline.Beside (G : Discipline) (m m' : Machine) : Prop where
  store : G.Good m.store m'.store
  out : m.out = m'.out
  diagnostics : m.diagnostics = m'.diagnostics
  callDepth : m.callDepth = m'.callDepth
  functionsMade : m.functionsMade = m'.functionsMade

inductive Outcome.Beside (G : Discipline) (s : Store) (A : Store → α → Prop) :
    Outcome α → Outcome α → Prop
  | done {a m m'} : s.Grows m.store → G.Beside m m' → A m.store a →
      Beside G s A (.done a m) (.done a m')
  | failed {f m m'} : s.Grows m.store → G.Beside m m' → Beside G s A (.failed f m) (.failed f m')
  | unfinished {m m'} (o) : s.Grows m.store → G.Beside m m' →
      Beside G s A (@Outcome.unfinished _ m) o

theorem Outcome.Beside.mono {o o' : Outcome α} (hst : s.Grows t) (h : o.Beside G t A o') :
    o.Beside G s A o' := by
  cases h with
  | done hg hm ha => exact .done (hst.trans hg) hm ha
  | failed hg hm => exact .failed (hst.trans hg) hm
  | unfinished _ hg hm => exact .unfinished _ (hst.trans hg) hm

namespace Eval

/-- Side by side from any later store on, computations come to the same end, of which `A` holds. -/
def Beside (G : Discipline) (s : Store) (A : Store → α → Prop) (e e' : Eval α) : Prop :=
  ∀ m m', s.Grows m.store → G.Beside m m' → (e m).Beside G m.store A (e' m')

theorem Beside.mono {e e' : Eval α} (h : Beside G s A e e') (hst : s.Grows t) : Beside G t A e e' :=
  fun m m' hm => h m m' (hst.trans hm)

theorem beside_pure {a : α} (ha : ∀ t, s.Grows t → A t a) : Beside G s A (pure a) (pure a) :=
  fun m _ hs hm => .done (.refl _) hm (ha m.store hs)

theorem beside_unfinished (e : Eval α) : Beside G s A unfinished e :=
  fun _ _ _ hm => .unfinished _ (.refl _) hm

theorem Beside.bind {e e' : Eval α} {f f' : α → Eval β} (he : Beside G s A e e')
    (hf : ∀ t a, s.Grows t → A t a → Beside G t B (f a) (f' a)) :
    Beside G s B (e >>= f) (e' >>= f') := by
  intro m m' hs hm
  have h := he m m' hs hm
  simp only [Bind.bind, Eval.bind]
  generalize e m = o at h ⊢
  generalize e' m' = o' at h ⊢
  cases h with
  | @done a k k' hk hm ha =>
    -- the second computation starts from a store that the first has grown
    exact (hf k.store a (hs.trans hk) ha k k' (.refl _) hm).mono hk
  | failed hk hm => exact .failed hk hm
  | unfinished _ hk hm => exact .unfinished _ hk hm

theorem Beside.ite {c : Bool} {e e' f f' : Eval α} (he : Beside G s A e e')
    (hf : Beside G s A f f') :
    Beside G s A (if c = true then e else f) (if c = true then e' else f') := by
  cases c
  · exact hf
  · exact he

/-! ## Steps -/

theorem beside_fault (token : Token) (cause : Cause) :
    Beside G s A (fault token cause) (fault token cause) :=
  fun _ _ _ hm => .failed (.refl _) hm

theorem beside_settle (token : Token) {r : Except Cause α} (h : ∀ a, r = .ok a → ∀ t, A t a) :
    Beside G s A (settle token r) (settle token r) := by
  cases r with
  | ok a => exact beside_pure fun t _ => h a rfl t
  | error cause => exact beside_fault token cause

theorem beside_lookup {scope : ScopeId} (h : G.Allows s scope []) (name : Token) :
    Beside G s G.Holds (lookup scope name) (lookup scope name) := by
  intro m m' hs hm
  obtain ⟨hget, hholds⟩ := G.found hm.store (G.allows_mono hs h) name.lexeme
  rw [lookup, lookup, ← hget]
  cases hv : m.store.get? scope name.lexeme with
  | none => exact .failed (.refl _) hm
  | some v => exact .done (.refl _) hm (hholds v hv)

theorem beside_child {scope : ScopeId} {P : Store → ScopeId → Prop}
    (h : ∀ t t', s.Grows t → G.Good t t' →
      G.Good (t.child scope).2 (t'.child scope).2 ∧ P (t.child scope).2 t.frames.size) :
    Beside G s P (child scope) (child scope) := by
  intro m m' hs hm
  obtain ⟨hgood, hp⟩ := h m.store m'.store hs hm.store
  have hend : child scope m' =
      .done m.store.frames.size { m' with store := (m'.store.child scope).2 } := by
    rw [G.size hm.store]
    rfl
  rw [hend]
  exact .done (.child m.store scope) { hm with store := hgood } hp

theorem beside_inner {scope : ScopeId} {st : Stmt} {b : List Stmt} (h : G.Allows s scope [st])
    (hb : b ∈ st.inner) :
    Beside G s (fun t i => ∀ b ∈ st.inner, G.Allows t i b) (child scope) (child scope) :=
  beside_child fun _ _ ht hgood =>
    ⟨(G.inner hgood (G.allows_mono ht h) hb).1, fun _ hb =>
      (G.inner hgood (G.allows_mono ht h) hb).2⟩

theorem beside_define {scope : ScopeId} {v : Value} (h : G.Free s scope) (hv : G.Holds s v)
    (name : String) : Beside G s (fun _ _ => True) (define scope name v) (define scope name v) :=
  fun m _ hs hm => .done (.define m.store scope name v)
    { hm with store := G.define name hm.store (G.free_mono hs h) (G.holds_mono hs hv) } trivial

theorem beside_assignOrDefine {scope : ScopeId} {v : Value} (h : G.Free s scope) (hv : G.Holds s v)
    (name : String) :
    Beside G s (fun _ _ => True) (assignOrDefine scope name v) (assignOrDefine scope name v) :=
  fun m _ hs hm => .done (.define m.store _ name v)
    { hm with store := G.assign name hm.store (G.free_mono hs h) (G.holds_mono hs hv) } trivial

theorem beside_makeFunction {scope : ScopeId} {name : Token} {ps : List Token} {b : List Stmt}
    (h : G.Allows s scope [.function name ps b]) :
    Beside G s G.Holds (makeFunction scope name ps b) (makeFunction scope name ps b) := by
  intro m m' hs hm
  rw [makeFunction, makeFunction, ← hm.functionsMade]
  exact .done (.refl _) { hm with functionsMade := rfl } (G.closure _ (G.allows_mono hs h))

theorem beside_printLine (keyword : Token) (text : String) :
    Beside G s (fun _ _ => True) (printLine keyword text) (printLine keyword text) := by
  intro m m' hs hm
  simp only [printLine, ← hm.out]
  split
  · exact .done (.refl _) { hm with out := rfl } trivial
  · exact .failed (.refl _) { hm with out := rfl }

theorem beside_requireCall (keyword : Token) :
    Beside G s (fun _ _ => True) (requireCall keyword) (requireCall keyword) := by
  intro m m' hs hm
  rw [requireCall, requireCall, ← hm.callDepth]
  split
  · exact .failed (.refl _) hm
  · exact .done (.refl _) hm trivial

theorem Beside.duringCall {e e' : Eval α} (h : Beside G s A e e') :
    Beside G s A (duringCall e) (duringCall e') := by
  intro m m' hs hm
  have h := h { m with callDepth := m.callDepth + 1 } { m' with callDepth := m'.callDepth + 1 } hs
    { hm with callDepth := congrArg (· + 1) hm.callDepth }
  rw [Eval.duringCall, Eval.duringCall]
  generalize e _ = o at h
  generalize e' _ = o' at h
  cases h with
  | done hg hm ha => exact .done hg { hm with callDepth := congrArg (· - 1) hm.callDepth } ha
  | failed hg hm => exact .failed hg { hm with callDepth := congrArg (· - 1) hm.callDepth }
  | unfinished _ hg hm => exact .unfinished _ hg hm

end Eval

open Eval

variable {call call' : Caller} {scope : ScopeId} {n n' : Nat}

/-! ## Expressions -/

theorem Value.Alike.kind_ne_function {v : Value} (h : v.Alike (fun _ _ => False) v) :
    v.kind ≠ .function := by
  cases h with
  | function hf => exact hf.name.elim
  | _ => simp [Value.kind]

theorem UnaryOp.apply_kind {op : UnaryOp} {v r : Value} (h : op.apply v = .ok r) :
    r.kind ≠ .function :=
  (UnaryOp.apply_alike_self h).kind_ne_function

theorem BinaryOp.apply_kind {op : BinaryOp} {v w r : Value} (h : op.apply v w = .ok r) :
    r.kind ≠ .function :=
  (BinaryOp.apply_alike_self h).kind_ne_function

def Discipline.HoldsAll (G : Discipline) (s : Store) (vs : List Value) : Prop :=
  ∀ v ∈ vs, G.Holds s v

theorem Discipline.HoldsAll.mono {vs : List Value} (h : G.HoldsAll s vs) (hst : s.Grows t) :
    G.HoldsAll t vs :=
  fun v hv => G.holds_mono hst (h v hv)

def Caller.Beside (G : Discipline) (call call' : Caller) : Prop :=
  ∀ s v vs paren, G.Holds s v → G.HoldsAll s vs →
    Eval.Beside G s G.Holds (call v vs paren) (call' v vs paren)

mutual
theorem Expr.eval_beside (hcall : call.Beside G call') {s : Store} (h : G.Allows s scope []) :
    ∀ e : Expr, Eval.Beside G s G.Holds (e.eval call scope) (e.eval call' scope)
  | .literal v _ =>
    beside_pure fun t _ => G.plain (by cases v <;> simp [Value.ofLiteral, Value.kind])
  | .name token => beside_lookup h token
  | .group e => e.eval_beside hcall h
  | .unary op token e => by
    apply (e.eval_beside hcall h).bind
    intro t v ht hv
    exact beside_settle token fun _ hr _ => G.plain (UnaryOp.apply_kind hr)
  | .binary op token e e' => by
    apply (e.eval_beside hcall h).bind
    intro t v ht hv
    apply (e'.eval_beside hcall (G.allows_mono ht h)).bind
    intro u w hu hw
    exact beside_settle token fun _ hr _ => G.plain (BinaryOp.apply_kind hr)
  | .logical op _ e e' => by
    apply (e.eval_beside hcall h).bind
    intro t v ht hv
    exact .ite (beside_pure fun u hu => G.holds_mono hu hv)
      (e'.eval_beside hcall (G.allows_mono ht h))
  | .call e es paren => by
    apply (e.eval_beside hcall h).bind
    intro t f ht hf
    apply (Expr.evals_beside hcall (G.allows_mono ht h) es).bind
    intro u vs hu hvs
    exact hcall u f vs paren (G.holds_mono hu hf) hvs
theorem Expr.evals_beside (hcall : call.Beside G call') {s : Store} (h : G.Allows s scope []) :
    ∀ es : List Expr,
    Eval.Beside G s G.HoldsAll (Expr.evals call scope es) (Expr.evals call' scope es)
  | [] => beside_pure fun t _ => by simp [Discipline.HoldsAll]
  | e :: es => by
    apply (e.eval_beside hcall h).bind
    intro t v ht hv
    apply (Expr.evals_beside hcall (G.allows_mono ht h) es).bind
    intro u vs hu hvs
    refine beside_pure fun w hw => ?_
    simp only [Discipline.HoldsAll, List.forall_mem_cons]
    exact ⟨G.holds_mono (hu.trans hw) hv, hvs.mono hw⟩
end

/-! ## Statements -/

def Discipline.HoldsFlow (G : Discipline) (s : Store) : Flow → Prop
  | .normal => True
  | .returned v => G.Holds s v

theorem repeatWhile_beside {condition condition' : Eval Bool} {body body' : Eval Flow} {s : Store}
    (hc : Eval.Beside G s (fun _ _ => True) condition condition')
    (hb : Eval.Beside G s G.HoldsFlow body body') :
    ∀ {n n' : Nat}, n ≤ n' →
      Eval.Beside G s G.HoldsFlow (repeatWhile condition body n) (repeatWhile condition' body' n')
  | 0, _, _ => beside_unfinished _
  | n + 1, n' + 1, hn => by
    apply hc.bind
    intro t c ht _
    apply Beside.ite
    · apply (hb.mono ht).bind
      intro u flow hu hflow
      cases flow with
      | normal => exact (repeatWhile_beside hc hb (Nat.le_of_succ_le_succ hn)).mono (ht.trans hu)
      | returned v => exact beside_pure fun w hw => G.holds_mono hw hflow
    · exact beside_pure fun _ _ => trivial

mutual
theorem Stmt.exec_beside (hcall : call.Beside G call') (hn : n ≤ n') {scope : ScopeId} {s : Store} :
    ∀ st : Stmt, G.Allows s scope [st] →
    Eval.Beside G s G.HoldsFlow (st.exec call n scope) (st.exec call' n' scope)
  | .expression e, h => by
    apply (e.eval_beside hcall (G.rest h)).bind
    intro t v ht hv
    exact beside_pure fun _ _ => trivial
  | .print keyword e, h => by
    apply (e.eval_beside hcall (G.rest h)).bind
    intro t v ht hv
    exact (beside_printLine keyword _).bind fun _ _ _ _ => beside_pure fun _ _ => trivial
  | .declare name e, h => by
    apply (e.eval_beside hcall (G.rest h)).bind
    intro t v ht hv
    have hfree := G.free (G.allows_mono ht h) rfl
    exact (beside_define hfree hv _).bind fun _ _ _ _ => beside_pure fun _ _ => trivial
  | .assign name e, h => by
    apply (e.eval_beside hcall (G.rest h)).bind
    intro t v ht hv
    have hfree := G.free (G.allows_mono ht h) rfl
    exact (beside_assignOrDefine hfree hv _).bind fun _ _ _ _ => beside_pure fun _ _ => trivial
  | .block b, h => by
    have hb : b ∈ (Stmt.block b).inner := by simp [Stmt.inner]
    apply (beside_inner h hb).bind
    intro t i ht hi
    exact Stmt.execs_beside hcall hn b (hi b hb)
  | .branch e b o, h => by
    apply (e.eval_beside hcall (G.rest h)).bind
    intro t v ht hv
    have hb : b ∈ (Stmt.branch e b o).inner := by simp [Stmt.inner]
    have ho : o ∈ (Stmt.branch e b o).inner := by simp [Stmt.inner]
    apply (beside_inner (G.allows_mono ht h) hb).bind
    intro u i hu hi
    exact .ite (Stmt.execs_beside hcall hn b (hi b hb)) (Stmt.execs_beside hcall hn o (hi o ho))
  | .loop e b, h => by
    have hb : b ∈ (Stmt.loop e b).inner := by simp [Stmt.inner]
    apply repeatWhile_beside _ _ hn
    · apply (e.eval_beside hcall (G.rest h)).bind
      intro t v ht hv
      exact beside_pure fun _ _ => trivial
    · apply (beside_inner h hb).bind
      intro t i ht hi
      exact Stmt.execs_beside hcall hn b (hi b hb)
  | .function name ps b, h => by
    apply (beside_makeFunction h).bind
    intro t f ht hf
    have hfree := G.free (G.allows_mono ht h) rfl
    exact (beside_define hfree hf _).bind fun _ _ _ _ => beside_pure fun _ _ => trivial
  | .giveBack keyword none, h =>
    (beside_requireCall keyword).bind fun _ _ _ _ => beside_pure fun _ _ =>
      G.plain (by simp [Value.kind])
  | .giveBack keyword (some e), h => by
    apply (beside_requireCall keyword).bind
    intro t _ ht _
    apply (e.eval_beside hcall (G.allows_mono ht (G.rest h))).bind
    intro u v hu hv
    exact beside_pure fun w hw => G.holds_mono hw hv
theorem Stmt.execs_beside (hcall : call.Beside G call') (hn : n ≤ n')
    {scope : ScopeId} {s : Store} : ∀ ss : List Stmt, G.Allows s scope ss →
      Eval.Beside G s G.HoldsFlow (Stmt.execs call n ss scope) (Stmt.execs call' n' ss scope)
  | [], _ => beside_pure fun _ _ => trivial
  | st :: ss, h => by
    apply (st.exec_beside hcall hn (G.first h)).bind
    intro t flow ht hflow
    cases flow with
    | normal => exact Stmt.execs_beside hcall hn ss (G.allows_mono ht (G.rest h))
    | returned v => exact beside_pure fun u hu => G.holds_mono hu hflow
end

/-! ## Calls -/

theorem bindParams_beside {s : Store} (h : G.Free s scope) :
    ∀ (ps : List Token) {vs : List Value}, G.HoldsAll s vs →
      Eval.Beside G s (fun _ _ => True) (bindParams scope ps vs) (bindParams scope ps vs)
  | [], _, _ => beside_pure fun _ _ => trivial
  | _ :: _, [], _ => beside_pure fun _ _ => trivial
  | p :: ps, v :: vs, hvs => by
    simp only [Discipline.HoldsAll, List.forall_mem_cons] at hvs
    apply (beside_define h hvs.1 p.lexeme).bind
    intro t _ ht _
    exact (bindParams_beside h ps hvs.2).mono ht

theorem callFunction_beside (hcall : call.Beside G call') (hn : n ≤ n') {f : Closure}
    {vs : List Value} (hf : G.Holds s (.function f)) (hvs : G.HoldsAll s vs) (paren : Token) :
    Eval.Beside G s G.Holds (callFunction n call f vs paren)
      (callFunction n' call' f vs paren) := by
  unfold callFunction
  split
  · apply Beside.duringCall
    have hchild : Eval.Beside G s (fun t i => G.Free t i ∧ G.Allows t i f.body) (child f.scope)
        (child f.scope) :=
      beside_child fun t t' ht hgood => G.call hgood (G.holds_mono ht hf)
    apply hchild.bind
    intro t i ht hi
    apply (bindParams_beside hi.1 f.params (hvs.mono ht)).bind
    intro u _ hu _
    apply (Stmt.execs_beside hcall hn f.body (G.allows_mono hu hi.2)).bind
    intro w flow hw hflow
    cases flow with
    | normal => exact beside_pure fun _ _ => G.plain (by simp [Value.kind])
    | returned v => exact beside_pure fun _ hx => G.holds_mono hx hflow
  · exact beside_fault paren _

theorem callWithin_beside : ∀ {n n' : Nat}, n ≤ n' → Caller.Beside G (callWithin n) (callWithin n')
  | 0, _, _ => fun _ _ _ _ _ _ => beside_unfinished _
  | n + 1, n' + 1, hn => by
    intro s v vs paren hv hvs
    have hn := Nat.le_of_succ_le_succ hn
    cases v with
    | function f => exact callFunction_beside (callWithin_beside hn) hn hv hvs paren
    | _ => exact beside_fault paren _

/-! ## Ends -/

def Outcome.end? : Outcome α → Option (Except Fault α × Machine)
  | .done a m => some (.ok a, m)
  | .failed f m => some (.error f, m)
  | .unfinished => none

def Outcome.machine : Outcome α → Machine
  | .done _ m => m
  | .failed _ m => m
  | @Outcome.unfinished _ m => m

/-- How a computation ends, with as much fuel as it takes. -/
def EndsIn (run : Nat → Eval α) (m : Machine) (r : Except Fault α × Machine) : Prop :=
  ∃ fuel, (run fuel m).end? = some r

def Discipline.Keeps (G : Discipline) (s : Store) (run : Nat → Eval α) : Prop :=
  ∃ A, ∀ n n', n ≤ n' → Eval.Beside G s A (run n) (run n')

theorem evalWithin_keeps (h : G.Allows s scope []) (e : Expr) :
    G.Keeps s fun n => e.evalWithin n scope :=
  ⟨_, fun _ _ hn => e.eval_beside (callWithin_beside hn) h⟩

theorem execWithin_keeps {st : Stmt} (h : G.Allows s scope [st]) :
    G.Keeps s fun n => st.execWithin n scope :=
  ⟨_, fun _ _ hn => st.exec_beside (callWithin_beside hn) hn h⟩

theorem execsWithin_keeps {ss : List Stmt} (h : G.Allows s scope ss) :
    G.Keeps s fun n => Stmt.execsWithin n ss scope :=
  ⟨_, fun _ _ hn => Stmt.execs_beside (callWithin_beside hn) hn ss h⟩

theorem callFunction_keeps {f : Closure} {vs : List Value} (hf : G.Holds s (.function f))
    (hvs : G.HoldsAll s vs) (paren : Token) :
    G.Keeps s fun n => callFunction n (callWithin n) f vs paren :=
  ⟨_, fun _ _ hn => callFunction_beside (callWithin_beside hn) hn hf hvs paren⟩

/-- An end of the first machine is one of the second. -/
theorem Discipline.Keeps.ends {run : Nat → Eval α} {m m' : Machine} (h : G.Keeps m.store run)
    (hm : G.Beside m m') (hn : n ≤ n') {r : Except Fault α × Machine}
    (hr : (run n m).end? = some r) :
    m.store.Grows r.2.store ∧ ∃ k, (run n' m').end? = some (r.1, k) ∧ G.Beside r.2 k := by
  obtain ⟨A, h⟩ := h
  have h := h n n' hn m m' (.refl _) hm
  generalize run n m = o at h hr
  generalize run n' m' = o' at h
  cases h with
  | done hg hm _ =>
    cases hr
    exact ⟨hg, _, rfl, hm⟩
  | failed hg hm =>
    cases hr
    exact ⟨hg, _, rfl, hm⟩
  | unfinished => cases hr

theorem Discipline.Keeps.machine {run : Nat → Eval α} {m m' : Machine} (h : G.Keeps m.store run)
    (hm : G.Beside m m') (n : Nat) :
    m.store.Grows (run n m).machine.store ∧ ∃ k, G.Beside (run n m).machine k := by
  obtain ⟨A, h⟩ := h
  have h := h n n (Nat.le_refl n) m m' (.refl _) hm
  generalize run n m = o at h
  generalize run n m' = o' at h
  cases h with
  | done hg hm _ => exact ⟨hg, _, hm⟩
  | failed hg hm => exact ⟨hg, _, hm⟩
  | unfinished _ hg hm => exact ⟨hg, _, hm⟩

end Naskah
