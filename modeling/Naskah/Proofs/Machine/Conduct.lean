import Naskah.Machine.Run

/-!
# The conduct of computations

Expressions, statements and calls are a few steps put one behind the other. So
a property of computations that the steps have and that sequences keep is one
of every run. A conduct is such a property, said of a computation together
with what is known of the value it ends with. It may ask something of the
values met and of the trees carried out, and it may depend on how many calls
are open. There is one law for each form of tree, which hands on to the parts
what is asked of the whole.
-/

namespace Naskah

structure Conduct where
  /-- Computations with so many calls open, and what is known of their values. -/
  Ok : Nat → {α : Type} → (α → Prop) → Eval α → Prop
  /-- Values that may be met. -/
  Holds : Value → Prop
  /-- Expressions that may be evaluated. -/
  Reads : Expr → Prop
  /-- Statements that may be carried out with so many calls open. -/
  Does : Nat → Stmt → Prop
  /-- Parentheses that may close the arguments of a call. -/
  Closes : Token → Prop

/-- The steps are as the conduct asks, and what it asks of a tree it asks of the parts. -/
structure Conduct.Laws (C : Conduct) : Prop where
  pure : ∀ {d} {α : Type} {P : α → Prop} {a}, P a → C.Ok d P (Pure.pure a)
  bind : ∀ {d} {α β : Type} {P : α → Prop} {Q : β → Prop} {e : Eval α} {f : α → Eval β},
    C.Ok d P e → (∀ a, P a → C.Ok d Q (f a)) → C.Ok d Q (e >>= f)
  unfinished : ∀ {d} {α : Type} {P : α → Prop}, C.Ok d P (Eval.unfinished : Eval α)
  child : ∀ d scope, C.Ok d (fun _ => True) (Eval.child scope)
  -- expressions
  literal : ∀ {v line}, C.Reads (.literal v line) → C.Holds (.ofLiteral v)
  name : ∀ {d t}, C.Reads (.name t) → ∀ scope, C.Ok d C.Holds (Eval.lookup scope t)
  group : ∀ {e}, C.Reads (.group e) → C.Reads e
  unary : ∀ {d op t e}, C.Reads (.unary op t e) → C.Reads e ∧
    ∀ v, C.Holds v → C.Ok d C.Holds (Eval.settle t (op.apply v))
  binary : ∀ {d op t e e'}, C.Reads (.binary op t e e') → C.Reads e ∧ C.Reads e' ∧
    ∀ v w, C.Holds v → C.Holds w → C.Ok d C.Holds (Eval.settle t (op.apply v w))
  logical : ∀ {op t e e'}, C.Reads (.logical op t e e') → C.Reads e ∧ C.Reads e'
  arguments : ∀ {e es t}, C.Reads (.call e es t) → C.Reads e ∧ (∀ e ∈ es, C.Reads e) ∧ C.Closes t
  -- statements
  expression : ∀ {d e}, C.Does d (.expression e) → C.Reads e
  print : ∀ {d t e}, C.Does d (.print t e) → C.Reads e ∧
    ∀ v, C.Holds v → C.Ok d (fun _ => True) (Eval.printLine t v.shown)
  declare : ∀ {d t e}, C.Does d (.declare t e) → C.Reads e ∧
    ∀ scope v, C.Holds v → C.Ok d (fun _ => True) (Eval.define scope t.lexeme v)
  assign : ∀ {d t e}, C.Does d (.assign t e) → C.Reads e ∧
    ∀ scope v, C.Holds v → C.Ok d (fun _ => True) (Eval.assignOrDefine scope t.lexeme v)
  block : ∀ {d b}, C.Does d (.block b) → ∀ s ∈ b, C.Does d s
  branch : ∀ {d e b o}, C.Does d (.branch e b o) → C.Reads e ∧ (∀ s ∈ b, C.Does d s) ∧
    ∀ s ∈ o, C.Does d s
  loop : ∀ {d e b}, C.Does d (.loop e b) → C.Reads e ∧ ∀ s ∈ b, C.Does d s
  function : ∀ {d t ps b}, C.Does d (.function t ps b) → ∀ scope,
    C.Ok d C.Holds (Eval.makeFunction scope t ps b) ∧
    ∀ v, C.Holds v → C.Ok d (fun _ => True) (Eval.define scope t.lexeme v)
  giveBack : ∀ {d t value}, C.Does d (.giveBack t value) →
    C.Ok d (fun _ => True) (Eval.requireCall t) ∧ ∀ e, value = some e → C.Reads e
  giveNothing : C.Holds .nil
  -- calls
  param : ∀ {f}, C.Holds (.function f) → ∀ p ∈ f.params, ∀ d scope v, C.Holds v →
    C.Ok d (fun _ => True) (Eval.define scope p.lexeme v)
  body : ∀ {f}, C.Holds (.function f) → ∀ d, ∀ s ∈ f.body, C.Does (d + 1) s
  duringCall : ∀ {d} {e : Eval Value}, C.Ok (d + 1) C.Holds e → C.Ok d C.Holds (Eval.duringCall e)
  notCallable : ∀ {d t}, C.Closes t → C.Ok d C.Holds (Eval.fault t .notCallable)
  argumentCount : ∀ {d t}, C.Closes t → ∀ expected found,
    C.Ok d C.Holds (Eval.fault t (.argumentCount expected found))

variable {C : Conduct} {call : Caller} {d : Nat}

def Conduct.Calls (C : Conduct) (d : Nat) (call : Caller) : Prop :=
  ∀ v vs paren, C.Holds v → (∀ w ∈ vs, C.Holds w) → C.Closes paren →
    C.Ok d C.Holds (call v vs paren)

def Conduct.HoldsFlow (C : Conduct) : Flow → Prop
  | .normal => True
  | .returned v => C.Holds v

section
variable (hC : C.Laws)
include hC

/-! ## Expressions -/

mutual
theorem Expr.eval_ok (hcall : C.Calls d call) (scope : ScopeId) :
    ∀ e : Expr, C.Reads e → C.Ok d C.Holds (e.eval call scope)
  | .literal _ _, h => hC.pure (hC.literal h)
  | .name _, h => hC.name h scope
  | .group e, h => e.eval_ok hcall scope (hC.group h)
  | .unary op t e, h => by
    obtain ⟨he, hsettle⟩ := hC.unary h
    exact hC.bind (e.eval_ok hcall scope he) hsettle
  | .binary op t e e', h => by
    obtain ⟨he, he', hsettle⟩ := hC.binary h
    apply hC.bind (e.eval_ok hcall scope he)
    intro v hv
    apply hC.bind (e'.eval_ok hcall scope he')
    intro w hw
    exact hsettle v w hv hw
  | .logical op t e e', h => by
    obtain ⟨he, he'⟩ := hC.logical h
    apply hC.bind (e.eval_ok hcall scope he)
    intro v hv
    split
    · exact hC.pure hv
    · exact e'.eval_ok hcall scope he'
  | .call e es t, h => by
    obtain ⟨he, hes, ht⟩ := hC.arguments h
    apply hC.bind (e.eval_ok hcall scope he)
    intro v hv
    apply hC.bind (Expr.evals_ok hcall scope es hes)
    intro vs hvs
    exact hcall v vs t hv hvs ht
theorem Expr.evals_ok (hcall : C.Calls d call) (scope : ScopeId) :
    ∀ es : List Expr, (∀ e ∈ es, C.Reads e) →
    C.Ok d (fun vs => ∀ v ∈ vs, C.Holds v) (Expr.evals call scope es)
  | [], _ => hC.pure (by simp)
  | e :: es, h => by
    obtain ⟨he, hes⟩ := List.forall_mem_cons.mp h
    apply hC.bind (e.eval_ok hcall scope he)
    intro v hv
    apply hC.bind (Expr.evals_ok hcall scope es hes)
    intro vs hvs
    exact hC.pure (List.forall_mem_cons.mpr ⟨hv, hvs⟩)
end

/-! ## Statements -/

theorem repeatWhile_ok {condition : Eval Bool} {body : Eval Flow}
    (hc : C.Ok d (fun _ => True) condition) (hb : C.Ok d C.HoldsFlow body) :
    ∀ n, C.Ok d C.HoldsFlow (repeatWhile condition body n)
  | 0 => hC.unfinished
  | n + 1 => by
    apply hC.bind hc
    intro c _
    split
    · apply hC.bind hb
      intro flow hflow
      cases flow with
      | normal => exact repeatWhile_ok hc hb n
      | returned v => exact hC.pure hflow
    · exact hC.pure trivial

mutual
theorem Stmt.exec_ok (hcall : C.Calls d call) (n : Nat) :
    ∀ (s : Stmt) (scope : ScopeId), C.Does d s → C.Ok d C.HoldsFlow (s.exec call n scope)
  | .expression e, scope, h =>
    hC.bind (e.eval_ok hC hcall scope (hC.expression h)) fun _ _ => hC.pure trivial
  | .print t e, scope, h => by
    obtain ⟨he, hprint⟩ := hC.print h
    apply hC.bind (e.eval_ok hC hcall scope he)
    intro v hv
    exact hC.bind (hprint v hv) fun _ _ => hC.pure trivial
  | .declare t e, scope, h => by
    obtain ⟨he, hdefine⟩ := hC.declare h
    apply hC.bind (e.eval_ok hC hcall scope he)
    intro v hv
    exact hC.bind (hdefine scope v hv) fun _ _ => hC.pure trivial
  | .assign t e, scope, h => by
    obtain ⟨he, hassign⟩ := hC.assign h
    apply hC.bind (e.eval_ok hC hcall scope he)
    intro v hv
    exact hC.bind (hassign scope v hv) fun _ _ => hC.pure trivial
  | .block b, scope, h =>
    hC.bind (hC.child d scope) fun i _ => Stmt.execs_ok hcall n b i (hC.block h)
  | .branch e b o, scope, h => by
    obtain ⟨he, hb, ho⟩ := hC.branch h
    apply hC.bind (e.eval_ok hC hcall scope he)
    intro v _
    apply hC.bind (hC.child d scope)
    intro i _
    split
    · exact Stmt.execs_ok hcall n b i hb
    · exact Stmt.execs_ok hcall n o i ho
  | .loop e b, scope, h => by
    obtain ⟨he, hb⟩ := hC.loop h
    apply repeatWhile_ok hC
    · exact hC.bind (e.eval_ok hC hcall scope he) fun _ _ => hC.pure trivial
    · exact hC.bind (hC.child d scope) fun i _ => Stmt.execs_ok hcall n b i hb
  | .function t ps b, scope, h => by
    obtain ⟨hmake, hdefine⟩ := hC.function h scope
    apply hC.bind hmake
    intro v hv
    exact hC.bind (hdefine v hv) fun _ _ => hC.pure trivial
  | .giveBack t none, scope, h =>
    hC.bind (hC.giveBack h).1 fun _ _ => hC.pure hC.giveNothing
  | .giveBack t (some e), scope, h => by
    obtain ⟨hrequire, he⟩ := hC.giveBack h
    apply hC.bind hrequire
    intro _ _
    exact hC.bind (e.eval_ok hC hcall scope (he e rfl)) fun _ hv => hC.pure hv
theorem Stmt.execs_ok (hcall : C.Calls d call) (n : Nat) :
    ∀ (ss : List Stmt) (scope : ScopeId), (∀ s ∈ ss, C.Does d s) →
    C.Ok d C.HoldsFlow (Stmt.execs call n ss scope)
  | [], _, _ => hC.pure trivial
  | s :: ss, scope, h => by
    obtain ⟨hs, hss⟩ := List.forall_mem_cons.mp h
    apply hC.bind (s.exec_ok hcall n scope hs)
    intro flow hflow
    cases flow with
    | normal => exact Stmt.execs_ok hcall n ss scope hss
    | returned v => exact hC.pure hflow
end

/-! ## Calls -/

theorem bindParams_ok (scope : ScopeId) : ∀ (ps : List Token) (vs : List Value),
    (∀ p ∈ ps, ∀ v, C.Holds v → C.Ok d (fun _ => True) (Eval.define scope p.lexeme v)) →
    (∀ v ∈ vs, C.Holds v) →
      C.Ok d (fun _ => True) (bindParams scope ps vs)
  | [], _, _, _ => hC.pure trivial
  | _ :: _, [], _, _ => hC.pure trivial
  | p :: ps, v :: vs, hps, hvs => by
    obtain ⟨hp, hps⟩ := List.forall_mem_cons.mp hps
    obtain ⟨hv, hvs⟩ := List.forall_mem_cons.mp hvs
    exact hC.bind (hp v hv) fun _ _ => bindParams_ok scope ps vs hps hvs

theorem callFunction_ok (hcall : C.Calls (d + 1) call) (n : Nat) {f : Closure} {vs : List Value}
    {paren : Token} (hf : C.Holds (.function f)) (hvs : ∀ v ∈ vs, C.Holds v)
    (hparen : C.Closes paren) :
    C.Ok d C.Holds (callFunction n call f vs paren) := by
  unfold callFunction
  split
  · apply hC.duringCall
    apply hC.bind (hC.child (d + 1) f.scope)
    intro i _
    apply hC.bind
      (bindParams_ok hC i f.params vs (fun p hp v hv => hC.param hf p hp (d + 1) i v hv) hvs)
    intro _ _
    apply hC.bind (Stmt.execs_ok hC hcall n f.body i (hC.body hf d))
    intro flow hflow
    cases flow with
    | normal => exact hC.pure hC.giveNothing
    | returned v => exact hC.pure hflow
  · exact hC.argumentCount hparen _ _

theorem callWithin_ok : ∀ n d, C.Calls d (callWithin n)
  | 0, _ => fun _ _ _ _ _ _ => hC.unfinished
  | n + 1, d => by
    intro v vs paren hv hvs hparen
    cases v with
    | function f => exact callFunction_ok hC (callWithin_ok n (d + 1)) n hv hvs hparen
    | _ => exact hC.notCallable hparen

theorem Expr.evalWithin_ok {e : Expr} (h : C.Reads e) (n d : Nat) (scope : ScopeId) :
    C.Ok d C.Holds (e.evalWithin n scope) :=
  e.eval_ok hC (callWithin_ok hC n d) scope h

theorem Stmt.execWithin_ok {s : Stmt} (h : C.Does d s) (n : Nat) (scope : ScopeId) :
    C.Ok d C.HoldsFlow (s.execWithin n scope) :=
  s.exec_ok hC (callWithin_ok hC n d) n scope h

theorem Stmt.execsWithin_ok {ss : List Stmt} (h : ∀ s ∈ ss, C.Does d s) (n : Nat)
    (scope : ScopeId) : C.Ok d C.HoldsFlow (Stmt.execsWithin n ss scope) :=
  Stmt.execs_ok hC (callWithin_ok hC n d) n ss scope h

end

/-! ## Invariants of machines and faults -/

theorem UnaryOp.apply_error {op : UnaryOp} {v : Value} {c : Cause} (h : op.apply v = .error c) :
    op = .negate ∧ c = .negated v.kind := by
  unfold UnaryOp.apply at h
  split at h <;> cases h
  exact ⟨rfl, rfl⟩

theorem BinaryOp.apply_error {op : BinaryOp} {v w : Value} {c : Cause}
    (h : op.apply v w = .error c) : c = .operands op v.kind w.kind := by
  unfold BinaryOp.apply at h
  split at h <;> cases h
  rfl

variable {α β : Type} {I J : Machine → Prop} {F : Fault → Prop} {P : α → Prop} {Q : β → Prop}

/-- What holds of the machine at an end, `I`, or where the fuel runs out, `J`, and of the fault or value. -/
def Outcome.Meets (I J : Machine → Prop) (F : Fault → Prop) (P : α → Prop) : Outcome α → Prop
  | .done a m => I m ∧ P a
  | .failed f m => I m ∧ F f
  | @Outcome.unfinished _ m => J m

namespace Eval

def Meets (I J : Machine → Prop) (F : Fault → Prop) (P : α → Prop) (e : Eval α) : Prop :=
  ∀ m, I m → (e m).Meets I J F P

theorem meets_pure {a : α} (h : P a) : Meets I J F P (pure a) :=
  fun _ hm => ⟨hm, h⟩

theorem meets_unfinished (h : ∀ m, I m → J m) : Meets I J F P unfinished :=
  fun m hm => h m hm

theorem Meets.bind {e : Eval α} {f : α → Eval β} (he : Meets I J F P e)
    (hf : ∀ a, P a → Meets I J F Q (f a)) : Meets I J F Q (e >>= f) := by
  intro m hm
  have h := he m hm
  simp only [Bind.bind, Eval.bind]
  generalize e m = o at h ⊢
  cases o with
  | done a k => exact hf a h.2 k h.1
  | failed f k => exact h
  | unfinished => exact h

theorem meets_fault {t : Token} {c : Cause} (h : F ⟨t, c⟩) : Meets I J F P (fault t c) :=
  fun _ hm => ⟨hm, h⟩

theorem meets_settle {t : Token} {r : Except Cause α} (hok : ∀ a, r = .ok a → P a)
    (herror : ∀ c, r = .error c → F ⟨t, c⟩) : Meets I J F P (settle t r) := by
  cases r with
  | ok a => exact meets_pure (hok a rfl)
  | error c => exact meets_fault (herror c rfl)

theorem meets_lookup {P : Value → Prop} {scope : ScopeId} {t : Token}
    (hfound : ∀ m v, I m → m.store.get? scope t.lexeme = some v → P v)
    (hnone : F ⟨t, .undefinedVariable⟩) :
    Meets I J F P (lookup scope t) := by
  intro m hm
  unfold lookup
  cases hv : m.store.get? scope t.lexeme with
  | none => exact ⟨hm, hnone⟩
  | some v => exact ⟨hm, hfound m v hm hv⟩

theorem meets_printLine {t : Token} {text : String} (hI : ∀ m out, I m → I { m with out })
    (hfull : F ⟨t, .output Sink.closedReason⟩) :
    Meets I J F (fun _ => True) (printLine t text) := by
  intro m hm
  simp only [printLine]
  split
  · exact ⟨hI m _ hm, trivial⟩
  · exact ⟨hI m _ hm, hfull⟩

theorem meets_requireCall {t : Token}
    (h : ∀ m, I m → m.callDepth = 0 → F ⟨t, .returnOutsideFunction⟩) :
    Meets I J F (fun _ => True) (requireCall t) := by
  intro m hm
  unfold requireCall
  split
  · exact ⟨hm, h m hm ‹_›⟩
  · exact ⟨hm, trivial⟩

/-- What is known of the body with one more call open is known of the call with it closed. -/
theorem Meets.duringCall {I' J' : Machine → Prop} {F' : Fault → Prop} {e : Eval α}
    (he : Meets I' J' F' P e) (hopen : ∀ m, I m → I' { m with callDepth := m.callDepth + 1 })
    (hclose : ∀ m, I' m → I { m with callDepth := m.callDepth - 1 }) (hstop : ∀ m, J' m → J m)
    (hfault : ∀ f, F' f → F f) : Meets I J F P (Eval.duringCall e) := by
  intro m hm
  have h := he { m with callDepth := m.callDepth + 1 } (hopen m hm)
  unfold Eval.duringCall
  generalize e _ = o at h ⊢
  cases o with
  | done a k => exact ⟨hclose k h.1, h.2⟩
  | failed f k => exact ⟨hclose k h.1, hfault f h.2⟩
  | unfinished => exact hstop _ h

end Eval

end Naskah
