import Naskah.Proofs.Machine.Conduct
import Naskah.Proofs.Machine.Discipline

/-!
# What a run does, moment by moment

A trace lists what a computation does, in order, with the machine as it is at
that moment: statements carried out, names bound, lines printed, calls made and
what they give back. It ends where the computation ends, and if the fuel runs
out it lists what was done until then. Between two moments a machine gets new,
empty scopes at most, so the machines of a trace and the last one show all that
was ever bound.

A property of computations with their traces that sequences keep is one of every
run. It is proved along with a conduct, which says what is known of trees and
values on the way.
-/

namespace Naskah

inductive Act where
  | carryOut (s : Stmt) (scope : ScopeId)
  | bind (name : String) (v : Value)
  | print (keyword : Token) (v : Value)
  | call (callee : Value) (args : List Value)
  | giveBack (v : Value)

def Act.line? : Act → Option String
  | .print _ v => some v.shown
  | _ => none

structure Moment where
  act : Act
  machine : Machine

abbrev Trace := Machine → List Moment

namespace Trace

def nothing : Trace := fun _ => []

def note (act : Act) (T : Trace) : Trace := fun m => ⟨act, m⟩ :: T m

/-- The trace of `e` and then, if it comes to a value, that of what follows. -/
def seq {α : Type} (e : Eval α) (T : Trace) (U : α → Trace) : Trace := fun m =>
  T m ++
    match e m with
    | .done a k => U a k
    | _ => []

end Trace

/-! ## Traces of trees -/

abbrev CallTrace := Value → List Value → Trace

mutual
def Expr.trace (call : Caller) (calls : CallTrace) (scope : ScopeId) : Expr → Trace
  | .literal _ _ => Trace.nothing
  | .name _ => Trace.nothing
  | .group e => e.trace call calls scope
  | .unary _ _ e => e.trace call calls scope
  | .binary _ _ e e' =>
    Trace.seq (e.eval call scope) (e.trace call calls scope) fun _ => e'.trace call calls scope
  | .logical op _ e e' =>
    Trace.seq (e.eval call scope) (e.trace call calls scope) fun v =>
      if op.settledBy v then Trace.nothing else e'.trace call calls scope
  | .call e es _ =>
    Trace.seq (e.eval call scope) (e.trace call calls scope) fun f =>
      Trace.seq (Expr.evals call scope es) (Expr.traces call calls scope es) fun vs => calls f vs
def Expr.traces (call : Caller) (calls : CallTrace) (scope : ScopeId) : List Expr → Trace
  | [] => Trace.nothing
  | e :: es =>
    Trace.seq (e.eval call scope) (e.trace call calls scope) fun _ =>
      Expr.traces call calls scope es
end

def repeatTrace (condition : Eval Bool) (body : Eval Flow) (T U : Trace) : Nat → Trace
  | 0 => Trace.nothing
  | n + 1 =>
    Trace.seq condition T fun c =>
      if c then
        Trace.seq body U fun flow =>
          match flow with
          | .normal => repeatTrace condition body T U n
          | .returned _ => Trace.nothing
      else Trace.nothing

mutual
def Stmt.trace (call : Caller) (calls : CallTrace) (fuel : Nat) : Stmt → ScopeId → Trace
  | .expression e, scope => e.trace call calls scope
  | .print t e, scope =>
    Trace.seq (e.eval call scope) (e.trace call calls scope) fun v =>
      Trace.note (.print t v) Trace.nothing
  | .declare t e, scope =>
    Trace.seq (e.eval call scope) (e.trace call calls scope) fun v =>
      Trace.note (.bind t.lexeme v) Trace.nothing
  | .assign t e, scope =>
    Trace.seq (e.eval call scope) (e.trace call calls scope) fun v =>
      Trace.note (.bind t.lexeme v) Trace.nothing
  | .block b, scope =>
    Trace.seq (Eval.child scope) Trace.nothing fun i => Stmt.traces call calls fuel b i
  | .branch e b o, scope =>
    Trace.seq (e.eval call scope) (e.trace call calls scope) fun v =>
      Trace.seq (Eval.child scope) Trace.nothing fun i =>
        if v.holds then Stmt.traces call calls fuel b i else Stmt.traces call calls fuel o i
  | .loop e b, scope =>
    repeatTrace
      (do
        let v ← e.eval call scope
        pure v.holds)
      (do
        let i ← Eval.child scope
        Stmt.execs call fuel b i)
      (e.trace call calls scope)
        (Trace.seq (Eval.child scope) Trace.nothing fun i => Stmt.traces call calls fuel b i) fuel
  | .function t ps b, scope =>
    Trace.seq (Eval.makeFunction scope t ps b) Trace.nothing fun f =>
      Trace.note (.bind t.lexeme f) Trace.nothing
  | .giveBack _ none, _ => Trace.nothing
  | .giveBack t (some e), scope =>
    Trace.seq (Eval.requireCall t) Trace.nothing fun _ => e.trace call calls scope
def Stmt.traces (call : Caller) (calls : CallTrace) (fuel : Nat) : List Stmt → ScopeId → Trace
  | [], _ => Trace.nothing
  | s :: ss, scope =>
    Trace.seq (s.exec call fuel scope)
      (Trace.note (.carryOut s scope) (s.trace call calls fuel scope)) fun flow =>
        match flow with
        | .normal => Stmt.traces call calls fuel ss scope
        | .returned _ => Trace.nothing
end

def bindTrace (scope : ScopeId) : List Token → List Value → Trace
  | p :: ps, v :: vs =>
    Trace.seq (Eval.define scope p.lexeme v) (Trace.note (.bind p.lexeme v) Trace.nothing) fun _ =>
      bindTrace scope ps vs
  | _, _ => Trace.nothing

def Flow.result : Flow → Value
  | .normal => .nil
  | .returned v => v

def callTrace (fuel : Nat) (call : Caller) (calls : CallTrace) (f : Closure)
    (args : List Value) : Trace :=
  if args.length = f.arity then fun m =>
    Trace.seq (Eval.child f.scope) Trace.nothing
      (fun i =>
        Trace.seq (bindParams i f.params args) (bindTrace i f.params args) fun _ =>
          Trace.seq (Stmt.execs call fuel f.body i)
            (Stmt.traces call calls fuel f.body i) fun flow =>
              Trace.note (.giveBack flow.result) Trace.nothing)
      { m with callDepth := m.callDepth + 1 }
  else Trace.nothing

def callTraceWithin : Nat → CallTrace
  | 0, _, _ => Trace.nothing
  | fuel + 1, callee, args =>
    Trace.note (.call callee args)
      (match callee with
      | .function f => callTrace fuel (callWithin fuel) (callTraceWithin fuel) f args
      | _ => Trace.nothing)

def Stmt.tracesWithin (fuel : Nat) (ss : List Stmt) (scope : ScopeId) : Trace :=
  Stmt.traces (callWithin fuel) (callTraceWithin fuel) fuel ss scope

/-! ## Steps that print nothing -/

def Machine.withOut (out : Sink) (m : Machine) : Machine := { m with out := out }

def Outcome.withOut {α : Type} (out : Sink) : Outcome α → Outcome α
  | .done a m => .done a (m.withOut out)
  | .failed f m => .failed f (m.withOut out)
  | @Outcome.unfinished _ m => @Outcome.unfinished _ (m.withOut out)

structure Eval.Quiet {α : Type} (e : Eval α) : Prop where
  blind : ∀ out m, e (m.withOut out) = (e m).withOut out
  depth : ∀ m, (e m).machine.callDepth = m.callDepth

namespace Eval

variable {α β : Type}

theorem Quiet.out {e : Eval α} (h : Quiet e) (m : Machine) : (e m).machine.out = m.out := by
  have hself := h.blind m.out m
  rw [show m.withOut m.out = m from rfl] at hself
  rw [hself]
  cases e m <;> rfl

theorem quiet_pure (a : α) : Quiet (pure a) := ⟨fun _ _ => rfl, fun _ => rfl⟩

theorem quiet_unfinished : Quiet (unfinished : Eval α) := ⟨fun _ _ => rfl, fun _ => rfl⟩

theorem quiet_fault (t : Token) (c : Cause) : Quiet (fault t c : Eval α) :=
  ⟨fun _ _ => rfl, fun _ => rfl⟩

theorem quiet_child (scope : ScopeId) : Quiet (child scope) := ⟨fun _ _ => rfl, fun _ => rfl⟩

theorem quiet_define (scope : ScopeId) (name : String) (v : Value) : Quiet (define scope name v) :=
  ⟨fun _ _ => rfl, fun _ => rfl⟩

theorem quiet_assignOrDefine (scope : ScopeId) (name : String) (v : Value) :
    Quiet (assignOrDefine scope name v) :=
  ⟨fun _ _ => rfl, fun _ => rfl⟩

theorem quiet_makeFunction (scope : ScopeId) (t : Token) (ps : List Token) (b : List Stmt) :
    Quiet (makeFunction scope t ps b) :=
  ⟨fun _ _ => rfl, fun _ => rfl⟩

theorem quiet_settle (t : Token) (r : Except Cause α) : Quiet (settle t r) := by
  cases r with
  | ok a => exact quiet_pure a
  | error c => exact quiet_fault t c

theorem quiet_lookup (scope : ScopeId) (t : Token) : Quiet (lookup scope t) where
  blind out m := by
    simp only [lookup, Machine.withOut]
    cases m.store.get? scope t.lexeme <;> rfl
  depth m := by
    unfold lookup
    cases m.store.get? scope t.lexeme <;> rfl

theorem quiet_requireCall (t : Token) : Quiet (requireCall t) where
  blind out m := by
    obtain ⟨store, _, diagnostics, depth, made⟩ := m
    cases depth <;> rfl
  depth m := by
    unfold requireCall
    split <;> rfl

end Eval

section
variable {α β : Type} {e : Eval α} {f : α → Eval β} {T : Trace} {U : α → Trace} {m k : Machine}
  {a : α} {g : Fault}

theorem Eval.bind_of_done (h : e m = .done a k) : (e >>= f) m = f a k := by
  simp only [Bind.bind, Eval.bind, h]

theorem Eval.bind_of_failed (h : e m = .failed g k) : (e >>= f) m = .failed g k := by
  simp only [Bind.bind, Eval.bind, h]

theorem Eval.bind_of_unfinished (h : e m = @Outcome.unfinished _ k) :
    (e >>= f) m = @Outcome.unfinished _ k := by
  simp only [Bind.bind, Eval.bind, h]

theorem Trace.seq_of_done (h : e m = .done a k) : Trace.seq e T U m = T m ++ U a k := by
  simp only [Trace.seq, h]

theorem Trace.seq_of_failed (h : e m = .failed g k) : Trace.seq e T U m = T m := by
  simp only [Trace.seq, h, List.append_nil]

theorem Trace.seq_of_unfinished (h : e m = @Outcome.unfinished _ k) : Trace.seq e T U m = T m := by
  simp only [Trace.seq, h, List.append_nil]

end

theorem Trace.seq_nothing {α : Type} (e : Eval α) (T : Trace) :
    Trace.seq e T (fun _ => Trace.nothing) = T := by
  funext m
  unfold Trace.seq Trace.nothing
  cases e m <;> exact List.append_nil _

/-! ## Computations with their traces -/

def Conduct.Lets (C : Conduct) (d : Nat) : Act → Prop
  | .carryOut s _ => C.Does d s
  | .bind _ v => C.Holds v
  | .print _ v => C.Holds v
  | .call f args => C.Holds f ∧ ∀ v ∈ args, C.Holds v
  | .giveBack v => C.Holds v

/-- A property of computations with their traces, proved along with a conduct. -/
structure Conduct.Telling (C : Conduct)
    (Ok : Nat → {α : Type} → (α → Prop) → Eval α → Trace → Prop) : Prop where
  quiet : ∀ {d} {α : Type} {P : α → Prop} {e : Eval α}, C.Ok d P e → e.Quiet →
    Ok d P e Trace.nothing
  bind : ∀ {d} {α β : Type} {P : α → Prop} {Q : β → Prop} {e : Eval α} {f : α → Eval β} {T : Trace}
    {U : α → Trace},
    Ok d P e T → (∀ a, P a → Ok d Q (f a) (U a)) → Ok d Q (e >>= f) (Trace.seq e T U)
  note : ∀ {d} {α : Type} {P : α → Prop} {e : Eval α} {T : Trace} act, act.line? = none →
    C.Lets d act → Ok d P e T → Ok d P e (Trace.note act T)
  print : ∀ {d t v}, C.Holds v → C.Ok d (fun _ => True) (Eval.printLine t v.shown) →
    Ok d (fun _ => True) (Eval.printLine t v.shown) (Trace.note (.print t v) Trace.nothing)
  duringCall : ∀ {d} {e : Eval Value} {T : Trace}, Ok (d + 1) C.Holds e T →
    Ok d C.Holds (Eval.duringCall e) fun m => T { m with callDepth := m.callDepth + 1 }

variable {C : Conduct} {Ok : Nat → {α : Type} → (α → Prop) → Eval α → Trace → Prop} {call : Caller}
  {calls : CallTrace} {d : Nat}

section
open Eval
variable (hC : C.Laws) (hT : C.Telling Ok)

def Conduct.Tells (C : Conduct) (Ok : Nat → {α : Type} → (α → Prop) → Eval α → Trace → Prop)
    (d : Nat) (call : Caller) (calls : CallTrace) : Prop :=
  ∀ v vs paren, C.Holds v → (∀ w ∈ vs, C.Holds w) → C.Closes paren →
    Ok d C.Holds (call v vs paren) (calls v vs)

include hC hT

theorem told_pure {α : Type} {P : α → Prop} {a : α} (h : P a) : Ok d P (pure a) Trace.nothing :=
  hT.quiet (hC.pure h) (quiet_pure a)

omit hC in
theorem told_then {α β : Type} {P : α → Prop} {Q : β → Prop} {e : Eval α}
    {f : α → Eval β} {T : Trace} (he : Ok d P e T) (hf : ∀ a, P a → Ok d Q (f a) Trace.nothing) :
    Ok d Q (e >>= f) T := by
  rw [← Trace.seq_nothing e T]
  exact hT.bind he hf

theorem told_map {α β : Type} {P : α → Prop} {Q : β → Prop} {e : Eval α} {T : Trace}
    (he : Ok d P e T) (g : α → β) (hg : ∀ a, P a → Q (g a)) :
    Ok d Q (e >>= fun a => pure (g a)) T :=
  told_then hT he fun a ha => told_pure hC hT (hg a ha)

theorem told_bind {name : String} {v : Value} {e : Eval Unit} (hv : C.Holds v)
    (he : C.Ok d (fun _ => True) e) (hquiet : e.Quiet) :
    Ok d C.HoldsFlow (e >>= fun _ => pure .normal) (Trace.note (.bind name v) Trace.nothing) :=
  told_map hC hT (hT.note (.bind name v) rfl hv (hT.quiet he hquiet)) _ fun _ _ => trivial

/-! ### Expressions -/

mutual
theorem Expr.eval_told (hcall : C.Tells Ok d call calls) (scope : ScopeId) :
    ∀ e : Expr, C.Reads e → Ok d C.Holds (e.eval call scope) (e.trace call calls scope)
  | .literal _ _, h => told_pure hC hT (hC.literal h)
  | .name _, h => hT.quiet (hC.name h scope) (quiet_lookup scope _)
  | .group e, h => e.eval_told hcall scope (hC.group h)
  | .unary op t e, h => by
    obtain ⟨he, hsettle⟩ := hC.unary h
    apply told_then hT (e.eval_told hcall scope he)
    intro v hv
    exact hT.quiet (hsettle v hv) (quiet_settle t _)
  | .binary op t e e', h => by
    obtain ⟨he, he', hsettle⟩ := hC.binary h
    apply hT.bind (e.eval_told hcall scope he)
    intro v hv
    apply told_then hT (e'.eval_told hcall scope he')
    intro w hw
    exact hT.quiet (hsettle v w hv hw) (quiet_settle t _)
  | .logical op t e e', h => by
    obtain ⟨he, he'⟩ := hC.logical h
    apply hT.bind (e.eval_told hcall scope he)
    intro v hv
    split
    · exact told_pure hC hT hv
    · exact e'.eval_told hcall scope he'
  | .call e es t, h => by
    obtain ⟨he, hes, ht⟩ := hC.arguments h
    apply hT.bind (e.eval_told hcall scope he)
    intro v hv
    apply hT.bind (Expr.evals_told hcall scope es hes)
    intro vs hvs
    exact hcall v vs t hv hvs ht
theorem Expr.evals_told (hcall : C.Tells Ok d call calls) (scope : ScopeId) :
    ∀ es : List Expr, (∀ e ∈ es, C.Reads e) →
      Ok d (fun vs => ∀ v ∈ vs, C.Holds v) (Expr.evals call scope es)
        (Expr.traces call calls scope es)
  | [], _ => told_pure hC hT (by simp)
  | e :: es, h => by
    obtain ⟨he, hes⟩ := List.forall_mem_cons.mp h
    apply hT.bind (e.eval_told hcall scope he)
    intro v hv
    apply told_map hC hT (Expr.evals_told hcall scope es hes)
    intro vs hvs
    exact List.forall_mem_cons.mpr ⟨hv, hvs⟩
end

/-! ### Statements -/

theorem repeatWhile_told {condition : Eval Bool} {body : Eval Flow} {T U : Trace}
    (hc : Ok d (fun _ => True) condition T) (hb : Ok d C.HoldsFlow body U) :
    ∀ n, Ok d C.HoldsFlow (repeatWhile condition body n) (repeatTrace condition body T U n)
  | 0 => hT.quiet hC.unfinished quiet_unfinished
  | n + 1 => by
    apply hT.bind hc
    intro c _
    split
    · apply hT.bind hb
      intro flow hflow
      cases flow with
      | normal => exact repeatWhile_told hc hb n
      | returned v => exact told_pure hC hT hflow
    · exact told_pure hC hT trivial

mutual
theorem Stmt.exec_told (hcall : C.Tells Ok d call calls) (n : Nat) :
    ∀ (s : Stmt) (scope : ScopeId), C.Does d s →
    Ok d C.HoldsFlow (s.exec call n scope) (s.trace call calls n scope)
  | .expression e, scope, h =>
    told_map hC hT (e.eval_told hC hT hcall scope (hC.expression h)) _ fun _ _ => trivial
  | .print t e, scope, h => by
    obtain ⟨he, hprint⟩ := hC.print h
    apply hT.bind (e.eval_told hC hT hcall scope he)
    intro v hv
    exact told_map hC hT (hT.print hv (hprint v hv)) _ fun _ _ => trivial
  | .declare t e, scope, h => by
    obtain ⟨he, hdefine⟩ := hC.declare h
    apply hT.bind (e.eval_told hC hT hcall scope he)
    intro v hv
    exact told_bind hC hT hv (hdefine scope v hv) (quiet_define scope _ v)
  | .assign t e, scope, h => by
    obtain ⟨he, hassign⟩ := hC.assign h
    apply hT.bind (e.eval_told hC hT hcall scope he)
    intro v hv
    exact told_bind hC hT hv (hassign scope v hv) (quiet_assignOrDefine scope _ v)
  | .block b, scope, h => by
    apply hT.bind (hT.quiet (hC.child d scope) (quiet_child scope))
    intro i _
    exact Stmt.execs_told hcall n b i (hC.block h)
  | .branch e b o, scope, h => by
    obtain ⟨he, hb, ho⟩ := hC.branch h
    apply hT.bind (e.eval_told hC hT hcall scope he)
    intro v _
    apply hT.bind (hT.quiet (hC.child d scope) (quiet_child scope))
    intro i _
    split
    · exact Stmt.execs_told hcall n b i hb
    · exact Stmt.execs_told hcall n o i ho
  | .loop e b, scope, h => by
    obtain ⟨he, hb⟩ := hC.loop h
    apply repeatWhile_told hC hT
    · exact told_map hC hT (e.eval_told hC hT hcall scope he) _ fun _ _ => trivial
    · apply hT.bind (hT.quiet (hC.child d scope) (quiet_child scope))
      intro i _
      exact Stmt.execs_told hcall n b i hb
  | .function t ps b, scope, h => by
    obtain ⟨hmake, hdefine⟩ := hC.function h scope
    rw [Stmt.exec, Stmt.trace]
    apply hT.bind (hT.quiet hmake (quiet_makeFunction scope t ps b))
    intro v hv
    exact told_bind hC hT hv (hdefine v hv) (quiet_define scope _ v)
  | .giveBack t none, scope, h => by
    apply told_map hC hT (hT.quiet (hC.giveBack h).1 (quiet_requireCall t))
    intro _ _
    exact hC.giveNothing
  | .giveBack t (some e), scope, h => by
    obtain ⟨hrequire, he⟩ := hC.giveBack h
    apply hT.bind (hT.quiet hrequire (quiet_requireCall t))
    intro _ _
    exact told_map hC hT (e.eval_told hC hT hcall scope (he e rfl)) _ fun _ hv => hv
theorem Stmt.execs_told (hcall : C.Tells Ok d call calls) (n : Nat) :
    ∀ (ss : List Stmt) (scope : ScopeId), (∀ s ∈ ss, C.Does d s) →
      Ok d C.HoldsFlow (Stmt.execs call n ss scope) (Stmt.traces call calls n ss scope)
  | [], _, _ => told_pure hC hT trivial
  | s :: ss, scope, h => by
    obtain ⟨hs, hss⟩ := List.forall_mem_cons.mp h
    apply hT.bind (hT.note (.carryOut s scope) rfl hs (s.exec_told hcall n scope hs))
    intro flow hflow
    cases flow with
    | normal => exact Stmt.execs_told hcall n ss scope hss
    | returned v => exact told_pure hC hT hflow
end

/-! ### Calls -/

theorem bindParams_told (scope : ScopeId) : ∀ (ps : List Token) (vs : List Value),
    (∀ p ∈ ps, ∀ v, C.Holds v → C.Ok d (fun _ => True) (Eval.define scope p.lexeme v)) →
    (∀ v ∈ vs, C.Holds v) →
      Ok d (fun _ => True) (bindParams scope ps vs) (bindTrace scope ps vs)
  | [], _, _, _ => told_pure hC hT trivial
  | _ :: _, [], _, _ => told_pure hC hT trivial
  | p :: ps, v :: vs, hps, hvs => by
    obtain ⟨hp, hps⟩ := List.forall_mem_cons.mp hps
    obtain ⟨hv, hvs⟩ := List.forall_mem_cons.mp hvs
    apply hT.bind (hT.note (.bind p.lexeme v) rfl hv (hT.quiet (hp v hv) (quiet_define scope _ v)))
    intro _ _
    exact bindParams_told scope ps vs hps hvs

theorem callFunction_told (hcall : C.Tells Ok (d + 1) call calls) (n : Nat) {f : Closure}
    {vs : List Value} {paren : Token} (hf : C.Holds (.function f)) (hvs : ∀ v ∈ vs, C.Holds v)
    (hparen : C.Closes paren) :
    Ok d C.Holds (callFunction n call f vs paren) (callTrace n call calls f vs) := by
  unfold callFunction callTrace
  split
  · apply hT.duringCall
    apply hT.bind (hT.quiet (hC.child (d + 1) f.scope) (quiet_child f.scope))
    intro i _
    apply hT.bind
      (bindParams_told hC hT i f.params vs (fun p hp v hv => hC.param hf p hp (d + 1) i v hv) hvs)
    intro _ _
    apply hT.bind (Stmt.execs_told hC hT hcall n f.body i (hC.body hf d))
    intro flow hflow
    cases flow with
    | normal => exact hT.note (.giveBack .nil) rfl hC.giveNothing (told_pure hC hT hC.giveNothing)
    | returned v => exact hT.note (.giveBack v) rfl hflow (told_pure hC hT hflow)
  · exact hT.quiet (hC.argumentCount hparen _ _) (quiet_fault paren _)

theorem callWithin_told : ∀ n d, C.Tells Ok d (callWithin n) (callTraceWithin n)
  | 0, _ => fun _ _ _ _ _ _ => hT.quiet hC.unfinished quiet_unfinished
  | n + 1, d => by
    intro v vs paren hv hvs hparen
    apply hT.note (.call v vs) rfl ⟨hv, hvs⟩
    cases v with
    | function f => exact callFunction_told hC hT (callWithin_told n (d + 1)) n hv hvs hparen
    | _ => exact hT.quiet (hC.notCallable hparen) (quiet_fault paren _)

theorem Stmt.execsWithin_told {ss : List Stmt} (h : ∀ s ∈ ss, C.Does d s) (n : Nat)
    (scope : ScopeId) :
    Ok d C.HoldsFlow (Stmt.execsWithin n ss scope) (Stmt.tracesWithin n ss scope) :=
  Stmt.execs_told hC hT (callWithin_told hC hT n d) n ss scope h

end

/-! ## Moments of a conduct -/

def Conduct.Shows (C : Conduct) (I : Machine → Prop) (x : Moment) : Prop :=
  I x.machine ∧ ∃ d, C.Lets d x.act

/-- A conduct that keeps an invariant of machines keeps it at every moment. -/
theorem Conduct.telling_shows (hC : C.Laws) {I : Machine → Prop}
    (hkeep : ∀ {d} {α : Type} {P : α → Prop} {e : Eval α} {m a k}, C.Ok d P e → I m →
      e m = .done a k → I k ∧ P a)
    (hopen : ∀ m, I m → I { m with callDepth := m.callDepth + 1 }) :
    C.Telling fun d _ P e T => C.Ok d P e ∧ ∀ m, I m → ∀ x ∈ T m, C.Shows I x where
  quiet he _ := ⟨he, fun _ _ _ hx => by cases hx⟩
  bind {d α β P Q e f T U} he hf := by
    refine ⟨hC.bind he.1 fun a ha => (hf a ha).1, fun m hm x hx => ?_⟩
    cases hend : e m with
    | done a k =>
      rw [Trace.seq_of_done hend] at hx
      rcases List.mem_append.mp hx with hx | hx
      · exact he.2 m hm x hx
      · obtain ⟨hk, ha⟩ := hkeep he.1 hm hend
        exact (hf a ha).2 k hk x hx
    | failed => rw [Trace.seq_of_failed hend] at hx; exact he.2 m hm x hx
    | unfinished => rw [Trace.seq_of_unfinished hend] at hx; exact he.2 m hm x hx
  note {d _ _ _ _} act _ hact he := by
    refine ⟨he.1, fun m hm x hx => ?_⟩
    rcases List.mem_cons.mp hx with rfl | hx
    · exact ⟨hm, d, hact⟩
    · exact he.2 m hm x hx
  print {d _ _} hv he := by
    refine ⟨he, fun m hm x hx => ?_⟩
    obtain rfl := List.mem_singleton.mp hx
    exact ⟨hm, d, hv⟩
  duringCall he := ⟨hC.duringCall he.1, fun m hm => he.2 _ (hopen m hm)⟩

end Naskah
