import Naskah.Proofs.Machine.Discipline

/-!
# Parentheses

A group in parentheses has the value of what stands inside, and no message
names its parentheses. But a function keeps its body as it was written, so two
programs that differ in groups leave different functions in their scopes, and
call them. What carries through a run is that a machine whose functions are
stripped of groups does, with the stripped program, step by step what the
machine itself does, and is its stripped image at every end.
-/

namespace Naskah

/-! ## Trees without groups -/

mutual
def Expr.ungrouped : Expr → Expr
  | .literal v line => .literal v line
  | .name t => .name t
  | .group e => e.ungrouped
  | .unary op t e => .unary op t e.ungrouped
  | .binary op t e e' => .binary op t e.ungrouped e'.ungrouped
  | .logical op t e e' => .logical op t e.ungrouped e'.ungrouped
  | .call e es t => .call e.ungrouped (Expr.ungroupeds es) t
def Expr.ungroupeds : List Expr → List Expr
  | [] => []
  | e :: es => e.ungrouped :: Expr.ungroupeds es
end

mutual
def Stmt.ungrouped : Stmt → Stmt
  | .expression e => .expression e.ungrouped
  | .print t e => .print t e.ungrouped
  | .declare t e => .declare t e.ungrouped
  | .assign t e => .assign t e.ungrouped
  | .block b => .block (Stmt.ungroupeds b)
  | .branch e b o => .branch e.ungrouped (Stmt.ungroupeds b) (Stmt.ungroupeds o)
  | .loop e b => .loop e.ungrouped (Stmt.ungroupeds b)
  | .function t ps b => .function t ps (Stmt.ungroupeds b)
  | .giveBack t none => .giveBack t none
  | .giveBack t (some e) => .giveBack t (some e.ungrouped)
def Stmt.ungroupeds : List Stmt → List Stmt
  | [] => []
  | s :: ss => s.ungrouped :: Stmt.ungroupeds ss
end

/-! ## Values and scopes without groups -/

def Closure.ungrouped (f : Closure) : Closure := { f with body := Stmt.ungroupeds f.body }

def Value.ungrouped : Value → Value
  | .function f => .function f.ungrouped
  | v => v

def Bindings.ungrouped (bs : Bindings) : Bindings := bs.map fun b => (b.1, b.2.ungrouped)

def Frame.ungrouped (f : Frame) : Frame := { f with bindings := f.bindings.ungrouped }

def Store.ungrouped (s : Store) : Store := ⟨s.frames.map Frame.ungrouped⟩

def Machine.ungrouped (m : Machine) : Machine := { m with store := m.store.ungrouped }

namespace Value

variable (v w : Value)

@[simp] theorem holds_ungrouped : v.ungrouped.holds = v.holds := by cases v <;> rfl

@[simp] theorem shown_ungrouped : v.ungrouped.shown = v.shown := by cases v <;> rfl

/-- Functions are the same by their serial numbers, whatever their bodies. -/
@[simp] theorem same_ungrouped :
    v.ungrouped.same w.ungrouped = v.same w := by cases v <;> cases w <;> rfl

@[simp] theorem ungrouped_ofLiteral (l : Literal) :
    (Value.ofLiteral l).ungrouped = .ofLiteral l := by cases l <;> rfl

theorem ungrouped_of_kind {v : Value} (h : v.kind ≠ .function) : v.ungrouped = v := by
  cases v with
  | function f => exact absurd rfl h
  | _ => rfl

end Value

theorem UnaryOp.apply_ungrouped (op : UnaryOp) (v : Value) : op.apply v.ungrouped = op.apply v := by
  cases op <;> cases v <;> rfl

theorem BinaryOp.apply_ungrouped (op : BinaryOp) (v w : Value) :
    op.apply v.ungrouped w.ungrouped = op.apply v w := by
  have hsame := Value.same_ungrouped v w
  cases v with
  | function f => cases op <;> cases w <;> simp_all [BinaryOp.apply, Value.ungrouped, Value.kind]
  | _ =>
    cases w with
    | function g => cases op <;> simp_all [BinaryOp.apply, Value.ungrouped, Value.kind]
    | _ => rfl

theorem LogicalOp.settledBy_ungrouped (op : LogicalOp) (v : Value) :
    op.settledBy v.ungrouped = op.settledBy v := by
  cases op <;> simp [LogicalOp.settledBy]

theorem Bindings.ungrouped_insert (bs : Bindings) (n : String) (v : Value) :
    (bs.insert n v).ungrouped = bs.ungrouped.insert n v.ungrouped := by
  induction bs with
  | nil => rfl
  | cons b bs ih =>
    obtain ⟨k, w⟩ := b
    simp only [Bindings.ungrouped, List.map_cons, Bindings.insert] at ih ⊢
    by_cases hk : k = n
    · simp [hk]
    · simp [hk, ih]

theorem Bindings.get?_ungrouped (bs : Bindings) (n : String) :
    bs.ungrouped.get? n = (bs.get? n).map Value.ungrouped := by
  unfold Bindings.get?
  induction bs with
  | nil => rfl
  | cons b bs ih =>
    obtain ⟨k, w⟩ := b
    simp only [Bindings.ungrouped, List.map_cons, List.lookup_cons] at ih ⊢
    by_cases hk : (n == k) = true
    · simp [hk]
    · simp [hk, ih]

namespace Store

variable (s : Store) (i : ScopeId) (n : String) (v : Value)

theorem frames_ungrouped : s.ungrouped.frames[i]? = (s.frames[i]?).map Frame.ungrouped := by
  simp [ungrouped]

theorem here?_ungrouped : s.ungrouped.here? i n = (s.here? i n).map Value.ungrouped := by
  unfold here?
  rw [frames_ungrouped]
  cases s.frames[i]? with
  | none => rfl
  | some f => exact f.bindings.get?_ungrouped n

theorem parent?_ungrouped : s.ungrouped.parent? i = s.parent? i := by
  unfold parent?
  rw [frames_ungrouped]
  cases s.frames[i]? <;> rfl

theorem size_ungrouped : s.ungrouped.frames.size = s.frames.size := by
  simp [ungrouped]

theorem chainWithin_ungrouped (length : Nat) (i : ScopeId) :
    s.ungrouped.chainWithin length i = s.chainWithin length i := by
  induction length generalizing i with
  | zero => rfl
  | succ length ih =>
    have hnext : s.ungrouped.chainWithin length = s.chainWithin length := funext ih
    rw [chainWithin_succ, chainWithin_succ, size_ungrouped, parent?_ungrouped, hnext]

theorem binder?_ungrouped : s.ungrouped.binder? i n = s.binder? i n := by
  simp [binder?, chain, chainWithin_ungrouped, here?_ungrouped]

theorem get?_ungrouped : s.ungrouped.get? i n = (s.get? i n).map Value.ungrouped := by
  unfold get?
  rw [binder?_ungrouped]
  cases s.binder? i n with
  | none => rfl
  | some k => exact here?_ungrouped s k n

theorem child_ungrouped : s.ungrouped.child i = ((s.child i).1, (s.child i).2.ungrouped) := by
  simp [child, ungrouped, Frame.ungrouped, Bindings.ungrouped]

theorem define_ungrouped : s.ungrouped.define i n v.ungrouped = (s.define i n v).ungrouped := by
  unfold define ungrouped
  congr 1
  apply Array.ext_getElem?
  intro j
  simp only [Array.getElem?_modify, Array.getElem?_map]
  by_cases hj : i = j
  · rw [if_pos hj, if_pos hj]
    cases s.frames[j]? with
    | none => rfl
    | some f => simp [Frame.ungrouped, Bindings.ungrouped_insert]
  · rw [if_neg hj, if_neg hj]

theorem assignOrDefine_ungrouped :
    s.ungrouped.assignOrDefine i n v.ungrouped = (s.assignOrDefine i n v).ungrouped := by
  unfold assignOrDefine
  rw [binder?_ungrouped, define_ungrouped]

end Store

/-! ## Steps -/

variable {α β : Type}

def Outcome.ungrouped (g : α → α) : Outcome α → Outcome α
  | .done a m => .done (g a) m.ungrouped
  | .failed f m => .failed f m.ungrouped
  | @Outcome.unfinished _ m => @Outcome.unfinished _ m.ungrouped

namespace Eval

/-- On the stripped machine the second computation does what the first does on the machine. -/
def Mirrors (g : α → α) (e e' : Eval α) : Prop := ∀ m, e' m.ungrouped = (e m).ungrouped g

variable {g : α → α} {h : β → β}

theorem mirrors_pure {a b : α} (hab : g a = b) : Mirrors g (pure a) (pure b) := by
  subst hab
  exact fun _ => rfl

theorem mirrors_unfinished : Mirrors g (unfinished : Eval α) unfinished := fun _ => rfl

theorem Mirrors.bind {e e' : Eval α} {f f' : α → Eval β} (he : Mirrors g e e')
    (hf : ∀ a, Mirrors h (f a) (f' (g a))) : Mirrors h (e >>= f) (e' >>= f') := by
  intro m
  simp only [Bind.bind, Eval.bind]
  rw [he m]
  cases e m with
  | done a k => exact hf a k
  | failed f k => rfl
  | unfinished => rfl

theorem Mirrors.ite {c : Bool} {e e' f f' : Eval α} (he : Mirrors g e e') (hf : Mirrors g f f') :
    Mirrors g (if c = true then e else f) (if c = true then e' else f') := by
  cases c
  · exact hf
  · exact he

theorem mirrors_fault (t : Token) (c : Cause) : Mirrors g (fault t c : Eval α) (fault t c) :=
  fun _ => rfl

theorem mirrors_settle (t : Token) {r : Except Cause Value}
    (hr : ∀ v, r = .ok v → v.kind ≠ .function) :
    Mirrors Value.ungrouped (settle t r) (settle t r) := by
  cases r with
  | ok v => exact mirrors_pure (Value.ungrouped_of_kind (hr v rfl))
  | error c => exact mirrors_fault t c

theorem mirrors_lookup (scope : ScopeId) (t : Token) :
    Mirrors Value.ungrouped (lookup scope t) (lookup scope t) := by
  intro m
  have hget :
      m.ungrouped.store.get? scope t.lexeme = (m.store.get? scope t.lexeme).map Value.ungrouped :=
    m.store.get?_ungrouped scope t.lexeme
  unfold lookup
  rw [hget]
  cases m.store.get? scope t.lexeme <;> rfl

theorem mirrors_child (scope : ScopeId) : Mirrors id (child scope) (child scope) := by
  intro m
  simp only [child, Machine.ungrouped, Store.child_ungrouped]
  rfl

theorem mirrors_define (scope : ScopeId) (n : String) (v : Value) :
    Mirrors id (define scope n v) (define scope n v.ungrouped) := by
  intro m
  simp only [define, Machine.ungrouped, Store.define_ungrouped]
  rfl

theorem mirrors_assignOrDefine (scope : ScopeId) (n : String) (v : Value) :
    Mirrors id (assignOrDefine scope n v) (assignOrDefine scope n v.ungrouped) := by
  intro m
  simp only [assignOrDefine, Machine.ungrouped, Store.assignOrDefine_ungrouped]
  rfl

theorem mirrors_makeFunction (scope : ScopeId) (t : Token) (ps : List Token) (b : List Stmt) :
    Mirrors Value.ungrouped (makeFunction scope t ps b)
      (makeFunction scope t ps (Stmt.ungroupeds b)) :=
  fun _ => rfl

theorem mirrors_printLine (t : Token) (text : String) :
    Mirrors id (printLine t text) (printLine t text) := by
  intro m
  simp only [printLine, Machine.ungrouped]
  by_cases htaken :
    (m.out.writeLine text).2 = true <;> simp [htaken, Outcome.ungrouped, Machine.ungrouped]

theorem mirrors_requireCall (t : Token) : Mirrors id (requireCall t) (requireCall t) := by
  intro m
  simp only [requireCall, Machine.ungrouped]
  by_cases hdepth : m.callDepth = 0 <;> simp [hdepth, Outcome.ungrouped, Machine.ungrouped]

theorem Mirrors.duringCall {e e' : Eval α} (he : Mirrors g e e') :
    Mirrors g (duringCall e) (duringCall e') := by
  intro m
  have hbody := he { m with callDepth := m.callDepth + 1 }
  unfold Eval.duringCall
  simp only [Machine.ungrouped] at hbody ⊢
  rw [hbody]
  cases e { m with callDepth := m.callDepth + 1 } <;> rfl

end Eval

/-! ## Trees -/

open Eval

def Flow.ungrouped : Flow → Flow
  | .normal => .normal
  | .returned v => .returned v.ungrouped

def Caller.Mirrors (call call' : Caller) : Prop :=
  ∀ v vs t,
    Eval.Mirrors Value.ungrouped (call v vs t) (call' v.ungrouped (vs.map Value.ungrouped) t)

variable {call call' : Caller}

mutual
theorem Expr.eval_mirrors (hcall : call.Mirrors call') (scope : ScopeId) :
    ∀ e : Expr, Eval.Mirrors Value.ungrouped (e.eval call scope) (e.ungrouped.eval call' scope)
  | .literal v _ => mirrors_pure (Value.ungrouped_ofLiteral v)
  | .name t => mirrors_lookup scope t
  | .group e => e.eval_mirrors hcall scope
  | .unary op t e => by
    refine (e.eval_mirrors hcall scope).bind fun v => ?_
    rw [op.apply_ungrouped]
    exact mirrors_settle t fun _ => UnaryOp.apply_kind
  | .binary op t e e' => by
    refine (e.eval_mirrors hcall scope).bind fun v => (e'.eval_mirrors hcall scope).bind fun w => ?_
    rw [op.apply_ungrouped]
    exact mirrors_settle t fun _ => BinaryOp.apply_kind
  | .logical op t e e' => by
    refine (e.eval_mirrors hcall scope).bind fun v => ?_
    rw [op.settledBy_ungrouped]
    exact .ite (mirrors_pure rfl) (e'.eval_mirrors hcall scope)
  | .call e es t =>
    (e.eval_mirrors hcall scope).bind fun v =>
      (Expr.evals_mirrors hcall scope es).bind fun vs => hcall v vs t
theorem Expr.evals_mirrors (hcall : call.Mirrors call') (scope : ScopeId) : ∀ es : List Expr,
    Eval.Mirrors (List.map Value.ungrouped) (Expr.evals call scope es)
      (Expr.evals call' scope (Expr.ungroupeds es))
  | [] => mirrors_pure rfl
  | e :: es =>
    (e.eval_mirrors hcall scope).bind fun _ => (Expr.evals_mirrors hcall scope es).bind fun _ =>
      mirrors_pure rfl
end

theorem repeatWhile_mirrors {condition condition' : Eval Bool} {body body' : Eval Flow}
    (hc : Eval.Mirrors id condition condition') (hb : Eval.Mirrors Flow.ungrouped body body') :
    ∀ n, Eval.Mirrors Flow.ungrouped (repeatWhile condition body n) (repeatWhile condition' body' n)
  | 0 => mirrors_unfinished
  | n + 1 => by
    refine hc.bind fun c => .ite (hb.bind fun flow => ?_) (mirrors_pure rfl)
    cases flow with
    | normal => exact repeatWhile_mirrors hc hb n
    | returned v => exact mirrors_pure rfl

mutual
theorem Stmt.exec_mirrors (hcall : call.Mirrors call') (n : Nat) : ∀ (s : Stmt) (scope : ScopeId),
    Eval.Mirrors Flow.ungrouped (s.exec call n scope) (s.ungrouped.exec call' n scope)
  | .expression e, scope => (e.eval_mirrors hcall scope).bind fun _ => mirrors_pure rfl
  | .print t e, scope => by
    refine (e.eval_mirrors hcall scope).bind fun v => ?_
    rw [v.shown_ungrouped]
    exact (mirrors_printLine t v.shown).bind fun _ => mirrors_pure rfl
  | .declare t e, scope =>
    (e.eval_mirrors hcall scope).bind fun v => (mirrors_define scope t.lexeme v).bind fun _ =>
      mirrors_pure rfl
  | .assign t e, scope =>
    (e.eval_mirrors hcall scope).bind fun v =>
      (mirrors_assignOrDefine scope t.lexeme v).bind fun _ => mirrors_pure rfl
  | .block b, scope => (mirrors_child scope).bind fun i => Stmt.execs_mirrors hcall n b i
  | .branch e b o, scope => by
    refine (e.eval_mirrors hcall scope).bind fun v => (mirrors_child scope).bind fun i => ?_
    rw [v.holds_ungrouped]
    exact .ite (Stmt.execs_mirrors hcall n b i) (Stmt.execs_mirrors hcall n o i)
  | .loop e b, scope =>
    repeatWhile_mirrors
      ((e.eval_mirrors hcall scope).bind fun v => mirrors_pure v.holds_ungrouped.symm)
      ((mirrors_child scope).bind fun i => Stmt.execs_mirrors hcall n b i) n
  | .function t ps b, scope =>
    (mirrors_makeFunction scope t ps b).bind fun f =>
      (mirrors_define scope t.lexeme f).bind fun _ => mirrors_pure rfl
  | .giveBack t none, _ => (mirrors_requireCall t).bind fun _ => mirrors_pure rfl
  | .giveBack t (some e), scope =>
    (mirrors_requireCall t).bind fun _ => (e.eval_mirrors hcall scope).bind fun _ =>
      mirrors_pure rfl
theorem Stmt.execs_mirrors (hcall : call.Mirrors call') (n : Nat) :
    ∀ (ss : List Stmt) (scope : ScopeId),
    Eval.Mirrors Flow.ungrouped (Stmt.execs call n ss scope)
      (Stmt.execs call' n (Stmt.ungroupeds ss) scope)
  | [], _ => mirrors_pure rfl
  | s :: ss, scope => by
    refine (s.exec_mirrors hcall n scope).bind fun flow => ?_
    cases flow with
    | normal => exact Stmt.execs_mirrors hcall n ss scope
    | returned v => exact mirrors_pure rfl
end

theorem bindParams_mirrors (scope : ScopeId) : ∀ (ps : List Token) (vs : List Value),
    Eval.Mirrors id (bindParams scope ps vs) (bindParams scope ps (vs.map Value.ungrouped))
  | [], _ => mirrors_pure rfl
  | _ :: _, [] => mirrors_pure rfl
  | p :: ps, v :: vs =>
    (mirrors_define scope p.lexeme v).bind fun _ => bindParams_mirrors scope ps vs

theorem callFunction_mirrors (hcall : call.Mirrors call') (n : Nat) (f : Closure)
    (vs : List Value) (t : Token) : Eval.Mirrors Value.ungrouped (callFunction n call f vs t)
      (callFunction n call' f.ungrouped (vs.map Value.ungrouped) t) := by
  have harity : f.ungrouped.arity = f.arity := rfl
  unfold callFunction
  rw [harity, List.length_map]
  split
  · refine Mirrors.duringCall
      ((mirrors_child f.scope).bind fun i => (bindParams_mirrors i f.params vs).bind fun _ => ?_)
    refine (Stmt.execs_mirrors hcall n f.body i).bind fun flow => ?_
    cases flow with
    | normal => exact mirrors_pure rfl
    | returned v => exact mirrors_pure rfl
  · exact mirrors_fault t _

theorem callWithin_mirrors : ∀ n, Caller.Mirrors (callWithin n) (callWithin n)
  | 0 => fun _ _ _ => mirrors_unfinished
  | n + 1 => by
    intro v vs t
    cases v with
    | function f => exact callFunction_mirrors (callWithin_mirrors n) n f vs t
    | _ => exact mirrors_fault t _

/-! ## Programs -/

theorem Machine.interpret_ungrouped (m : Machine) (n : Nat) (ss : List Stmt) :
    m.ungrouped.interpret n (Stmt.ungroupeds ss) = (m.interpret n ss).map fun r =>
      (r.1, r.2.ungrouped) := by
  have hrun := Stmt.execs_mirrors (callWithin_mirrors n) n ss Store.globalScope m
  unfold Machine.interpret Stmt.execsWithin
  rw [hrun]
  cases Stmt.execs (callWithin n) n ss Store.globalScope m <;> rfl

def unrestrained : Discipline where
  Good s s' := s = s'
  Holds _ _ := True
  Free _ _ := True
  Allows _ _ _ := True
  size h := by rw [h]
  holds_mono _ h := h
  free_mono _ h := h
  allows_mono _ h := h
  plain _ := trivial
  found h _ n := ⟨by rw [h], fun _ _ => trivial⟩
  closure _ _ := trivial
  first h := h
  rest h := h
  free _ _ := trivial
  inner h _ _ := ⟨by rw [h], trivial⟩
  call h _ := ⟨by rw [h], trivial, trivial⟩
  define n h _ _ := by rw [h]
  assign n h _ _ := by rw [h]

theorem unrestrained_eq {m k : Machine} (h : unrestrained.Beside m k) : m = k := by
  obtain ⟨hstore, hout, hdiagnostics, hdepth, hmade⟩ := h
  cases m
  cases k
  simp_all [unrestrained]

theorem Machine.interpret_more {m : Machine} {n n' : Nat} (hn : n ≤ n') {ss : List Stmt}
    {r : Bool × Machine} (h : m.interpret n ss = some r) : m.interpret n' ss = some r := by
  have hkeeps : unrestrained.Keeps m.store fun n => Stmt.execsWithin n ss Store.globalScope :=
    execsWithin_keeps trivial
  obtain ⟨A, hbeside⟩ := hkeeps
  have hend : (Stmt.execsWithin n ss Store.globalScope m).Beside unrestrained m.store A
      (Stmt.execsWithin n' ss Store.globalScope m) :=
        hbeside n n' hn m m (.refl _) ⟨rfl, rfl, rfl, rfl, rfl⟩
  unfold Machine.interpret at h ⊢
  generalize Stmt.execsWithin n ss Store.globalScope m = o at h hend
  generalize Stmt.execsWithin n' ss Store.globalScope m = o' at hend ⊢
  cases hend with
  | done _ hm _ =>
    rw [← unrestrained_eq hm]
    exact h
  | failed _ hm =>
    rw [← unrestrained_eq hm]
    exact h
  | unfinished => cases h

/-- Where a program ends, one that differs in groups ends, at the same stripped machine. -/
theorem Machine.interpret_groups {m : Machine} {ss tt : List Stmt}
    (hsame : Stmt.ungroupeds ss = Stmt.ungroupeds tt) {n n' : Nat} (hn : n ≤ n')
    {r : Bool × Machine} (h : m.interpret n ss = some r) :
    ∃ r', m.interpret n' tt = some r' ∧ r.1 = r'.1 ∧ r.2.ungrouped = r'.2.ungrouped := by
  have hstripped :
      (m.interpret n tt).map (fun r => (r.1, r.2.ungrouped)) = some (r.1, r.2.ungrouped) := by
    rw [← m.interpret_ungrouped, ← hsame, m.interpret_ungrouped, h]
    rfl
  obtain ⟨r', hr', heq⟩ := Option.map_eq_some_iff.mp hstripped
  obtain ⟨hfaulty, hmachine⟩ := Prod.mk.inj heq
  exact ⟨r', interpret_more hn hr', hfaulty.symm, hmachine.symm⟩

/-- **Redundant parentheses change nothing.** Of two programs that are the same
without their groups one ends exactly if the other does, from every machine,
completed or faulty alike, with the same output and diagnostics, and with scopes
that are the same without the groups in the bodies of functions. -/
theorem interpret_up_to_groups (m : Machine) {ss tt : List Stmt}
    (hsame : Stmt.ungroupeds ss = Stmt.ungroupeds tt) :
    ((∃ r n, m.interpret n ss = some r) ↔ ∃ r n, m.interpret n tt = some r) ∧
      ∀ r r', (∃ n, m.interpret n ss = some r) → (∃ n, m.interpret n tt = some r') →
        r.1 = r'.1 ∧ r.2.out = r'.2.out ∧ r.2.diagnostics = r'.2.diagnostics ∧
          r.2.store.ungrouped = r'.2.store.ungrouped := by
  have hends := ends_alike (fun hn h => m.interpret_groups hsame hn h)
    (fun hn h => by
      obtain ⟨r, hr, hfaulty, hmachine⟩ := m.interpret_groups hsame.symm hn h
      exact ⟨r, hr, hfaulty.symm, hmachine.symm⟩)
  refine ⟨hends.1, fun r r' hr hr' => ?_⟩
  obtain ⟨hfaulty, hmachine⟩ := hends.2 r r' hr hr'
  have hout : r.2.ungrouped.out = r'.2.ungrouped.out := congrArg Machine.out hmachine
  have hdiagnostics : r.2.ungrouped.diagnostics = r'.2.ungrouped.diagnostics :=
    congrArg Machine.diagnostics hmachine
  have hstore : r.2.ungrouped.store = r'.2.ungrouped.store := congrArg Machine.store hmachine
  exact ⟨hfaulty, hout, hdiagnostics, hstore⟩

/-- `fungsi f(x) { balikin (x); } cetak (f)(("a")); -(f);`, with and without its
groups: both print and meet the fault. -/
theorem interpret_up_to_groups_call :
    let f : Token := ⟨.name, "f", 1⟩
    let x : Token := ⟨.name, "x", 1⟩
    let sign (m : Mark) : Token := ⟨.mark m, "", 1⟩
    let word (k : Keyword) : Token := ⟨.keyword k, "", 1⟩
    let program (group : Expr → Expr) : List Stmt :=
      [.function f [x] [.giveBack (word .balikin) (some (group (.name x)))],
        .print (word .cetak)
          (.call (group (.name f)) [group (.literal (.text "a") 1)] (sign .rightParen)),
        .expression (.unary .negate (sign .minus) (group (.name f)))]
    let m := Machine.fresh none none
    program .group ≠ program id ∧
      ∃ r r', m.interpret 2 (program .group) = some r ∧
        m.interpret 2 (program id) = some r' ∧ r.1 = true ∧
        r.1 = r'.1 ∧ r.2.out.written = "a\n".toUTF8 ∧ r.2.out = r'.2.out ∧
        r.2.diagnostics = r'.2.diagnostics ∧ r.2.store.ungrouped = r'.2.store.ungrouped := by
  intro f x sign word program m
  obtain ⟨-, hends⟩ :=
    interpret_up_to_groups m
      (by rfl : Stmt.ungroupeds (program .group) = Stmt.ungroupeds (program id))
  have hprinted : (m.interpret 2 (program .group)).map (fun r => (r.1, r.2.out.written)) =
      some (true, "a\n".toUTF8) := by
    decide +kernel
  have hended : (m.interpret 2 (program id)).isSome = true := by decide +kernel
  obtain ⟨r, hr, heq⟩ := Option.map_eq_some_iff.mp hprinted
  obtain ⟨r', hr'⟩ := Option.isSome_iff_exists.mp hended
  obtain ⟨hfaulty, hwritten⟩ := Prod.mk.inj heq
  obtain ⟨hsame, hout, hdiagnostics, hstore⟩ := hends r r' ⟨2, hr⟩ ⟨2, hr'⟩
  exact ⟨by simp [program], r, r', hr, hr', hfaulty, hsame, hwritten, hout, hdiagnostics, hstore⟩

end Naskah
