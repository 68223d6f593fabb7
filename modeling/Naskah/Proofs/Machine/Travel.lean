import Naskah.Machine.Run

/-!
# What a run can do to a machine

A run changes a machine in five ways: it makes a scope, binds a name, makes a
function, prints a line, or makes a call, which is a run between two changes
of the call depth. A relation between machines that holds across each of these
holds from the start of any run to its end, by a value or by a fault.
-/

namespace Naskah

/-- A relation between earlier and later machines that every step keeps. -/
structure Travel (Q : Machine → Machine → Prop) : Prop where
  refl : ∀ m, Q m m
  trans : ∀ {m₁ m₂ m₃}, Q m₁ m₂ → Q m₂ m₃ → Q m₁ m₃
  child : ∀ m parent, Q m { m with store := (m.store.child parent).2 }
  define : ∀ m scope name v, Q m { m with store := m.store.define scope name v }
  make : ∀ m, Q m { m with functionsMade := m.functionsMade + 1 }
  print : ∀ m text, Q m { m with out := (m.out.writeLine text).1 }
  call : ∀ {m m'}, Q { m with callDepth := m.callDepth + 1 } m' →
    Q m { m' with callDepth := m'.callDepth - 1 }

structure Eval.Along {α : Type} (Q : Machine → Machine → Prop) (e : Eval α) : Prop where
  done : ∀ {m a m'}, e m = .done a m' → Q m m'
  failed : ∀ {m f m'}, e m = .failed f m' → Q m m'

namespace Eval

variable {Q : Machine → Machine → Prop} {α β : Type}

section
variable (hQ : Travel Q)
include hQ

theorem along_pure (a : α) : Along Q (pure a) :=
  ⟨fun h => by cases h; exact hQ.refl _, fun h => by cases h⟩

theorem along_fault (t : Token) (c : Cause) : Along Q (fault t c : Eval α) :=
  ⟨fun h => (by cases h), fun h => by cases h; exact hQ.refl _⟩

theorem along_settle (t : Token) (r : Except Cause α) : Along Q (settle t r) := by
  cases r with
  | ok a => exact along_pure hQ a
  | error c => exact along_fault hQ t c

theorem Along.bind {e : Eval α} {f : α → Eval β} (he : Along Q e) (hf : ∀ a, Along Q (f a)) :
    Along Q (e >>= f) where
  done {m b m'} h := by
    simp only [Bind.bind, Eval.bind] at h
    cases hm : e m with
    | done a k => rw [hm] at h; exact hQ.trans (he.done hm) ((hf a).done h)
    | failed => rw [hm] at h; cases h
    | unfinished => rw [hm] at h; cases h
  failed {m g m'} h := by
    simp only [Bind.bind, Eval.bind] at h
    cases hm : e m with
    | done a k => rw [hm] at h; exact hQ.trans (he.done hm) ((hf a).failed h)
    | failed => rw [hm] at h; cases h; exact he.failed hm
    | unfinished => rw [hm] at h; cases h

theorem along_lookup (scope : ScopeId) (t : Token) : Along Q (lookup scope t) where
  done {m v m'} h := by
    unfold lookup at h
    split at h <;> cases h
    exact hQ.refl m
  failed {m f m'} h := by
    unfold lookup at h
    split at h <;> cases h
    exact hQ.refl m

theorem along_child (scope : ScopeId) : Along Q (child scope) :=
  ⟨fun h => by cases h; exact hQ.child _ scope, fun h => by cases h⟩

theorem along_define (scope : ScopeId) (name : String) (v : Value) :
    Along Q (define scope name v) :=
  ⟨fun h => by cases h; exact hQ.define _ scope name v, fun h => by cases h⟩

theorem along_assignOrDefine (scope : ScopeId) (name : String) (v : Value) :
    Along Q (assignOrDefine scope name v) :=
  ⟨fun h => by cases h; exact hQ.define _ _ name v, fun h => by cases h⟩

theorem along_makeFunction (scope : ScopeId) (t : Token) (ps : List Token) (b : List Stmt) :
    Along Q (makeFunction scope t ps b) :=
  ⟨fun h => by cases h; exact hQ.make _, fun h => by cases h⟩

theorem along_printLine (t : Token) (text : String) : Along Q (printLine t text) where
  done {m a m'} h := by
    simp only [printLine] at h
    split at h <;> cases h
    exact hQ.print m text
  failed {m f m'} h := by
    simp only [printLine] at h
    split at h <;> cases h
    exact hQ.print m text

theorem along_requireCall (t : Token) : Along Q (requireCall t) where
  done {m a m'} h := by
    unfold requireCall at h
    split at h <;> cases h
    exact hQ.refl m
  failed {m f m'} h := by
    unfold requireCall at h
    split at h <;> cases h
    exact hQ.refl m

theorem Along.duringCall {e : Eval α} (he : Along Q e) : Along Q (duringCall e) where
  done {m a m'} h := by
    unfold Eval.duringCall at h
    split at h <;> cases h
    rename_i hm
    exact hQ.call (he.done hm)
  failed {m f m'} h := by
    unfold Eval.duringCall at h
    split at h <;> cases h
    rename_i hm
    exact hQ.call (he.failed hm)

end

theorem along_unfinished : Along Q (unfinished : Eval α) :=
  ⟨fun h => (by cases h), fun h => (by cases h)⟩

end Eval

open Eval

variable {Q : Machine → Machine → Prop} {call : Caller}

/-! ## Expressions -/

mutual
theorem Expr.eval_along (hQ : Travel Q) (hcall : ∀ v vs t, Along Q (call v vs t))
    (scope : ScopeId) : ∀ e : Expr, Along Q (e.eval call scope)
  | .literal _ _ => along_pure hQ _
  | .name t => along_lookup hQ scope t
  | .group e => e.eval_along hQ hcall scope
  | .unary _ t e => (e.eval_along hQ hcall scope).bind hQ fun _ => along_settle hQ t _
  | .binary _ t e e' =>
    (e.eval_along hQ hcall scope).bind hQ fun _ => (e'.eval_along hQ hcall scope).bind hQ fun _ =>
      along_settle hQ t _
  | .logical _ _ e e' => by
    refine (e.eval_along hQ hcall scope).bind hQ fun v => ?_
    split
    · exact along_pure hQ v
    · exact e'.eval_along hQ hcall scope
  | .call e es t =>
    (e.eval_along hQ hcall scope).bind hQ fun f =>
      (Expr.evals_along hQ hcall scope es).bind hQ fun vs => hcall f vs t
theorem Expr.evals_along (hQ : Travel Q) (hcall : ∀ v vs t, Along Q (call v vs t))
    (scope : ScopeId) : ∀ es : List Expr, Along Q (Expr.evals call scope es)
  | [] => along_pure hQ []
  | e :: es =>
    (e.eval_along hQ hcall scope).bind hQ fun _ =>
      (Expr.evals_along hQ hcall scope es).bind hQ fun _ => along_pure hQ _
end

/-! ## Statements -/

theorem repeatWhile_along (hQ : Travel Q) {condition : Eval Bool} {body : Eval Flow}
    (hc : Along Q condition) (hb : Along Q body) : ∀ n, Along Q (repeatWhile condition body n)
  | 0 => along_unfinished
  | n + 1 => by
    refine hc.bind hQ fun c => ?_
    split
    · refine hb.bind hQ fun flow => ?_
      cases flow with
      | normal => exact repeatWhile_along hQ hc hb n
      | returned v => exact along_pure hQ _
    · exact along_pure hQ _

mutual
theorem Stmt.exec_along (hQ : Travel Q) (hcall : ∀ v vs t, Along Q (call v vs t)) (n : Nat) :
    ∀ (s : Stmt) (scope : ScopeId), Along Q (s.exec call n scope)
  | .expression e, scope => (e.eval_along hQ hcall scope).bind hQ fun _ => along_pure hQ _
  | .print t e, scope =>
    (e.eval_along hQ hcall scope).bind hQ fun _ => (along_printLine hQ t _).bind hQ fun _ =>
      along_pure hQ _
  | .declare _ e, scope =>
    (e.eval_along hQ hcall scope).bind hQ fun _ => (along_define hQ scope _ _).bind hQ fun _ =>
      along_pure hQ _
  | .assign _ e, scope =>
    (e.eval_along hQ hcall scope).bind hQ fun _ =>
      (along_assignOrDefine hQ scope _ _).bind hQ fun _ => along_pure hQ _
  | .block b, scope => (along_child hQ scope).bind hQ fun i => Stmt.execs_along hQ hcall n b i
  | .branch e b o, scope => by
    refine (e.eval_along hQ hcall scope).bind hQ fun v => (along_child hQ scope).bind hQ fun i => ?_
    split
    · exact Stmt.execs_along hQ hcall n b i
    · exact Stmt.execs_along hQ hcall n o i
  | .loop e b, scope =>
    repeatWhile_along hQ ((e.eval_along hQ hcall scope).bind hQ fun _ => along_pure hQ _)
      ((along_child hQ scope).bind hQ fun i => Stmt.execs_along hQ hcall n b i) n
  | .function t ps b, scope =>
    (along_makeFunction hQ scope t ps b).bind hQ fun _ =>
      (along_define hQ scope _ _).bind hQ fun _ => along_pure hQ _
  | .giveBack t none, scope => (along_requireCall hQ t).bind hQ fun _ => along_pure hQ _
  | .giveBack t (some e), scope =>
    (along_requireCall hQ t).bind hQ fun _ => (e.eval_along hQ hcall scope).bind hQ fun _ =>
      along_pure hQ _
theorem Stmt.execs_along (hQ : Travel Q) (hcall : ∀ v vs t, Along Q (call v vs t)) (n : Nat) :
    ∀ (ss : List Stmt) (scope : ScopeId), Along Q (Stmt.execs call n ss scope)
  | [], _ => along_pure hQ _
  | s :: ss, scope => by
    refine (s.exec_along hQ hcall n scope).bind hQ fun flow => ?_
    cases flow with
    | normal => exact Stmt.execs_along hQ hcall n ss scope
    | returned v => exact along_pure hQ _
end

/-! ## Calls -/

theorem bindParams_along (hQ : Travel Q) (scope : ScopeId) :
    ∀ (ps : List Token) (vs : List Value), Along Q (bindParams scope ps vs)
  | [], _ => along_pure hQ ()
  | _ :: _, [] => along_pure hQ ()
  | _ :: ps, _ :: vs => (along_define hQ scope _ _).bind hQ fun _ => bindParams_along hQ scope ps vs

theorem callFunction_along (hQ : Travel Q) (hcall : ∀ v vs t, Along Q (call v vs t))
    (n : Nat) (f : Closure) (vs : List Value) (t : Token) :
    Along Q (callFunction n call f vs t) := by
  unfold callFunction
  split
  · refine Along.duringCall hQ ?_
    refine (along_child hQ _).bind hQ fun i => (bindParams_along hQ i _ _).bind hQ fun _ => ?_
    refine (Stmt.execs_along hQ hcall n f.body i).bind hQ fun flow => ?_
    cases flow with
    | normal => exact along_pure hQ _
    | returned v => exact along_pure hQ _
  · exact along_fault hQ t _

theorem callWithin_along (hQ : Travel Q) : ∀ n v vs t, Along Q (callWithin n v vs t)
  | 0, _, _, _ => along_unfinished
  | n + 1, v, vs, t => by
    cases v with
    | function f => exact callFunction_along hQ (callWithin_along hQ n) n f vs t
    | _ => exact along_fault hQ t _

theorem Stmt.execsWithin_along (hQ : Travel Q) (n : Nat) (ss : List Stmt) (scope : ScopeId) :
    Along Q (Stmt.execsWithin n ss scope) :=
  Stmt.execs_along hQ (callWithin_along hQ n) n ss scope

end Naskah
