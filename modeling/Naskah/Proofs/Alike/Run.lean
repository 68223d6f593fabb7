import Naskah.Proofs.Alike.Machine
import Naskah.Session.Status

/-!
# Carrying out trees that are alike

Statements that are alike, carried out on machines that are alike, end alike:
with the same flow and output, or with the same fault at a related token. More
fuel on the second side makes no difference to what the first side ends with,
so with the same trees on both sides an end does not depend on the fuel.
-/

namespace Naskah

open Eval

variable {R : Token → Token → Prop} {D : Sink → Sink → Prop} {call call' : Caller}

def Caller.Matched (R : Token → Token → Prop) (D : Sink → Sink → Prop)
    (call call' : Caller) : Prop :=
  ∀ (v w vs ws t u), v.Alike R w → List.Forall₂ (Value.Alike R) vs ws → R t u →
    Eval.Matched R D (Value.Alike R) (call v vs t) (call' w ws u)

inductive Flow.Alike (R : Token → Token → Prop) : Flow → Flow → Prop
  | normal : Alike R .normal .normal
  | returned {v w} : v.Alike R w → Alike R (.returned v) (.returned w)

/-! ## Expressions -/

mutual
theorem Expr.Alike.eval (hR : OfWords R) (hcall : call.Matched R D call') (scope : ScopeId)
    {e f : Expr} :
    e.Alike R f → Eval.Matched R D (Value.Alike R) (e.eval call scope) (f.eval call' scope)
  | @Expr.Alike.literal _ t u v w h hv hw => by
    have hvw : some v = some w := by
      rw [← hv, ← hw, Token.literal?, Token.literal?, hR.kind h]
    cases hvw
    exact matched_pure (.ofLiteral v)
  | .name h => matched_lookup hR scope h
  | .group h => h.eval hR hcall scope
  | .unary ht h => by
    refine (h.eval hR hcall scope).bind fun v w hv => ?_
    rw [← hv.apply_unary]
    exact matched_settle ht (fun _ => UnaryOp.apply_alike_self) fun _ => UnaryOp.apply_error_known
  | .binary ht h h' => by
    refine (h.eval hR hcall scope).bind fun v w hv =>
      (h'.eval hR hcall scope).bind fun v' w' hv' => ?_
    rw [← hv.apply_binary _ hv']
    exact matched_settle ht (fun _ => BinaryOp.apply_alike_self) fun _ => BinaryOp.apply_error_known
  | @Expr.Alike.logical _ op _ _ _ _ _ _ ht h h' => by
    refine (h.eval hR hcall scope).bind fun v w hv => ?_
    have hsettled : op.settledBy v = op.settledBy w := by
      cases op <;> simp [LogicalOp.settledBy, hv.holds]
    exact .ite hsettled (matched_pure hv) (h'.eval hR hcall scope)
  | .call h hs ht =>
    (h.eval hR hcall scope).bind fun _ _ hv => (exprs_evals hR hcall scope hs).bind fun _ _ hvs =>
      hcall _ _ _ _ _ _ hv hvs ht
theorem exprs_evals (hR : OfWords R) (hcall : call.Matched R D call') (scope : ScopeId)
    {es fs : List Expr} : List.Forall₂ (Expr.Alike R) es fs →
    Eval.Matched R D (List.Forall₂ (Value.Alike R)) (Expr.evals call scope es)
      (Expr.evals call' scope fs)
  | .nil => matched_pure .nil
  | .cons h hs =>
    (h.eval hR hcall scope).bind fun _ _ hv => (exprs_evals hR hcall scope hs).bind fun _ _ hvs =>
      matched_pure (.cons hv hvs)
end

/-! ## Statements -/

theorem repeatWhile_matched {condition condition' : Eval Bool} {body body' : Eval Flow}
    (hc : Eval.Matched R D Eq condition condition')
    (hb : Eval.Matched R D (Flow.Alike R) body body') :
    ∀ {n n' : Nat}, n ≤ n' →
      Eval.Matched R D (Flow.Alike R) (repeatWhile condition body n)
        (repeatWhile condition' body' n')
  | 0, _, _ => matched_unfinished _
  | n + 1, n' + 1, hn => by
    refine hc.bind fun c c' hcc => .ite hcc (hb.bind fun f g hfg => ?_) (matched_pure .normal)
    cases hfg with
    | normal => exact repeatWhile_matched hc hb (Nat.le_of_succ_le_succ hn)
    | returned hv => exact matched_pure (.returned hv)

mutual
theorem Stmt.Alike.exec (hR : OfWords R) (hcall : call.Matched R D call') {n n' : Nat} (hn : n ≤ n')
    (scope : ScopeId) {s s' : Stmt} :
    s.Alike R s' → Eval.Matched R D (Flow.Alike R) (s.exec call n scope) (s'.exec call' n' scope)
  | .expression h => (h.eval hR hcall scope).bind fun _ _ _ => matched_pure .normal
  | .print ht h => by
    refine (h.eval hR hcall scope).bind fun v w hv => ?_
    rw [← hv.shown hR]
    exact (matched_printLine ht _).bind fun _ _ _ => matched_pure .normal
  | .declare ht h => by
    refine (h.eval hR hcall scope).bind fun v w hv => ?_
    rw [hR.lexeme ht]
    exact (matched_define scope _ hv).bind fun _ _ _ => matched_pure .normal
  | .assign ht h => by
    refine (h.eval hR hcall scope).bind fun v w hv => ?_
    rw [hR.lexeme ht]
    exact (matched_assignOrDefine scope _ hv).bind fun _ _ _ => matched_pure .normal
  | .block hs => by
    refine (matched_child scope).bind fun i j hij => ?_
    rw [← hij]
    exact stmts_execs hR hcall hn i hs
  | .branch h hb ho => by
    refine (h.eval hR hcall scope).bind fun v w hv => (matched_child scope).bind fun i j hij => ?_
    rw [← hij]
    exact .ite hv.holds (stmts_execs hR hcall hn i hb) (stmts_execs hR hcall hn i ho)
  | .loop h hb => by
    refine repeatWhile_matched
      ((h.eval hR hcall scope).bind fun v w hv => matched_pure hv.holds) ?_ hn
    refine (matched_child scope).bind fun i j hij => ?_
    rw [← hij]
    exact stmts_execs hR hcall hn i hb
  | .function ht hps hb => by
    refine (matched_makeFunction scope ht hps hb).bind fun v w hv => ?_
    rw [hR.lexeme ht]
    exact (matched_define scope _ hv).bind fun _ _ _ => matched_pure .normal
  | .giveBack ht .none => (matched_requireCall ht).bind fun _ _ _ => matched_pure (.returned .nil)
  | .giveBack ht (.some h) =>
    (matched_requireCall ht).bind fun _ _ _ => (h.eval hR hcall scope).bind fun _ _ hv =>
      matched_pure (.returned hv)
theorem stmts_execs (hR : OfWords R) (hcall : call.Matched R D call') {n n' : Nat} (hn : n ≤ n')
    (scope : ScopeId) {ss ss' : List Stmt} : List.Forall₂ (Stmt.Alike R) ss ss' →
    Eval.Matched R D (Flow.Alike R) (Stmt.execs call n ss scope) (Stmt.execs call' n' ss' scope)
  | .nil => matched_pure .normal
  | .cons h hs => by
    refine (h.exec hR hcall hn scope).bind fun f g hfg => ?_
    cases hfg with
    | normal => exact stmts_execs hR hcall hn scope hs
    | returned hv => exact matched_pure (.returned hv)
end

/-! ## Calls -/

theorem bindParams_matched (hR : OfWords R) (scope : ScopeId) {ps qs : List Token}
    (hps : List.Forall₂ R ps qs) {vs ws : List Value} (hvs : List.Forall₂ (Value.Alike R) vs ws) :
    Eval.Matched R D (fun _ _ => True) (bindParams scope ps vs) (bindParams scope qs ws) := by
  induction hps generalizing vs ws with
  | nil => exact matched_pure trivial
  | cons hp _ ih =>
    cases hvs with
    | nil => exact matched_pure trivial
    | cons hv hvs =>
      rw [bindParams, bindParams, hR.lexeme hp]
      exact (matched_define scope _ hv).bind fun _ _ _ => ih hvs

theorem callFunction_matched (hR : OfWords R) (hcall : call.Matched R D call')
    {n n' : Nat} (hn : n ≤ n') {f g : Closure} (hf : f.Alike R g) {vs ws : List Value}
    (hvs : List.Forall₂ (Value.Alike R) vs ws) {t u : Token} (ht : R t u) :
    Eval.Matched R D (Value.Alike R) (callFunction n call f vs t)
      (callFunction n' call' g ws u) := by
  have harity : f.arity = g.arity := hf.params.length_eq
  rw [callFunction, callFunction, ← hvs.length_eq, harity]
  split
  · refine Eval.Matched.duringCall ?_
    rw [hf.scope]
    refine (matched_child g.scope).bind fun i j hij => ?_
    rw [← hij]
    refine (bindParams_matched hR i hf.params hvs).bind fun _ _ _ => ?_
    refine (stmts_execs hR hcall hn i hf.body).bind fun flow flow' hflow => ?_
    cases hflow with
    | normal => exact matched_pure .nil
    | returned hv => exact matched_pure hv
  · exact matched_fault ht trivial

theorem callWithin_matched (hR : OfWords R) :
    ∀ {n n' : Nat}, n ≤ n' → Caller.Matched R D (callWithin n) (callWithin n')
  | 0, _, _ => fun _ _ _ _ _ _ _ _ _ => matched_unfinished _
  | n + 1, n' + 1, hn => by
    intro v w vs ws t u hv hvs ht
    have hn := Nat.le_of_succ_le_succ hn
    cases hv with
    | function hf => exact callFunction_matched hR (callWithin_matched hR hn) hn hf hvs ht
    | _ => exact matched_fault ht trivial

theorem execsWithin_matched (hR : OfWords R) {n n' : Nat} (hn : n ≤ n') {ss ss' : List Stmt}
    (hs : List.Forall₂ (Stmt.Alike R) ss ss') (scope : ScopeId) :
    Eval.Matched R D (Flow.Alike R) (Stmt.execsWithin n ss scope) (Stmt.execsWithin n' ss' scope) :=
  stmts_execs hR (callWithin_matched hR hn) hn scope hs

/-! ## Programs -/

theorem Machine.fresh_alike (R : Token → Token → Prop) {D : Sink → Sink → Prop}
    (hD : D (.empty none) (.empty none)) :
    (Machine.fresh none none).Alike R D (.fresh none none) := by
  refine ⟨⟨rfl, fun i => ?_⟩, rfl, hD, rfl, rfl⟩
  cases h : (Machine.fresh none none).store.frames[i]? with
  | none => exact .none
  | some frame =>
    obtain ⟨hi, hframe⟩ := Array.getElem?_eq_some_iff.mp h
    obtain rfl : i = 0 := Nat.lt_one_iff.mp hi
    subst hframe
    exact .some ⟨rfl, .nil⟩

/-- How programs that are alike end: both complete, or both meet the same
fault and write it to the diagnostics. -/
inductive EndAlike (R : Token → Token → Prop) (D : Sink → Sink → Prop) :
    Bool → Machine → Machine → Prop
  | completed {m m'} : m.Alike R D m' → EndAlike R D false m m'
  | fault {f g : Fault} {m m' : Machine} : f.Alike R g → m.Alike R D m' →
      EndAlike R D true { m with diagnostics := (m.diagnostics.writeLine f.message).1 }
        { m' with diagnostics := (m'.diagnostics.writeLine g.message).1 }

theorem Machine.interpret_matched (hR : OfWords R) {n n' : Nat} (hn : n ≤ n') {ss ss' : List Stmt}
    (hs : List.Forall₂ (Stmt.Alike R) ss ss') {m m' m₁ : Machine} (hm : m.Alike R D m')
    {faulty : Bool} (h : m.interpret n ss = some (faulty, m₁)) :
    ∃ m₁', m'.interpret n' ss' = some (faulty, m₁') ∧ EndAlike R D faulty m₁ m₁' := by
  have hexec := execsWithin_matched hR hn hs Store.globalScope m m' hm
  unfold Machine.interpret at h ⊢
  generalize Stmt.execsWithin n ss Store.globalScope m = o at h hexec
  generalize Stmt.execsWithin n' ss' Store.globalScope m' = o' at hexec ⊢
  cases hexec with
  | done _ hm =>
    cases h
    exact ⟨_, rfl, .completed hm⟩
  | failed hf hm =>
    cases h
    exact ⟨_, rfl, .fault hf hm⟩
  | unfinished => cases h

theorem Machine.run_of_clean {fuel : Nat} {s : String} (m : Machine) (hs : (tokenize s).errors = [])
    (hp : (parse (tokenize s).tokens).errors = []) :
    m.run fuel s = (m.interpret fuel (parse (tokenize s).tokens).statements).map
      fun (faulty, m) => (if faulty then .runtimeError else .completed, m) := by
  simp only [Machine.run, hs, hp, List.isEmpty_nil, Bool.and_self, if_true]
  split <;> simp_all

/-- If each of two runs, with no less fuel, ends as the other does, then one
ends exactly if the other does, and the ends of any two such runs agree. -/
theorem ends_alike {α : Type} {run run' : Nat → Option α} {S : α → α → Prop}
    (h : ∀ {n n' : Nat} {r}, n ≤ n' → run n = some r → ∃ r', run' n' = some r' ∧ S r r')
    (h' : ∀ {n n' : Nat} {r'}, n ≤ n' → run' n = some r' → ∃ r, run n' = some r ∧ S r r') :
    ((∃ r n, run n = some r) ↔ ∃ r' n, run' n = some r') ∧
      ∀ r r', (∃ n, run n = some r) → (∃ n, run' n = some r') → S r r' := by
  refine ⟨⟨?_, ?_⟩, ?_⟩
  · rintro ⟨r, n, hrun⟩
    obtain ⟨r', hrun', -⟩ := h (Nat.le_refl n) hrun
    exact ⟨r', n, hrun'⟩
  · rintro ⟨r', n, hrun'⟩
    obtain ⟨r, hrun, -⟩ := h' (Nat.le_refl n) hrun'
    exact ⟨r, n, hrun⟩
  · rintro r r' ⟨n, hrun⟩ ⟨n', hrun'⟩
    -- the run with less fuel is matched by the other
    rcases Nat.le_total n n' with hn | hn
    · obtain ⟨k, hk, hend⟩ := h hn hrun
      cases hk.symm.trans hrun'
      exact hend
    · obtain ⟨k, hk, hend⟩ := h' hn hrun'
      cases hk.symm.trans hrun
      exact hend

end Naskah
