import Naskah.Machine.Basic
import Naskah.Proofs.Alike.Parser
import Naskah.Value.Operation

/-!
# Machines over related tokens

Given a relation between tokens of the same words, two machines are alike if
their scopes bind the same names to values that are alike and all else is the
same, but for the diagnostics, which steps do not touch and of which any
relation is kept. A computation is matched by another if on alike machines the
second ends alike whenever the first ends.
-/

namespace Naskah

structure OfWords (R : Token → Token → Prop) : Prop where
  kind : ∀ {t u}, R t u → t.kind = u.kind
  lexeme : ∀ {t u}, R t u → t.lexeme = u.lexeme

theorem OfWords.ofKinds {R : Token → Token → Prop} (hR : OfWords R) : OfKinds R :=
  ⟨fun h => congrArg Kind.bare (hR.kind h)⟩

variable {R : Token → Token → Prop}

/-! ## Values -/

structure Closure.Alike (R : Token → Token → Prop) (f g : Closure) : Prop where
  name : R f.name g.name
  params : List.Forall₂ R f.params g.params
  body : List.Forall₂ (Stmt.Alike R) f.body g.body
  scope : f.scope = g.scope
  serial : f.serial = g.serial

inductive Value.Alike (R : Token → Token → Prop) : Value → Value → Prop
  | number (x : Float) : Alike R (.number x) (.number x)
  | text (s : String) : Alike R (.text s) (.text s)
  | truth (b : Bool) : Alike R (.truth b) (.truth b)
  | nil : Alike R .nil .nil
  | function {f g} : f.Alike R g → Alike R (.function f) (.function g)

namespace Value.Alike

variable {v v' w w' : Value}

theorem holds (h : v.Alike R v') : v.holds = v'.holds := by
  cases h <;> rfl

theorem same (h : v.Alike R v') (hw : w.Alike R w') : v.same w = v'.same w' := by
  cases h with
  | function hf =>
    cases hw with
    | function hg => simp [Value.same, hf.serial, hg.serial]
    | _ => rfl
  | _ => cases hw <;> rfl

theorem shown (hR : OfWords R) (h : v.Alike R v') : v.shown = v'.shown := by
  cases h with
  | function hf => simp [Value.shown, hR.lexeme hf.name]
  | _ => rfl

theorem ofLiteral (v : Literal) : (Value.ofLiteral v).Alike R (.ofLiteral v) := by
  cases v <;> constructor

/-- Operators look at functions by their kind and serial number only. -/
theorem apply_binary (op : BinaryOp) (h : v.Alike R v') (hw : w.Alike R w') :
    op.apply v w = op.apply v' w' := by
  have hsame := h.same hw
  cases h with
  | function hf => cases hw <;> cases op <;> simp_all [BinaryOp.apply, Value.kind]
  | _ =>
    cases hw with
    | function hg => cases op <;> simp_all [BinaryOp.apply, Value.kind]
    | _ => rfl

theorem apply_unary (op : UnaryOp) (h : v.Alike R v') : op.apply v = op.apply v' := by
  cases h with
  | function hf => cases op <;> rfl
  | _ => rfl

end Value.Alike

theorem BinaryOp.onNumbers_alike_self (op : BinaryOp) (x y : Float) :
    (op.onNumbers x y).Alike R (op.onNumbers x y) := by
  cases op <;> constructor

theorem BinaryOp.apply_alike_self {op : BinaryOp} {v w r : Value} (h : op.apply v w = .ok r) :
    r.Alike R r := by
  unfold BinaryOp.apply at h
  split at h
  · cases h; exact .truth _
  · cases h; exact .truth _
  · cases h; exact .text _
  · cases h; exact BinaryOp.onNumbers_alike_self _ _ _
  · cases h

theorem UnaryOp.apply_alike_self {op : UnaryOp} {v r : Value} (h : op.apply v = .ok r) :
    r.Alike R r := by
  unfold UnaryOp.apply at h
  split at h
  · cases h; exact .truth _
  · cases h; exact .number _
  · cases h

/-- A cause that can arise: of an output that takes no more, the reason is known. -/
def Cause.Known : Cause → Prop
  | .output reason => reason = Sink.closedReason
  | _ => True

theorem BinaryOp.apply_error_known {op : BinaryOp} {v w : Value} {c : Cause}
    (h : op.apply v w = .error c) : c.Known := by
  unfold BinaryOp.apply at h
  split at h <;> cases h
  trivial

theorem UnaryOp.apply_error_known {op : UnaryOp} {v : Value} {c : Cause}
    (h : op.apply v = .error c) : c.Known := by
  unfold UnaryOp.apply at h
  split at h <;> cases h
  trivial

/-! ## Scopes -/

abbrev Bindings.Alike (R : Token → Token → Prop) (bs cs : Bindings) : Prop :=
  List.Forall₂ (fun b c => b.1 = c.1 ∧ b.2.Alike R c.2) bs cs

structure Frame.Alike (R : Token → Token → Prop) (f g : Frame) : Prop where
  parent : f.parent = g.parent
  bindings : f.bindings.Alike R g.bindings

structure Store.Alike (R : Token → Token → Prop) (s s' : Store) : Prop where
  size : s.frames.size = s'.frames.size
  frames : ∀ i : ScopeId, Option.Rel (Frame.Alike R) s.frames[i]? s'.frames[i]?

theorem Bindings.Alike.insert {bs cs : Bindings} (h : bs.Alike R cs) (name : String) {v w : Value}
    (hv : v.Alike R w) : (bs.insert name v).Alike R (cs.insert name w) := by
  induction h with
  | nil => exact .cons ⟨rfl, hv⟩ .nil
  | @cons b c bs cs hb hs ih =>
    obtain ⟨n, v'⟩ := b
    obtain ⟨n', w'⟩ := c
    obtain ⟨rfl, hv'⟩ := hb
    simp only [Bindings.insert]
    split
    · exact .cons ⟨rfl, hv⟩ hs
    · exact .cons ⟨rfl, hv'⟩ ih

theorem Bindings.Alike.get? {bs cs : Bindings} (h : bs.Alike R cs) (name : String) :
    Option.Rel (Value.Alike R) (bs.get? name) (cs.get? name) := by
  unfold Bindings.get?
  induction h with
  | nil => exact .none
  | @cons b c bs cs hb hs ih =>
    obtain ⟨n, v'⟩ := b
    obtain ⟨n', w'⟩ := c
    obtain ⟨rfl, hv'⟩ := hb
    simp only [List.lookup_cons]
    split
    · exact .some hv'
    · exact ih

namespace Store.Alike

variable {s s' : Store} (h : s.Alike R s')
include h

theorem here? (i : ScopeId) (name : String) :
    Option.Rel (Value.Alike R) (s.here? i name) (s'.here? i name) := by
  have hi := h.frames i
  unfold Store.here?
  generalize s.frames[i]? = f at hi
  generalize s'.frames[i]? = g at hi
  cases hi with
  | none => exact .none
  | some hf => exact hf.bindings.get? name

theorem chainWithin (n : Nat) (i : ScopeId) : s.chainWithin n i = s'.chainWithin n i := by
  induction n generalizing i with
  | zero => rfl
  | succ n ih =>
    have hi := h.frames i
    rw [Store.chainWithin, Store.chainWithin]
    generalize s.frames[i]? = f at hi
    generalize s'.frames[i]? = g at hi
    cases hi with
    | none => rfl
    | some hf =>
      simp only [hf.parent]
      split
      · rfl
      · rw [ih]

theorem binder? (i : ScopeId) (name : String) : s.binder? i name = s'.binder? i name := by
  have hpred : (fun j => (s.here? j name).isSome) = fun j => (s'.here? j name).isSome := by
    funext j
    have hj := h.here? j name
    generalize s.here? j name = x at hj
    generalize s'.here? j name = y at hj
    cases hj <;> rfl
  rw [Store.binder?, Store.binder?, Store.chain, Store.chain, h.chainWithin, hpred]

theorem get? (i : ScopeId) (name : String) :
    Option.Rel (Value.Alike R) (s.get? i name) (s'.get? i name) := by
  rw [Store.get?, Store.get?, h.binder?]
  cases s'.binder? i name with
  | none => exact .none
  | some j => exact h.here? j name

theorem child (parent : ScopeId) : (s.child parent).1 = (s'.child parent).1 ∧
    (s.child parent).2.Alike R (s'.child parent).2 := by
  refine ⟨h.size, by simp [Store.child, h.size], fun i => ?_⟩
  simp only [Store.child, Array.getElem?_push, h.size]
  split
  · exact .some ⟨rfl, .nil⟩
  · exact h.frames i

theorem define (i : ScopeId) (name : String) {v w : Value} (hv : v.Alike R w) :
    (s.define i name v).Alike R (s'.define i name w) := by
  refine ⟨by simp [Store.define, h.size], fun j => ?_⟩
  have hj := h.frames j
  simp only [Store.define, Array.getElem?_modify]
  split
  · generalize s.frames[j]? = f at hj
    generalize s'.frames[j]? = g at hj
    cases hj with
    | none => exact .none
    | some hf => exact .some ⟨hf.parent, hf.bindings.insert name hv⟩
  · exact hj

theorem assignOrDefine (i : ScopeId) (name : String) {v w : Value} (hv : v.Alike R w) :
    (s.assignOrDefine i name v).Alike R (s'.assignOrDefine i name w) := by
  rw [Store.assignOrDefine, Store.assignOrDefine, h.binder?]
  exact h.define _ name hv

end Store.Alike

/-! ## Machines -/

structure Machine.Alike (R : Token → Token → Prop) (D : Sink → Sink → Prop)
    (m m' : Machine) : Prop where
  store : m.store.Alike R m'.store
  out : m.out = m'.out
  diagnostics : D m.diagnostics m'.diagnostics
  callDepth : m.callDepth = m'.callDepth
  functionsMade : m.functionsMade = m'.functionsMade

structure Fault.Alike (R : Token → Token → Prop) (f g : Fault) : Prop where
  token : R f.token g.token
  cause : f.cause = g.cause
  known : f.cause.Known

theorem Value.Alike.flip {v w : Value} (h : v.Alike R w) : w.Alike (flip R) v := by
  cases h with
  | number x => exact .number x
  | text s => exact .text s
  | truth b => exact .truth b
  | nil => exact .nil
  | function hf =>
    exact .function ⟨hf.name, hf.params.flip, stmts_flip hf.body, hf.scope.symm, hf.serial.symm⟩

theorem Store.Alike.flip {s s' : Store} (h : s.Alike R s') : s'.Alike (flip R) s := by
  refine ⟨h.size.symm, fun i => ?_⟩
  have hi := h.frames i
  generalize s.frames[i]? = f at hi
  generalize s'.frames[i]? = g at hi
  cases hi with
  | none => exact .none
  | some hf =>
    exact .some ⟨hf.parent.symm, hf.bindings.flip.imp fun _ _ hb => ⟨hb.1.symm, hb.2.flip⟩⟩

theorem Machine.Alike.flip {D : Sink → Sink → Prop} {m m' : Machine} (h : m.Alike R D m') :
    m'.Alike (flip R) (flip D) m :=
  ⟨h.store.flip, h.out.symm, h.diagnostics, h.callDepth.symm, h.functionsMade.symm⟩

theorem Fault.Alike.flip {f g : Fault} (h : f.Alike R g) : g.Alike (flip R) f :=
  ⟨h.token, h.cause.symm, h.cause ▸ h.known⟩

/-- The second outcome is like the first, if the first is an end. -/
inductive Outcome.Matched {α β : Type} (R : Token → Token → Prop) (D : Sink → Sink → Prop)
    (A : α → β → Prop) : Outcome α → Outcome β → Prop
  | done {a b m m'} : A a b → m.Alike R D m' → Matched R D A (.done a m) (.done b m')
  | failed {f g m m'} : f.Alike R g → m.Alike R D m' → Matched R D A (.failed f m) (.failed g m')
  | unfinished {m} (o : Outcome β) : Matched R D A (@Outcome.unfinished _ m) o

namespace Eval

def Matched {α β : Type} (R : Token → Token → Prop) (D : Sink → Sink → Prop)
    (A : α → β → Prop) (e : Eval α) (e' : Eval β) : Prop :=
  ∀ m m', m.Alike R D m' → (e m).Matched R D A (e' m')

variable {α β γ δ : Type} {D : Sink → Sink → Prop} {A : α → β → Prop} {B : γ → δ → Prop}

theorem matched_pure {a : α} {b : β} (h : A a b) : Matched R D A (pure a) (pure b) :=
  fun _ _ hm => .done h hm

theorem matched_unfinished (e : Eval β) : Matched R D A unfinished e :=
  fun _ _ _ => .unfinished _

theorem Matched.bind {e : Eval α} {e' : Eval β} {f : α → Eval γ} {g : β → Eval δ}
    (he : Matched R D A e e') (hf : ∀ a b, A a b → Matched R D B (f a) (g b)) :
    Matched R D B (e >>= f) (e' >>= g) := by
  intro m m' hm
  have h := he m m' hm
  simp only [Bind.bind, Eval.bind]
  generalize e m = o at h ⊢
  generalize e' m' = o' at h ⊢
  cases h with
  | done ha hm => exact hf _ _ ha _ _ hm
  | failed hf hm => exact .failed hf hm
  | unfinished => exact .unfinished _

theorem Matched.ite {c c' : Bool} {e f : Eval α} {e' f' : Eval β} (hc : c = c')
    (he : Matched R D A e e') (hf : Matched R D A f f') :
    Matched R D A (if c = true then e else f) (if c' = true then e' else f') := by
  subst hc
  cases c
  · exact hf
  · exact he

/-! ## Steps -/

theorem matched_fault {t u : Token} (h : R t u) {cause : Cause} (hcause : cause.Known) :
    Matched R D A (fault t cause) (fault u cause) :=
  fun _ _ hm => .failed ⟨h, rfl, hcause⟩ hm

theorem matched_settle {t u : Token} (h : R t u) {r : Except Cause α} {A : α → α → Prop}
    (hA : ∀ a, r = .ok a → A a a) (hcause : ∀ c, r = .error c → c.Known) :
    Matched R D A (settle t r) (settle u r) := by
  cases r with
  | ok a => exact matched_pure (hA a rfl)
  | error cause => exact matched_fault h (hcause cause rfl)

theorem matched_lookup (hR : OfWords R) (scope : ScopeId) {t u : Token} (h : R t u) :
    Matched R D (Value.Alike R) (lookup scope t) (lookup scope u) := by
  intro m m' hm
  have hv := hm.store.get? scope u.lexeme
  rw [lookup, lookup, hR.lexeme h]
  generalize m.store.get? scope u.lexeme = x at hv
  generalize m'.store.get? scope u.lexeme = y at hv
  cases hv with
  | none => exact .failed ⟨h, rfl, trivial⟩ hm
  | some hv => exact .done hv hm

theorem matched_child (scope : ScopeId) : Matched R D Eq (child scope) (child scope) := by
  intro m m' hm
  obtain ⟨hi, hstore⟩ := hm.store.child scope
  exact .done hi { hm with store := hstore }

theorem matched_define (scope : ScopeId) (name : String) {v w : Value} (h : v.Alike R w) :
    Matched R D (fun _ _ => True) (define scope name v) (define scope name w) :=
  fun _ _ hm => .done trivial { hm with store := hm.store.define scope name h }

theorem matched_assignOrDefine (scope : ScopeId) (name : String) {v w : Value} (h : v.Alike R w) :
    Matched R D (fun _ _ => True) (assignOrDefine scope name v) (assignOrDefine scope name w) :=
  fun _ _ hm => .done trivial { hm with store := hm.store.assignOrDefine scope name h }

theorem matched_makeFunction (scope : ScopeId) {t u : Token} {ps qs : List Token}
    {b b' : List Stmt} (ht : R t u) (hps : List.Forall₂ R ps qs)
    (hb : List.Forall₂ (Stmt.Alike R) b b') :
    Matched R D (Value.Alike R) (makeFunction scope t ps b) (makeFunction scope u qs b') :=
  fun _ _ hm => .done (.function ⟨ht, hps, hb, rfl, hm.functionsMade⟩)
    { hm with functionsMade := congrArg (· + 1) hm.functionsMade }

theorem matched_printLine {t u : Token} (h : R t u) (text : String) :
    Matched R D (fun _ _ => True) (printLine t text) (printLine u text) := by
  intro m m' hm
  simp only [printLine, hm.out]
  split
  · exact .done trivial { hm with out := rfl }
  · exact .failed ⟨h, rfl, rfl⟩ { hm with out := rfl }

theorem matched_requireCall {t u : Token} (h : R t u) :
    Matched R D (fun _ _ => True) (requireCall t) (requireCall u) := by
  intro m m' hm
  rw [requireCall, requireCall, hm.callDepth]
  split
  · exact .failed ⟨h, rfl, trivial⟩ hm
  · exact .done trivial hm

theorem Matched.duringCall {e : Eval α} {e' : Eval β} (h : Matched R D A e e') :
    Matched R D A (duringCall e) (duringCall e') := by
  intro m m' hm
  have h := h { m with callDepth := m.callDepth + 1 } { m' with callDepth := m'.callDepth + 1 }
    { hm with callDepth := congrArg (· + 1) hm.callDepth }
  rw [Eval.duringCall, Eval.duringCall]
  generalize e _ = o at h
  generalize e' _ = o' at h
  cases h with
  | done ha hm => exact .done ha { hm with callDepth := congrArg (· - 1) hm.callDepth }
  | failed hf hm => exact .failed hf { hm with callDepth := congrArg (· - 1) hm.callDepth }
  | unfinished => exact .unfinished _

end Eval

end Naskah
