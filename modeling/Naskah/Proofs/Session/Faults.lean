import Naskah.Proofs.Grammar.Fitting
import Naskah.Proofs.Machine.Conduct
import Naskah.Proofs.Session.Runs
import Naskah.Proofs.Token.Spelling

/-!
# Faults and their tokens

A fault is reported at a token. It is a token of the source that is run or of
one that was run before, whose functions are still bound, and it is of the kind
that the cause of the fault speaks of.
-/

namespace Naskah

open Eval

/-! ## Faults that fit their tokens -/

def Cause.Suits (k : Kind) : Cause → Prop
  | .operands op _ _ => BinaryOp.ofKind? k = some op
  | .negated _ => k = .mark .minus
  | .undefinedVariable => k = .name
  | .notCallable => k = .mark .rightParen
  | .argumentCount _ _ => k = .mark .rightParen
  | .returnOutsideFunction => k = .keyword .balikin
  | .output _ => k = .keyword .cetak

structure Fault.Fits (T : Token → Prop) (f : Fault) : Prop where
  token : T f.token
  suits : f.cause.Suits f.token.kind
  known : f.cause.Known

def Value.Fits (T : Token → Prop) (v : Value) : Prop :=
  ∀ f, v = .function f → ∀ s ∈ f.body, s.Fits T

def Machine.Fits (T : Token → Prop) (m : Machine) : Prop := m.store.All (Value.Fits T)

variable {T : Token → Prop}

theorem Value.fits_of_kind {v : Value} (h : v.kind ≠ .function) : v.Fits T := by
  rintro f rfl
  exact absurd rfl h

theorem UnaryOp.negate_of_ofKind? {k : Kind} (h : UnaryOp.ofKind? k = some .negate) :
    k = .mark .minus := by
  unfold UnaryOp.ofKind? at h
  split at h <;> cases h
  rfl

def fitting (T : Token → Prop) : Conduct where
  Ok := fun _ => fun P e => Meets (Machine.Fits T) (Machine.Fits T) (Fault.Fits T) P e
  Holds := Value.Fits T
  Reads := Expr.Fits T
  Does _ := Stmt.Fits T
  Closes t := T t ∧ t.kind = .mark .rightParen

theorem fitting_laws (T : Token → Prop) : (fitting T).Laws where
  pure h := meets_pure h
  bind he hf := he.bind hf
  unfinished := meets_unfinished fun _ hm => hm
  child _ scope := fun _ hm => ⟨hm.child scope, trivial⟩
  literal {v _} _ := by
    apply Value.fits_of_kind
    cases v <;> simp [Value.ofLiteral, Value.kind]
  name h scope := by
    cases h with
    | name hT ht => exact meets_lookup (fun _ _ hm hv => hm.get? hv) ⟨hT, ht, trivial⟩
  group h := by
    cases h
    assumption
  unary h := by
    cases h with
    | unary hT ht he =>
      refine ⟨he, fun v _ => meets_settle (fun r hr => Value.fits_of_kind (UnaryOp.apply_kind hr))
        fun c hc => ?_⟩
      obtain ⟨rfl, rfl⟩ := UnaryOp.apply_error hc
      exact ⟨hT, UnaryOp.negate_of_ofKind? ht, trivial⟩
  binary h := by
    cases h with
    | binary hT ht he he' =>
      refine ⟨he, he', fun v w _ _ => ?_⟩
      refine meets_settle (fun r hr => Value.fits_of_kind (BinaryOp.apply_kind hr)) fun c hc => ?_
      obtain rfl := BinaryOp.apply_error hc
      exact ⟨hT, ht, trivial⟩
  logical h := by
    cases h with
    | logical he he' => exact ⟨he, he'⟩
  arguments h := by
    cases h with
    | call he hes hT ht => exact ⟨he, hes, hT, ht⟩
  expression h := by
    cases h
    assumption
  print h := by
    cases h with
    | print hT ht he => exact ⟨he, fun _ _ => meets_printLine (fun _ _ hm => hm) ⟨hT, ht, rfl⟩⟩
  declare {_ t _} h := by
    cases h with
    | declare _ _ he => exact ⟨he, fun scope _ hv _ hm => ⟨hm.define hv scope t.lexeme, trivial⟩⟩
  assign {_ t _} h := by
    cases h with
    | assign _ _ he => exact ⟨he, fun _ _ hv _ hm => ⟨hm.define hv _ t.lexeme, trivial⟩⟩
  block h := by
    cases h
    assumption
  branch h := by
    cases h with
    | branch he hb ho => exact ⟨he, hb, ho⟩
  loop h := by
    cases h with
    | loop he hb => exact ⟨he, hb⟩
  function {_ t _ _} h scope := by
    cases h with
    | function _ _ _ hb =>
      refine ⟨fun _ hm => ⟨hm, ?_⟩, fun _ hv _ hm => ⟨hm.define hv scope t.lexeme, trivial⟩⟩
      rintro f hf
      cases hf
      exact hb
  giveBack h := by
    cases h with
    | giveBack hT ht he => exact ⟨meets_requireCall fun _ _ _ => ⟨hT, ht, trivial⟩, he⟩
  giveNothing := Value.fits_of_kind (by simp [Value.kind])
  param _ p _ _ scope _ hv := fun _ hm => ⟨hm.define hv scope p.lexeme, trivial⟩
  body h _ := h _ rfl
  duringCall h := h.duringCall (fun _ hm => hm) (fun _ hm => hm) (fun _ hm => hm) fun _ hf => hf
  notCallable h := meets_fault ⟨h.1, h.2, trivial⟩
  argumentCount h _ _ := meets_fault ⟨h.1, h.2, trivial⟩

/-! ## Runs -/

/-- The statements of a source without syntax errors fit its tokens. -/
theorem programOf_fits {source : String} (hT : Clean source → ∀ t ∈ (tokenize source).tokens, T t) :
    ∀ s ∈ programOf source, s.Fits T := by
  by_cases h : Clean source
  · have hprogram := h.program 0
    rw [setDown_zero] at hprogram
    rw [programOf_clean h]
    apply hprogram.fits
    intro t ht
    apply hT h
    rw [tokenize_tokens]
    exact List.mem_append_left _ ht
  · rw [programOf_not_clean h]
    simp

theorem execs_fits {source : String} {m : Machine} (hm : m.Fits T)
    (hT : Clean source → ∀ t ∈ (tokenize source).tokens, T t) (fuel : Nat) :
    (Stmt.execsWithin fuel (programOf source) Store.globalScope m).Meets (Machine.Fits T)
      (Machine.Fits T) (Fault.Fits T) (fitting T).HoldsFlow :=
  Stmt.execsWithin_ok (d := m.callDepth) (fitting_laws T)
    (programOf_fits hT) fuel Store.globalScope m hm

theorem Reached.fits {sources : List String} {m : Machine} (h : Reached sources m)
    (hT : ∀ s ∈ sources, Clean s → ∀ t ∈ (tokenize s).tokens, T t) : m.Fits T := by
  induction h with
  | fresh => exact Store.all_initial
  | @run sources m fuel source status m' _ hrun ih =>
    obtain ⟨hsources, hsource⟩ := List.forall_mem_append.mp hT
    have hm := ih hsources
    have hexecs := execs_fits hm (hsource source List.mem_cons_self) fuel
    cases Machine.run_cases hrun with
    | wrong => exact hm
    | completed _ hexec =>
      rw [hexec] at hexecs
      exact hexecs.1
    | fault _ hexec =>
      rw [hexec] at hexecs
      exact hexecs.1

/-- A token of one of the sources that has no syntax errors. -/
def Occurs (sources : List String) (t : Token) : Prop :=
  ∃ s ∈ sources, Clean s ∧ t ∈ (tokenize s).tokens

theorem Reached.execs_fits {sources : List String} {m k : Machine} (h : Reached sources m)
    (hstore : k.store = m.store) (source : String) (fuel : Nat) :
    (Stmt.execsWithin fuel (programOf source) Store.globalScope k).Meets
      (Machine.Fits (Occurs (sources ++ [source])))
      (Machine.Fits (Occurs (sources ++ [source]))) (Fault.Fits (Occurs (sources ++ [source])))
      (fitting (Occurs (sources ++ [source]))).HoldsFlow := by
  have hoccurs : ∀ s ∈ sources ++ [source], Clean s → ∀ t ∈ (tokenize s).tokens,
      Occurs (sources ++ [source]) t :=
    fun s hs hclean t ht => ⟨s, hs, hclean, ht⟩
  obtain ⟨hsources, hsource⟩ := List.forall_mem_append.mp hoccurs
  have hk : k.Fits (Occurs (sources ++ [source])) := by
    rw [Machine.Fits, hstore]
    exact h.fits hsources
  exact Naskah.execs_fits hk (hsource source List.mem_cons_self) fuel

theorem Machine.Raises.fits {sources : List String} {m m' : Machine} {source : String} {f : Fault}
    (h : Reached sources m) (hraises : m.Raises source f m') :
    f.Fits (Occurs (sources ++ [source])) := by
  obtain ⟨fuel, k, hexec, -, -⟩ := hraises
  have hexecs := h.execs_fits rfl source fuel
  rw [hexec] at hexecs
  exact hexecs.2

/-! ## The kinds and texts of faults -/

/-- The token is of the kind that the cause speaks of; if it is an operator, the details quote it. -/
def Fault.Apt (f : Fault) : Prop :=
  match f.cause with
  | .operands _ _ _ => (BinaryOp.ofKind? f.token.kind).isSome ∧
      ∃ rest, f.details = "Operands of '" ++ f.token.lexeme ++ "' must be " ++ rest
  | .negated _ => (UnaryOp.ofKind? f.token.kind).isSome ∧
      ∃ rest, f.details = "Operand of '" ++ f.token.lexeme ++ "' must be " ++ rest
  | .undefinedVariable => f.token.kind = .name
  | .notCallable | .argumentCount _ _ => f.token.kind = .mark .rightParen
  | .returnOutsideFunction => f.token.kind = .keyword .balikin
  | .output _ => f.token.kind = .keyword .cetak

theorem Fault.details_operands (t : Token) (op : BinaryOp) (left right : ValueKind) :
    ∃ rest, (⟨t, .operands op left right⟩ : Fault).details = "Operands of '" ++ op.spelling ++
      "' must be " ++ rest := by
  cases op with
  | add =>
    refine ⟨"two numbers or two strings, got " ++ left.name ++ " and " ++ right.name ++ ".", ?_⟩
    simp [Fault.details, BinaryOp.spelling, ← String.toList_inj]
  | _ =>
    refine ⟨"numbers, got " ++ left.name ++ " and " ++ right.name ++ ".", ?_⟩
    simp [Fault.details, ← String.toList_inj]

theorem Fault.Fits.apt {sources : List String} {f : Fault}
    (h : f.Fits (Occurs sources)) : f.Apt := by
  obtain ⟨⟨s, -, -, ht⟩, hsuits, -⟩ := h
  obtain ⟨t, cause⟩ := f
  cases cause with
  | operands op left right =>
    refine ⟨Option.isSome_iff_exists.mpr ⟨op, hsuits⟩, ?_⟩
    rw [tokenize_operator_lexeme ht hsuits]
    exact details_operands t op left right
  | negated kind =>
    refine ⟨Option.isSome_iff_exists.mpr ⟨.negate, congrArg UnaryOp.ofKind? hsuits⟩, ?_⟩
    rw [tokenize_mark_lexeme ht hsuits]
    refine ⟨"a number, got " ++ kind.name ++ ".", ?_⟩
    simp [Fault.details, Mark.spelling, ← String.toList_inj]
  | _ => exact hsuits

theorem assign_fails_iff {name : Token} {e : Expr} {scope : ScopeId} {m k : Machine} {f : Fault} :
    EndsIn (fun n => (Stmt.assign name e).execWithin n scope) m (.error f, k) ↔
      EndsIn (fun n => e.evalWithin n scope) m (.error f, k) := by
  refine exists_congr fun n => ?_
  simp only [Stmt.execWithin, Stmt.exec, Expr.evalWithin, Bind.bind, Eval.bind]
  cases e.eval (callWithin n) scope m with
  | done v k' => constructor <;> (intro h; cases h)
  | failed g k' => constructor <;> (intro h; cases h; rfl)
  | unfinished => constructor <;> (intro h; cases h)

/-- Every runtime error is at a token of the source or of an earlier one without
syntax errors, of the kind that its cause speaks of. An assignment raises what
its value raises: the name that is assigned need not be bound. -/
theorem faults_name_fitting_tokens :
    (∀ sources m, Reached sources m →
      (∀ fuel source m', m.run fuel source = some (.runtimeError, m') → ∃ f, m.Raises source f m') ∧
        ∀ source f m', m.Raises source f m' → Occurs (sources ++ [source]) f.token ∧ f.Apt) ∧
      ∀ name e scope m f k,
        EndsIn (fun n => (Stmt.assign name e).execWithin n scope) m (.error f, k) ↔
          EndsIn (fun n => e.evalWithin n scope) m (.error f, k) := by
  refine ⟨fun sources m h => ⟨fun fuel source m' hrun => Machine.raises_of_run hrun, ?_⟩, ?_⟩
  · intro source f m' hraises
    have hfits := hraises.fits h
    exact ⟨hfits.token, hfits.apt⟩
  · intro name e scope m f k
    exact assign_fails_iff

/-- A source that calls a function of an earlier one fails at the operator in its body. -/
theorem faults_name_fitting_tokens_across_sources :
    let before := "fungsi f(a)\x7bbalikin a <= -a;\x7d"
    let source := "x = benar; f(x);"
    ∃ m f m', Reached [before] m ∧ m.Raises source f m' ∧ Occurs [before, source] f.token ∧ f.Apt ∧
      f.token.lexeme = "-" ∧ ∀ t ∈ (tokenize source).tokens, t.lexeme ≠ f.token.lexeme := by
  intro before source
  have hlexemes : ((Machine.fresh none none).run 5 before).bind
      (fun r => (r.2.fault? 5 source).map (·.token.lexeme)) = some "-" := by decide +kernel
  obtain ⟨⟨status, m⟩, hrun, hlexeme⟩ := Option.bind_eq_some_iff.mp hlexemes
  obtain ⟨f, hf, hlexeme⟩ := Option.map_eq_some_iff.mp hlexeme
  have hm : Reached ([] ++ [before]) m := .run (.fresh none none) hrun
  obtain ⟨m', hraises⟩ := Machine.raises_of_fault? hf
  obtain ⟨hoccurs, hapt⟩ := (faults_name_fitting_tokens.1 _ m hm).2 source f m' hraises
  refine ⟨m, f, m', hm, hraises, hoccurs, hapt, hlexeme, ?_⟩
  rw [hlexeme]
  decide +kernel

end Naskah
