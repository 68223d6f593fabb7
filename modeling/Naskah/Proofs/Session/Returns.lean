import Naskah.Proofs.Machine.Conduct
import Naskah.Proofs.Session.Runs

/-!
# Returns are contained

A call closes what it opens, however its body ends, so the number of open calls
tells whether code of a function is carried out. Where none is open nothing
returns, and a return is refused only where it stands outside all functions in
the source that is run.
-/

namespace Naskah

open Eval

/-! ## Returns in a text -/

mutual
/-- The keywords of the returns in a statement that stand in no function of it. -/
def Stmt.outerReturns : Stmt → List Token
  | .block body => Stmt.outerReturnsOf body
  | .branch _ body otherwise => Stmt.outerReturnsOf body ++ Stmt.outerReturnsOf otherwise
  | .loop _ body => Stmt.outerReturnsOf body
  | .giveBack keyword _ => [keyword]
  | _ => []
def Stmt.outerReturnsOf : List Stmt → List Token
  | [] => []
  | s :: ss => s.outerReturns ++ Stmt.outerReturnsOf ss
end

theorem mem_outerReturnsOf {t : Token} {ss : List Stmt} :
    t ∈ Stmt.outerReturnsOf ss ↔ ∃ s ∈ ss, t ∈ s.outerReturns := by
  induction ss with
  | nil => simp [Stmt.outerReturnsOf]
  | cons s ss ih => simp [Stmt.outerReturnsOf, ih]

/-! ## Where a return is refused -/

def Fault.Stray (T : Token → Prop) (d : Nat) (f : Fault) : Prop :=
  f.cause = .returnOutsideFunction → d = 0 ∧ T f.token

theorem Fault.stray_of_ne {T : Token → Prop} {d : Nat} {t : Token} {c : Cause}
    (h : c ≠ .returnOutsideFunction) : Fault.Stray T d ⟨t, c⟩ :=
  fun hc => absurd hc h

def returning (T : Token → Prop) : Conduct where
  Ok := fun d => fun P e => Meets (fun m => m.callDepth = d) (fun _ => True) (Fault.Stray T d) P e
  Holds _ := True
  Reads _ := True
  -- inside a call all statements may be carried out
  Does d s := d = 0 → ∀ t ∈ s.outerReturns, T t
  Closes _ := True

theorem returning_laws (T : Token → Prop) : (returning T).Laws where
  pure h := meets_pure h
  bind he hf := he.bind hf
  unfinished := meets_unfinished fun _ _ => trivial
  child _ _ := fun _ hm => ⟨hm, trivial⟩
  literal _ := trivial
  name _ _ := meets_lookup (fun _ _ _ _ => trivial) (Fault.stray_of_ne (by simp))
  group _ := trivial
  unary _ := by
    refine ⟨trivial, fun v _ => meets_settle (fun _ _ => trivial) fun c hc => ?_⟩
    rw [(UnaryOp.apply_error hc).2]
    exact Fault.stray_of_ne (by simp)
  binary _ := by
    refine ⟨trivial, trivial, fun v w _ _ => meets_settle (fun _ _ => trivial) fun c hc => ?_⟩
    rw [BinaryOp.apply_error hc]
    exact Fault.stray_of_ne (by simp)
  logical _ := ⟨trivial, trivial⟩
  arguments _ := ⟨trivial, fun _ _ => trivial, trivial⟩
  expression _ := trivial
  print _ := ⟨trivial, fun _ _ => meets_printLine (fun _ _ hm => hm) (Fault.stray_of_ne (by simp))⟩
  declare _ := ⟨trivial, fun _ _ _ => fun _ hm => ⟨hm, trivial⟩⟩
  assign _ := ⟨trivial, fun _ _ _ => fun _ hm => ⟨hm, trivial⟩⟩
  block h := by
    intro s hs hd t ht
    exact h hd t (mem_outerReturnsOf.mpr ⟨s, hs, ht⟩)
  branch h := by
    refine ⟨trivial, fun s hs hd t ht => h hd t ?_, fun s hs hd t ht => h hd t ?_⟩
    · exact List.mem_append_left _ (mem_outerReturnsOf.mpr ⟨s, hs, ht⟩)
    · exact List.mem_append_right _ (mem_outerReturnsOf.mpr ⟨s, hs, ht⟩)
  loop h := by
    refine ⟨trivial, fun s hs hd t ht => ?_⟩
    exact h hd t (mem_outerReturnsOf.mpr ⟨s, hs, ht⟩)
  function _ _ := ⟨fun _ hm => ⟨hm, trivial⟩, fun _ _ => fun _ hm => ⟨hm, trivial⟩⟩
  giveBack h := by
    refine ⟨meets_requireCall fun m hm hzero _ => ?_, fun _ _ => trivial⟩
    have hd := hm.symm.trans hzero
    exact ⟨hd, h hd _ (List.mem_singleton.mpr rfl)⟩
  giveNothing := trivial
  param _ _ _ _ _ _ _ := fun _ hm => ⟨hm, trivial⟩
  body _ _ _ _ hd := absurd hd (Nat.succ_ne_zero _)
  duringCall {d e} h := by
    apply h.duringCall
    · exact fun _ hm => congrArg (· + 1) hm
    · exact fun _ hm => congrArg (· - 1) hm
    · exact fun _ _ => trivial
    · exact fun f hf hcause => absurd (hf hcause).1 (Nat.succ_ne_zero d)
  notCallable _ := meets_fault (Fault.stray_of_ne (by simp))
  argumentCount _ _ _ := meets_fault (Fault.stray_of_ne (by simp))

/-! ## Ends -/

variable {α : Type} {T : Token → Prop} {P : α → Prop}

def Balanced (run : Nat → Eval α) : Prop := ∀ m r, EndsIn run m r → r.2.callDepth = m.callDepth

def Returning (run : Nat → Eval α) : Prop :=
  ∀ m f k, EndsIn run m (.error f, k) → f.cause ≠ .returnOutsideFunction

theorem balanced_of_ok {run : Nat → Eval α} (h : ∀ n d, (returning T).Ok d P (run n)) :
    Balanced run := by
  rintro m r ⟨n, hr⟩
  have hmeets := h n m.callDepth m rfl
  generalize run n m = o at hr hmeets
  cases o with
  | done a k => cases hr; exact hmeets.1
  | failed f k => cases hr; exact hmeets.1
  | unfinished => cases hr

/-- A fault is a refused return only with no call open and at a token in `T`. -/
theorem stray_of_ok {run : Nat → Eval α} {m k : Machine}
    (h : ∀ n, (returning T).Ok m.callDepth P (run n)) {f : Fault}
    (hf : EndsIn run m (.error f, k)) : f.Stray T m.callDepth := by
  obtain ⟨n, hf⟩ := hf
  have hmeets := h n m rfl
  generalize run n m = o at hf hmeets
  cases o with
  | done a k => cases hf
  | failed f k => cases hf; exact hmeets.2
  | unfinished => cases hf

theorem returning_of_ok {run : Nat → Eval α}
    (h : ∀ n d, (returning fun _ => False).Ok d P (run n)) : Returning run :=
  fun m _ _ hf hcause => (stray_of_ok (fun n => h n m.callDepth) hf hcause).2

theorem normal_of_contained {run : Nat → Eval Flow} (h : ∀ n, Contained (run n))
    {m k : Machine} {flow : Flow} (hm : m.callDepth = 0) (hend : EndsIn run m (.ok flow, k)) :
    flow = .normal := by
  obtain ⟨n, hend⟩ := hend
  cases ho : run n m with
  | done flow' k' =>
    rw [ho] at hend
    cases hend
    cases flow with
    | normal => rfl
    | returned v => exact absurd hm (h n m v k ho)
  | failed => rw [ho] at hend; cases hend
  | unfinished => rw [ho] at hend; cases hend

theorem callFunction_returning (T : Token → Prop) (f : Closure) (args : List Value)
    (paren : Token) (n d : Nat) :
    (returning T).Ok d (fun _ => True) (callFunction n (callWithin n) f args paren) :=
  callFunction_ok (returning_laws T) (callWithin_ok (returning_laws T) n (d + 1)) n trivial
    (fun _ _ => trivial) trivial

/-! ## Closing only what is open -/

/-- Runs the body of a call as `duringCall` does, but does not end where no call is open to be closed. -/
def Eval.duringOpenCall (body : Eval α) : Eval α := fun m =>
  match body { m with callDepth := m.callDepth + 1 } with
  | .done a m =>
    if m.callDepth = 0 then unfinished m else .done a { m with callDepth := m.callDepth - 1 }
  | .failed fault m =>
    if m.callDepth = 0 then unfinished m else .failed fault { m with callDepth := m.callDepth - 1 }
  | @Outcome.unfinished _ m => unfinished m

def callFunctionOpen (fuel : Nat) (call : Caller) (f : Closure) (args : List Value)
    (paren : Token) : Eval Value :=
  if args.length = f.arity then
    Eval.duringOpenCall do
      let scope ← Eval.child f.scope
      bindParams scope f.params args
      match ← Stmt.execs call fuel f.body scope with
      | .normal => pure .nil
      | .returned v => pure v
  else Eval.fault paren (.argumentCount f.arity args.length)

/-- Calls that get stuck at the first call that is closed with none open. -/
def callOpenWithin : Nat → Caller
  | 0, _, _, _ => Eval.unfinished
  | fuel + 1, callee, args, paren =>
    match callee with
    | .function f => callFunctionOpen fuel (callOpenWithin fuel) f args paren
    | _ => Eval.fault paren .notCallable

theorem duringOpenCall_eq {body : Eval α} (h : Along SameDepth body) :
    duringOpenCall body = duringCall body := by
  funext m
  unfold duringOpenCall duringCall
  cases hbody : body { m with callDepth := m.callDepth + 1 } with
  | done a k =>
    have hk : k.callDepth ≠ 0 := by
      rw [h.done hbody]
      exact Nat.succ_ne_zero _
    simp only [if_neg hk]
  | failed f k =>
    have hk : k.callDepth ≠ 0 := by
      rw [h.failed hbody]
      exact Nat.succ_ne_zero _
    simp only [if_neg hk]
  | unfinished => rfl

theorem callOpenWithin_eq : ∀ n, callOpenWithin n = callWithin n
  | 0 => rfl
  | n + 1 => by
    funext v vs paren
    cases v with
    | function f =>
      rw [callOpenWithin, callWithin, callOpenWithin_eq n, callFunctionOpen, callFunction]
      split
      · apply duringOpenCall_eq
        refine (along_child sameDepth_travel _).bind sameDepth_travel fun i => ?_
        refine (bindParams_along sameDepth_travel i _ _).bind sameDepth_travel fun _ => ?_
        refine (Stmt.execs_along sameDepth_travel
          (callWithin_along sameDepth_travel n) n f.body i).bind sameDepth_travel fun flow => ?_
        cases flow with
        | normal => exact along_pure sameDepth_travel _
        | returned v => exact along_pure sameDepth_travel _
      · rfl
    | _ => rfl

/-! ## Runs -/

/-- No call is open between runs. -/
theorem Reached.callDepth {sources : List String} {m : Machine} (h : Reached sources m) :
    m.callDepth = 0 := by
  induction h with
  | fresh => rfl
  | run _ hrun ih =>
    cases Machine.run_cases hrun with
    | wrong => exact ih
    | completed _ hexec =>
      exact ((Stmt.execsWithin_along sameDepth_travel _ _ _).done hexec).trans ih
    | fault _ hexec => exact ((Stmt.execsWithin_along sameDepth_travel _ _ _).failed hexec).trans ih

theorem outerReturn_of_raises {m m' : Machine} {source : String} {f : Fault}
    (h : m.Raises source f m') (hcause : f.cause = .returnOutsideFunction) :
    f.token ∈ Stmt.outerReturnsOf (programOf source) := by
  obtain ⟨fuel, k, hexec, -, -⟩ := h
  let T : Token → Prop := (· ∈ Stmt.outerReturnsOf (programOf source))
  have hdoes : ∀ s ∈ programOf source, (returning T).Does m.callDepth s :=
    fun s hs _ t ht => mem_outerReturnsOf.mpr ⟨s, hs, ht⟩
  have hend :
      EndsIn (fun n => Stmt.execsWithin n (programOf source) Store.globalScope) m (.error f, k) :=
    ⟨fuel, congrArg Outcome.end? hexec⟩
  exact (stray_of_ok (fun n => Stmt.execsWithin_ok (returning_laws _) hdoes n Store.globalScope)
    hend hcause).2

/-- **Returns are contained.** Expressions, statements and calls end with as
many open calls as they started with, and no call is closed with none open.
Where none is open statements do not return, and neither an expression nor a
call fails for that. So whatever runs went before, a run refuses a return only
at a keyword of its own source that stands outside all functions. -/
theorem returns_are_contained :
    ((∀ e scope, Balanced fun n => Expr.evalWithin n e scope) ∧
        (∀ s scope, Balanced fun n => Stmt.execWithin n s scope) ∧
        (∀ ss scope, Balanced fun n => Stmt.execsWithin n ss scope) ∧
        ∀ f args paren, Balanced fun n => callFunction n (callWithin n) f args paren) ∧
      (∀ n, callOpenWithin n = callWithin n) ∧
      (∀ m : Machine, m.callDepth = 0 →
        (∀ s scope flow k, EndsIn (fun n => Stmt.execWithin n s scope) m (.ok flow, k) →
          flow = .normal) ∧
          ∀ ss scope flow k, EndsIn (fun n => Stmt.execsWithin n ss scope) m (.ok flow, k) →
            flow = .normal) ∧
      ((∀ e scope, Returning fun n => Expr.evalWithin n e scope) ∧
        ∀ f args paren, Returning fun n => callFunction n (callWithin n) f args paren) ∧
      ∀ sources m, Reached sources m → m.callDepth = 0 ∧
        ∀ source f m', m.Raises source f m' → f.cause = .returnOutsideFunction →
          f.token ∈ Stmt.outerReturnsOf (programOf source) := by
  have hanywhere : ∀ d s, (returning fun _ => True).Does d s := fun _ _ _ _ _ => trivial
  have hcall := fun n => callWithin_along sameDepth_travel n
  refine ⟨⟨?_, ?_, ?_, ?_⟩, callOpenWithin_eq, ?_, ⟨?_, ?_⟩, ?_⟩
  · intro e scope
    exact balanced_of_ok fun n d => e.evalWithin_ok (returning_laws fun _ => True) trivial n d scope
  · intro s scope
    exact balanced_of_ok fun n d => s.execWithin_ok (returning_laws _) (hanywhere d s) n scope
  · intro ss scope
    exact balanced_of_ok fun n d =>
      Stmt.execsWithin_ok (returning_laws _) (fun s _ => hanywhere d s) n scope
  · intro f args paren
    exact balanced_of_ok (callFunction_returning (fun _ => True) f args paren)
  · intro m hm
    refine ⟨fun s scope flow k hend => ?_, fun ss scope flow k hend => ?_⟩
    · exact normal_of_contained (fun n => s.exec_contained (hcall n) n scope) hm hend
    · exact normal_of_contained (fun n => Stmt.execs_contained (hcall n) n ss scope) hm hend
  · intro e scope
    exact returning_of_ok fun n d => e.evalWithin_ok (returning_laws _) trivial n d scope
  · intro f args paren
    exact returning_of_ok (callFunction_returning _ f args paren)
  · intro sources m h
    exact ⟨h.callDepth, fun source f m' hraises hcause => outerReturn_of_raises hraises hcause⟩

/-- A run fails in a call inside a call, and the next refuses the one return in
it that stands outside a function. -/
theorem returns_are_contained_after_fault :
    let before := "fungsi g()\x7bbalikin y;\x7d fungsi f()\x7bbalikin g();\x7d f();"
    let source := "fungsi h()\x7bbalikin benar;\x7d h(); jika benar \x7bbalikin;\x7d"
    ∃ m f m', Reached [before] m ∧ m.callDepth = 0 ∧ m.Raises source f m' ∧
      f.token ∈ Stmt.outerReturnsOf (programOf source) ∧
      (Stmt.outerReturnsOf (programOf source)).length = 1 := by
  intro before source
  have hcauses : ((Machine.fresh none none).run 5 before).bind
      (fun r => (r.2.fault? 5 source).map (·.cause)) = some .returnOutsideFunction := by
    decide +kernel
  obtain ⟨⟨status, m⟩, hrun, hcause⟩ := Option.bind_eq_some_iff.mp hcauses
  obtain ⟨f, hf, hcause⟩ := Option.map_eq_some_iff.mp hcause
  have hm : Reached ([] ++ [before]) m := .run (.fresh none none) hrun
  obtain ⟨m', hraises⟩ := Machine.raises_of_fault? hf
  obtain ⟨hdepth, houter⟩ := returns_are_contained.2.2.2.2 _ m hm
  exact ⟨m, f, m', hm, hdepth, hraises, houter source f m' hraises hcause, by decide +kernel⟩

end Naskah
