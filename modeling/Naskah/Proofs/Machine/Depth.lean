import Naskah.Proofs.Machine.Travel

/-!
# Calls and returns

Every computation ends with as many open calls as it started with, and where
no call is open nothing returns. So at the top level statements are carried
out one after another, and a program may be cut between any two of them.
-/

namespace Naskah

open Eval

abbrev SameDepth (m m' : Machine) : Prop := m'.callDepth = m.callDepth

theorem sameDepth_travel : Travel SameDepth where
  refl _ := rfl
  trans h h' := h'.trans h
  child _ _ := rfl
  define _ _ _ _ := rfl
  make _ := rfl
  print _ _ := rfl
  call h := congrArg (· - 1) h

/-! ## Returns -/

def Eval.Contained (e : Eval Flow) : Prop :=
  ∀ m v m', e m = .done (.returned v) m' → m.callDepth ≠ 0

variable {call : Caller}

theorem contained_normal : Contained (pure .normal) := fun _ _ _ h => by cases h

theorem Eval.Contained.after {α : Type} {e : Eval α} {f : α → Eval Flow} (he : Along SameDepth e)
    (hf : ∀ a, Contained (f a)) : Contained (e >>= f) := by
  intro m v m' h
  simp only [Bind.bind, Eval.bind] at h
  cases hm : e m with
  | done a k =>
    rw [hm] at h
    rw [← he.done hm]
    exact hf a k v m' h
  | failed => rw [hm] at h; cases h
  | unfinished => rw [hm] at h; cases h

theorem Eval.Contained.andThen {e f : Eval Flow} (he : Contained e) (hd : Along SameDepth e)
    (hf : Contained f) : Contained (e >>= fun flow => match flow with
      | .normal => f
      | .returned v => pure (.returned v)) := by
  intro m v m' h
  simp only [Bind.bind, Eval.bind] at h
  cases hm : e m with
  | done flow k =>
    rw [hm] at h
    cases flow with
    | normal =>
      rw [← hd.done hm]
      exact hf k v m' h
    | returned w => exact he m w k hm
  | failed => rw [hm] at h; cases h
  | unfinished => rw [hm] at h; cases h

theorem requireCall_contained (t : Token) (f : Unit → Eval Flow) :
    Contained (requireCall t >>= f) := by
  intro m v m' h hzero
  simp only [Bind.bind, Eval.bind, requireCall, if_pos hzero] at h
  cases h

theorem repeatWhile_contained {condition : Eval Bool} {body : Eval Flow}
    (hc : Along SameDepth condition) (hb : Along SameDepth body) (hcontained : Contained body) :
    ∀ n, Contained (repeatWhile condition body n)
  | 0 => fun _ _ _ h => by cases h
  | n + 1 => by
    refine .after hc fun c => ?_
    cases c with
    | false => exact contained_normal
    | true => exact hcontained.andThen hb (repeatWhile_contained hc hb hcontained n)

mutual
theorem Stmt.exec_contained (hcall : ∀ v vs t, Along SameDepth (call v vs t)) (n : Nat) :
    ∀ (s : Stmt) (scope : ScopeId), Contained (s.exec call n scope)
  | .expression e, scope =>
    .after (e.eval_along sameDepth_travel hcall scope) fun _ => contained_normal
  | .print t e, scope =>
    .after (e.eval_along sameDepth_travel hcall scope) fun _ =>
      .after (along_printLine sameDepth_travel t _) fun _ => contained_normal
  | .declare _ e, scope =>
    .after (e.eval_along sameDepth_travel hcall scope) fun _ =>
      .after (along_define sameDepth_travel scope _ _) fun _ => contained_normal
  | .assign _ e, scope =>
    .after (e.eval_along sameDepth_travel hcall scope) fun _ =>
      .after (along_assignOrDefine sameDepth_travel scope _ _) fun _ => contained_normal
  | .block b, scope =>
    .after (along_child sameDepth_travel scope) fun i => Stmt.execs_contained hcall n b i
  | .branch e b o, scope => by
    refine .after (e.eval_along sameDepth_travel hcall scope) fun v =>
      .after (along_child sameDepth_travel scope) fun i => ?_
    cases v.holds with
    | true => exact Stmt.execs_contained hcall n b i
    | false => exact Stmt.execs_contained hcall n o i
  | .loop e b, scope =>
    repeatWhile_contained
      ((e.eval_along sameDepth_travel hcall scope).bind sameDepth_travel fun _ =>
          along_pure sameDepth_travel _)
        ((along_child sameDepth_travel scope).bind sameDepth_travel fun i =>
          Stmt.execs_along sameDepth_travel hcall n b i)
        (.after (along_child sameDepth_travel scope) fun i => Stmt.execs_contained hcall n b i) n
  | .function t ps b, scope =>
    .after (along_makeFunction sameDepth_travel scope t ps b) fun _ =>
      .after (along_define sameDepth_travel scope _ _) fun _ => contained_normal
  | .giveBack t _, _ => requireCall_contained t _
theorem Stmt.execs_contained (hcall : ∀ v vs t, Along SameDepth (call v vs t)) (n : Nat) :
    ∀ (ss : List Stmt) (scope : ScopeId), Contained (Stmt.execs call n ss scope)
  | [], _ => contained_normal
  | s :: ss, scope =>
    (s.exec_contained hcall n scope).andThen (s.exec_along sameDepth_travel hcall n scope)
      (Stmt.execs_contained hcall n ss scope)
end

/-! ## Cutting a program -/

theorem execs_append (call : Caller) (n : Nat) (ss ts : List Stmt) (scope : ScopeId) (m : Machine) :
    Stmt.execs call n (ss ++ ts) scope m =
      match Stmt.execs call n ss scope m with
      | .done .normal k => Stmt.execs call n ts scope k
      | o => o := by
  induction ss generalizing m with
  | nil => rfl
  | cons s ss ih =>
    simp only [List.cons_append, Stmt.execs, Bind.bind, Eval.bind]
    cases s.exec call n scope m with
    | done flow k =>
      cases flow with
      | normal => exact ih k
      | returned v => rfl
    | failed => rfl
    | unfinished => rfl

/-- Where no call is open a program is carried out in parts as in one. -/
theorem execsWithin_append {m : Machine} (hm : m.callDepth = 0) (n : Nat) (ss ts : List Stmt)
    (scope : ScopeId) : Stmt.execsWithin n (ss ++ ts) scope m =
      match Stmt.execsWithin n ss scope m with
      | .done _ k => Stmt.execsWithin n ts scope k
      | o => o := by
  have hcontained := Stmt.execs_contained (callWithin_along sameDepth_travel n) n ss scope m
  simp only [Stmt.execsWithin, execs_append]
  cases h : Stmt.execs (callWithin n) n ss scope m with
  | done flow k =>
    cases flow with
    | normal => rfl
    | returned v => exact absurd hm (hcontained v k h)
  | failed => rfl
  | unfinished => rfl

end Naskah
