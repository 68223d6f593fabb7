import Mathlib.Data.Set.Insert
import Naskah.Proofs.Machine.Discipline

/-!
# Scopes out of reach

From a scope a program reaches the scopes around it, and through the functions
bound in these the scopes they were declared in. What it does not reach it
neither changes nor sees: not the locals of a caller, unless it is handed a
function declared among them.
-/

namespace Naskah

/-! ## Reach -/

inductive Store.Reaches (s : Store) (roots : Set ScopeId) : ScopeId → Prop
  | root {i} : i ∈ roots → s.Reaches roots i
  | parent {i j} : s.Reaches roots i → s.parent? i = some j → s.Reaches roots j
  | closure {i name f} : s.Reaches roots i → s.here? i name = some (.function f) →
      s.Reaches roots f.scope

def Store.hidden (s : Store) (roots : Set ScopeId) : Set ScopeId :=
  {i | i < s.frames.size ∧ ¬ s.Reaches roots i}

structure Machine.EqualOff (U : Set ScopeId) (m m' : Machine) : Prop where
  size : m.store.frames.size = m'.store.frames.size
  frames : ∀ i, i ∉ U → m.store.frames[i]? = m'.store.frames[i]?
  out : m.out = m'.out
  diagnostics : m.diagnostics = m'.diagnostics
  callDepth : m.callDepth = m'.callDepth
  functionsMade : m.functionsMade = m'.functionsMade

/-- A computation on the scopes within reach of `roots` alone: it leaves all
others as they are, and it ends, and with what, whatever they are. -/
structure Framed {α : Type} (roots : Set ScopeId) (run : Nat → Eval α) : Prop where
  unchanged : ∀ m r, EndsIn run m r → ∀ i ∈ m.store.hidden roots,
    r.2.store.frames[i]? = m.store.frames[i]?
  alike : ∀ m m', m.EqualOff (m.store.hidden roots) m' →
    ((∃ r, EndsIn run m r) ↔ ∃ r', EndsIn run m' r') ∧
      ∀ r r', EndsIn run m r → EndsIn run m' r' → r.1 = r'.1 ∧
        r.2.EqualOff (m.store.hidden roots) r'.2

/-! ## Sealed scopes -/

/-- Two stores that are the same off `U` and there lead nowhere into `U`, where
they are as they were. -/
structure Sealed (U : Set ScopeId) (s₀ s₀' s s' : Store) : Prop where
  size : s.frames.size = s'.frames.size
  below : ∀ i ∈ U, i < s.frames.size
  kept : ∀ i ∈ U, s.frames[i]? = s₀.frames[i]? ∧ s'.frames[i]? = s₀'.frames[i]?
  frames : ∀ i, i ∉ U → s.frames[i]? = s'.frames[i]?
  parents : ∀ i j, i ∉ U → s.parent? i = some j → j ∉ U
  closures : ∀ i n f, i ∉ U → s.here? i n = some (.function f) → f.scope ∉ U

namespace Sealed

variable {U : Set ScopeId} {s₀ s₀' s s' : Store} (h : Sealed U s₀ s₀' s s') {i : ScopeId}
  {n : String} {v : Value}
include h

theorem parent? (hi : i ∉ U) : s.parent? i = s'.parent? i := by
  rw [Store.parent?, Store.parent?, h.frames i hi]

theorem here? (hi : i ∉ U) : s.here? i n = s'.here? i n := by
  rw [Store.here?, Store.here?, h.frames i hi]

theorem flip : Sealed U s₀' s₀ s' s where
  size := h.size.symm
  below i hi := h.size ▸ h.below i hi
  kept i hi := (h.kept i hi).symm
  frames i hi := (h.frames i hi).symm
  parents i j hi hj := h.parents i j hi (by rwa [h.parent? hi])
  closures i n f hi hf := h.closures i n f hi (by rwa [h.here? hi])

theorem chainWithin (length : Nat) (hi : i ∉ U) :
    s.chainWithin length i = s'.chainWithin length i ∧ ∀ j ∈ s.chainWithin length i, j ∉ U := by
  induction length generalizing i with
  | zero => simp [Store.chainWithin]
  | succ length ih =>
    rw [Store.chainWithin_succ, Store.chainWithin_succ, ← h.size, ← h.parent? hi]
    by_cases hsize : i < s.frames.size
    · rw [if_pos hsize, if_pos hsize]
      cases hp : s.parent? i with
      | none => simpa using hi
      | some j =>
        obtain ⟨heq, hoff⟩ := ih (h.parents i j hi hp)
        simp only [Option.elim_some, ← heq, List.forall_mem_cons]
        exact ⟨trivial, hi, hoff⟩
    · simp [hsize]

theorem binder? (hi : i ∉ U) :
    s.binder? i n = s'.binder? i n ∧ ∀ j, s.binder? i n = some j → j ∉ U := by
  obtain ⟨hchain, hoff⟩ := h.chainWithin (i + 1) hi
  refine ⟨?_, fun j hj => hoff j (List.mem_of_find?_eq_some hj)⟩
  have hsame : ∀ j ∈ s.chainWithin (i + 1) i, (s.here? j n).isSome = (s'.here? j n).isSome :=
    fun j hj => by rw [h.here? (hoff j hj)]
  rw [Store.binder?, Store.binder?, Store.chain, Store.chain, ← hchain, ← List.head?_filter,
    ← List.head?_filter, List.filter_congr hsame]

theorem get? (hi : i ∉ U) : s.get? i n = s'.get? i n := by
  obtain ⟨hbinder, hoff⟩ := h.binder? (n := n) hi
  rw [Store.get?, Store.get?, ← hbinder]
  cases hj : s.binder? i n with
  | none => rfl
  | some j => exact h.here? (hoff j hj)

theorem get?_closure (hi : i ∉ U) {f : Closure} (hf : s.get? i n = some (.function f)) :
    f.scope ∉ U := by
  obtain ⟨j, hj, hjf⟩ := Option.bind_eq_some_iff.mp hf
  exact h.closures j n f ((h.binder? hi).2 j hj) hjf

theorem child (hi : i ∉ U) : Sealed U s₀ s₀' (s.child i).2 (s'.child i).2 := by
  -- scopes of `U` are older than the new one
  have hold : ∀ j ∈ U, (s.child i).2.frames[j]? = s.frames[j]? ∧
      (s'.child i).2.frames[j]? = s'.frames[j]? :=
    fun j hj => ⟨Store.frames_child (h.below j hj), Store.frames_child (h.size ▸ h.below j hj)⟩
  refine ⟨?_, ?_, ?_, ?_, ?_, ?_⟩
  · simp [h.size]
  · intro j hj
    rw [Store.size_child]
    exact Nat.lt_succ_of_lt (h.below j hj)
  · intro j hj
    rw [(hold j hj).1, (hold j hj).2]
    exact h.kept j hj
  · intro j hj
    simp only [Store.child, Array.getElem?_push, h.size, h.frames j hj]
  · intro j k hj hk
    by_cases hsize : j < s.frames.size
    · rw [Store.parent?_child hsize] at hk
      exact h.parents j k hj hk
    · simp only [Store.parent?, Store.child, Array.getElem?_push] at hk
      by_cases hnew : j = s.frames.size
      · simp only [hnew, if_true] at hk
        cases hk
        exact hi
      · simp [hnew, hsize] at hk
  · intro j n f hj hf
    rw [Store.here?_child] at hf
    exact h.closures j n f hj hf

theorem define (hi : i ∉ U) (hv : ∀ f, v = .function f → f.scope ∉ U) :
    Sealed U s₀ s₀' (s.define i n v) (s'.define i n v) := by
  have hold : ∀ j ∈ U, j ≠ i := fun j hj hji => hi (hji ▸ hj)
  refine ⟨?_, ?_, ?_, ?_, ?_, ?_⟩
  · simp [h.size]
  · intro j hj
    rw [Store.size_define]
    exact h.below j hj
  · intro j hj
    rw [Store.frames_define (hold j hj), Store.frames_define (hold j hj)]
    exact h.kept j hj
  · intro j hj
    simp only [Store.define, Array.getElem?_modify, h.frames j hj]
  · intro j k hj hk
    rw [Store.parent?_define] at hk
    exact h.parents j k hj hk
  · intro j m f hj hf
    rw [Store.here?_define] at hf
    by_cases hw : j = i ∧ m = n ∧ i < s.frames.size
    · rw [if_pos hw] at hf
      exact hv f (Option.some.inj hf)
    · rw [if_neg hw] at hf
      exact h.closures j m f hj hf

theorem assign (hi : i ∉ U) (hv : ∀ f, v = .function f → f.scope ∉ U) :
    Sealed U s₀ s₀' (s.assignOrDefine i n v) (s'.assignOrDefine i n v) := by
  obtain ⟨hbinder, hoff⟩ := h.binder? (n := n) hi
  rw [Store.assignOrDefine, Store.assignOrDefine, ← hbinder]
  apply h.define _ hv
  cases hj : s.binder? i n with
  | none => exact hi
  | some j => exact hoff j hj

end Sealed

def sealing (U : Set ScopeId) (s₀ s₀' : Store) : Discipline where
  Good := Sealed U s₀ s₀'
  Holds _ v := ∀ f, v = .function f → f.scope ∉ U
  Free _ i := i ∉ U
  Allows _ i _ := i ∉ U
  size h := h.size
  holds_mono _ h := h
  free_mono _ h := h
  allows_mono _ h := h
  plain hv f hf := absurd (by rw [hf, Value.kind]) hv
  found h hi n := ⟨h.get? hi, fun _ hv _ hf => h.get?_closure hi (hf ▸ hv)⟩
  first h := h
  rest h := h
  free h _ := h
  inner h hi _ := ⟨h.child hi, fun hU => Nat.lt_irrefl _ (h.below _ hU)⟩
  closure _ hi f hf := by cases hf; exact hi
  call h hf := ⟨h.child (hf _ rfl), fun hU => Nat.lt_irrefl _ (h.below _ hU), fun hU =>
    Nat.lt_irrefl _ (h.below _ hU)⟩
  define _ h hi hv := h.define hi hv
  assign _ h hi hv := h.assign hi hv

/-! ## Frames -/

theorem Store.sealed_hidden {s s' : Store} {roots : Set ScopeId}
    (hsize : s.frames.size = s'.frames.size)
    (hframes : ∀ i, i ∉ s.hidden roots → s.frames[i]? = s'.frames[i]?) :
    Sealed (s.hidden roots) s s' s s' where
  size := hsize
  below _ hi := hi.1
  kept _ _ := ⟨rfl, rfl⟩
  frames := hframes
  parents i j hi hj := by
    -- a scope that is not hidden is within reach, or there is none
    by_cases hsize : i < s.frames.size
    · have hreach : s.Reaches roots i := by
        by_contra hnot
        exact hi ⟨hsize, hnot⟩
      exact fun hU => hU.2 (hreach.parent hj)
    · simp [Store.parent?, hsize] at hj
  closures i n f hi hf := by
    have hreach : s.Reaches roots i := by
      by_contra hnot
      exact hi ⟨Store.here?_lt hf, hnot⟩
    exact fun hU => hU.2 (hreach.closure hf)

theorem Machine.EqualOff.refl (U : Set ScopeId) (m : Machine) : m.EqualOff U m :=
  ⟨rfl, fun _ _ => rfl, rfl, rfl, rfl, rfl⟩

theorem Machine.EqualOff.symm {U : Set ScopeId} {m m' : Machine} (h : m.EqualOff U m') :
    m'.EqualOff U m :=
  ⟨h.size.symm, fun i hi => (h.frames i hi).symm, h.out.symm, h.diagnostics.symm, h.callDepth.symm,
    h.functionsMade.symm⟩

theorem ends_equalOff {α : Type} {U : Set ScopeId} {run : Nat → Eval α} {m m' : Machine}
    (h : (sealing U m.store m'.store).Keeps m.store run)
    (hs : Sealed U m.store m'.store m.store m'.store) (hm : m.EqualOff U m') {n n' : Nat}
    (hn : n ≤ n') {r : Except Fault α × Machine} (hr : (run n m).end? = some r) :
    (∀ i ∈ U, r.2.store.frames[i]? = m.store.frames[i]?) ∧
      ∃ r', (run n' m').end? = some r' ∧ r.1 = r'.1 ∧ r.2.EqualOff U r'.2 := by
  obtain ⟨-, k, hk, hend⟩ :=
    h.ends ⟨hs, hm.out, hm.diagnostics, hm.callDepth, hm.functionsMade⟩ hn hr
  refine ⟨fun i hi => (hend.store.kept i hi).1, (r.1, k), hk, rfl, ?_⟩
  exact ⟨hend.store.size, hend.store.frames, hend.out, hend.diagnostics, hend.callDepth,
    hend.functionsMade⟩

theorem framed_of_keeps {α : Type} {roots : Set ScopeId} {run : Nat → Eval α}
    (h : ∀ U s₀ s₀' s, (∀ i ∈ roots, i ∉ U) → (sealing U s₀ s₀').Keeps s run) :
    Framed roots run := by
  have hroots : ∀ s : Store, ∀ i ∈ roots, i ∉ s.hidden roots := fun s i hi hU => hU.2 (.root hi)
  constructor
  · intro m r hr i hi
    obtain ⟨n, hr⟩ := hr
    have hsealed : Sealed (m.store.hidden roots) m.store m.store m.store m.store :=
      Store.sealed_hidden rfl fun _ _ => rfl
    exact (ends_equalOff (h _ _ _ _ (hroots _)) hsealed (.refl _ m) (Nat.le_refl n) hr).1 i hi
  · intro m m' hm
    have hsealed := Store.sealed_hidden hm.size hm.frames
    apply ends_alike
    · intro n n' r hn hr
      exact (ends_equalOff (h _ _ _ _ (hroots _)) hsealed hm hn hr).2
    · intro n n' r hn hr
      obtain ⟨-, r', hr', heq, hoff⟩ :=
        ends_equalOff (h _ _ _ _ (hroots _)) hsealed.flip hm.symm hn hr
      exact ⟨r', hr', heq.symm, hoff.symm⟩

def callRoots (f : Closure) (args : List Value) : Set ScopeId :=
  insert f.scope {i | ∃ g, Value.function g ∈ args ∧ g.scope = i}

/-- **Lexical scoping.** Expressions and statements act on what is within reach
of the scope they are carried out in, and calls on what is within reach of the
function and its arguments. -/
theorem lexical_frame :
    (∀ (e : Expr) (scope : ScopeId), Framed {scope} fun n => e.evalWithin n scope) ∧
      (∀ (st : Stmt) (scope : ScopeId), Framed {scope} fun n => st.execWithin n scope) ∧
      ∀ (f : Closure) (args : List Value) (paren : Token),
        Framed (callRoots f args) fun n => callFunction n (callWithin n) f args paren := by
  refine ⟨fun e scope => ?_, fun st scope => ?_, fun f args paren => ?_⟩
  · apply framed_of_keeps
    intro U s₀ s₀' s hroots
    exact evalWithin_keeps (hroots scope rfl) e
  · apply framed_of_keeps
    intro U s₀ s₀' s hroots
    exact execWithin_keeps (hroots scope rfl)
  · apply framed_of_keeps
    intro U s₀ s₀' s hroots
    apply callFunction_keeps
    · intro g hg
      cases hg
      exact hroots _ (Or.inl rfl)
    · intro v hv g hg
      subst hg
      exact hroots _ (Or.inr ⟨g, hv, rfl⟩)

/-- A function of the global scope that assigns `x`, called where a block binds an `x` of its own. -/
theorem lexical_frame_block :
    let f : Closure :=
      ⟨⟨.name, "f", 1⟩, [], [.assign ⟨.name, "x", 1⟩ (.literal (.truth true) 1)], 0, 0⟩
    let m : Machine := { Machine.fresh none none with
      store := ⟨#[⟨none, [("f", .function f)]⟩, ⟨some 0, [("x", .nil)]⟩]⟩ }
    1 ∈ m.store.hidden (callRoots f []) ∧
      ∃ r, EndsIn (fun n => callFunction n (callWithin n) f [] ⟨.mark .rightParen, ")", 1⟩) m r ∧
        r.2.store.frames[1]? = some ⟨some 0, [("x", .nil)]⟩ := by
  intro f m
  have hreach : ∀ i, m.store.Reaches (callRoots f []) i → i = 0 := by
    intro i h
    induction h with
    | root h =>
      rcases h with rfl | ⟨g, hg, -⟩
      · rfl
      · cases hg
    | parent _ hp ih =>
      subst ih
      cases hp
    | @closure _ n g _ hg ih =>
      subst ih
      by_cases hn : n = "f"
      · subst hn
        cases hg
        rfl
      · simp [m, Store.here?, Bindings.get?, List.lookup_cons, beq_false_of_ne hn] at hg
  have hhidden : 1 ∈ m.store.hidden (callRoots f []) :=
    ⟨by decide, fun h => absurd (hreach 1 h) (by decide)⟩
  obtain ⟨r, hr⟩ :
    ∃ r, EndsIn (fun n => callFunction n (callWithin n) f [] ⟨.mark .rightParen, ")", 1⟩) m r :=
    ⟨_, 0, rfl⟩
  exact ⟨hhidden, r, hr, (lexical_frame.2.2 f [] _).unchanged m r hr 1 hhidden⟩

end Naskah
