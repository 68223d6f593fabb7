import Naskah.Proofs.Scope.Nesting

/-!
# Scopes form a tree

Every scope but the global one lies inside an older scope, and stays there. So
the way outwards from a scope leads to the global scope and meets no scope
twice, whatever functions are bound on the way: these lead back inwards, but
nothing that looks for a name follows them. A search for a name goes that way
until it finds a scope that binds the name.

All that a host can do with a machine keeps this: run sources, carry out
statements, evaluate expressions and make calls in any scope, with functions
that it got from the machine before, and make scopes and bind names itself.
-/

namespace Naskah

/-! ## The way outwards -/

namespace Store

inductive Climbs (s : Store) : ScopeId → List ScopeId → Prop
  | last {i} : i < s.frames.size → s.parent? i = none → s.Climbs i [i]
  | up {i j js} : s.parent? i = some j → s.Climbs j js → s.Climbs i (i :: js)

/-- The search for a name: the scopes visited, and the one found that binds it. -/
inductive Looks (s : Store) (name : String) : ScopeId → List ScopeId → Option ScopeId → Prop
  | here {i} : (s.here? i name).isSome → s.Looks name i [i] (some i)
  | nowhere {i} : i < s.frames.size → s.here? i name = none → s.parent? i = none →
      s.Looks name i [i] none
  | up {i j js found} : s.here? i name = none → s.parent? i = some j → s.Looks name j js found →
      s.Looks name i (i :: js) found

variable {s t : Store} {i j : ScopeId} {js : List ScopeId} {name : String} {v : Value}

theorem lt_of_parent? (h : s.parent? i = some j) : i < s.frames.size := by
  by_cases hi : i < s.frames.size
  · exact hi
  · simp [parent?, hi] at h

theorem Climbs.le (hs : s.Ordered) (h : s.Climbs i js) : ∀ j ∈ js, j ≤ i := by
  induction h with
  | last => simp
  | @up i j js hp _ ih =>
    have hj := hs i j hp
    intro k hk
    rcases List.mem_cons.mp hk with rfl | hk
    · exact Nat.le_refl k
    · exact Nat.le_trans (ih k hk) (Nat.le_of_lt hj)

theorem Climbs.nodup (hs : s.Ordered) (h : s.Climbs i js) : js.Nodup := by
  induction h with
  | last => simp
  | @up i j js hp hjs ih =>
    refine List.nodup_cons.mpr ⟨fun hmem => ?_, ih⟩
    -- all scopes further out are older
    exact Nat.lt_irrefl i (Nat.lt_of_le_of_lt (hjs.le hs i hmem) (hs i j hp))

theorem Climbs.length_le (hs : s.Ordered) (h : s.Climbs i js) : js.length ≤ i + 1 := by
  induction h with
  | last => simp
  | @up i j js hp _ ih =>
    have hj : j < i := hs i j hp
    have hlength := Nat.le_trans ih (Nat.succ_le_of_lt hj)
    simpa using hlength

theorem Climbs.chainWithin (h : s.Climbs i js) {length : Nat} (hlength : js.length ≤ length) :
    s.chainWithin length i = js := by
  induction h generalizing length with
  | last hi hp =>
    cases length with
    | zero => simp at hlength
    | succ length => simp [chainWithin_succ, hi, hp]
  | up hp _ ih =>
    cases length with
    | zero => simp at hlength
    | succ length =>
      rw [chainWithin_succ, if_pos (lt_of_parent? hp), hp, Option.elim_some,
        ih (by simpa using hlength)]

theorem Climbs.chain (hs : s.Ordered) (h : s.Climbs i js) : s.chain i = js :=
  h.chainWithin (h.length_le hs)

/-- A search goes outwards until it has found what it looks for. -/
theorem Climbs.looks (h : s.Climbs i js) (name : String) :
    ∃ visited, s.Looks name i visited (js.find? fun j => (s.here? j name).isSome) ∧
      visited <+: js := by
  induction h with
  | @last i hi hp =>
    cases hn : s.here? i name with
    | none => exact ⟨[i], by simpa [hn] using .nowhere hi hn hp, List.prefix_rfl⟩
    | some v => exact ⟨[i], by simpa [hn] using .here (by simp [hn]), List.prefix_rfl⟩
  | @up i j js hp _ ih =>
    cases hn : s.here? i name with
    | none =>
      obtain ⟨visited, hlooks, hvisited⟩ := ih
      exact ⟨i :: visited, by simpa [hn] using .up hn hp hlooks,
        List.cons_prefix_cons.mpr ⟨rfl, hvisited⟩⟩
    | some v => exact ⟨[i], by simpa [hn] using .here (by simp [hn]), by simp⟩

end Store

/-! ## Trees of scopes -/

def Value.Within (size : Nat) (v : Value) : Prop := ∀ f, v = .function f → f.scope < size

theorem Value.Within.mono {v : Value} {size size' : Nat} (h : v.Within size) (hle : size ≤ size') :
    v.Within size' :=
  fun f hf => Nat.lt_of_lt_of_le (h f hf) hle

theorem Value.within_of_kind {v : Value} {size : Nat} (h : v.kind ≠ .function) : v.Within size := by
  intro f hf
  subst hf
  exact absurd rfl h

structure Store.IsTree (s : Store) : Prop where
  globe : Store.globalScope < s.frames.size
  outermost : s.parent? Store.globalScope = none
  parents : ∀ i < s.frames.size, i ≠ Store.globalScope → ∃ j < i, s.parent? i = some j
  closures : s.All (Value.Within s.frames.size)

namespace Store.IsTree

variable {s : Store} (h : s.IsTree) {i : ScopeId} {v : Value} {name : String}
include h

theorem ordered : s.Ordered := by
  intro i j hj
  by_cases hi : i = globalScope
  · rw [hi, h.outermost] at hj
    cases hj
  · obtain ⟨k, hk, hp⟩ := h.parents i (lt_of_parent? hj) hi
    rw [hp] at hj
    cases hj
    exact hk

theorem climbs (i : ScopeId) (hi : i < s.frames.size) : ∃ js, s.Climbs i (js ++ [globalScope]) := by
  induction i using Nat.strongRecOn with
  | ind i ih =>
    by_cases hglobe : i = globalScope
    · subst hglobe
      exact ⟨[], .last hi h.outermost⟩
    · obtain ⟨j, hj, hp⟩ := h.parents i hi hglobe
      obtain ⟨js, hjs⟩ := ih j hj (Nat.lt_trans hj hi)
      exact ⟨i :: js, .up hp hjs⟩

theorem child (hi : i < s.frames.size) : (s.child i).2.IsTree where
  globe := by simpa using Nat.lt_succ_of_lt h.globe
  outermost := by rw [parent?_child h.globe, h.outermost]
  parents j hj hglobe := by
    by_cases hold : j < s.frames.size
    · rw [parent?_child hold]
      exact h.parents j hold hglobe
    · rw [size_child] at hj
      obtain rfl : j = s.frames.size :=
        Nat.le_antisymm (Nat.le_of_lt_succ hj) (Nat.le_of_not_lt hold)
      exact ⟨i, hi, parent?_new⟩
  closures j n w hw := by
    rw [size_child]
    exact (h.closures.child i j n w hw).mono (Nat.le_succ _)

theorem define (hv : v.Within s.frames.size) (i : ScopeId) (name : String) :
    (s.define i name v).IsTree where
  globe := by simpa using h.globe
  outermost := by rw [parent?_define, h.outermost]
  parents j hj hglobe := by
    rw [size_define] at hj
    rw [parent?_define]
    exact h.parents j hj hglobe
  closures := by
    rw [size_define]
    exact h.closures.define hv i name

end Store.IsTree

theorem Store.isTree_initial : Store.initial.IsTree where
  globe := by simp [Store.initial, Store.globalScope]
  outermost := rfl
  parents i hi hglobe := absurd (Nat.lt_one_iff.mp hi) hglobe
  closures := Store.all_initial

/-- Scopes are made inside scopes that exist, and functions are met whose scopes exist. -/
def growingTree : Discipline where
  Good s s' := s = s' ∧ s.IsTree
  Holds s v := v.Within s.frames.size
  Free s i := i < s.frames.size
  Allows s i _ := i < s.frames.size
  size h := by rw [h.1]
  holds_mono hg h := h.mono hg.size
  free_mono hg h := Nat.lt_of_lt_of_le h hg.size
  allows_mono hg h := Nat.lt_of_lt_of_le h hg.size
  plain hv := Value.within_of_kind hv
  found h _ n := ⟨by rw [h.1], fun _ hv => h.2.closures.get? hv⟩
  first h := h
  rest h := h
  free h _ := h
  inner := by
    intro s s' i st b ⟨heq, hs⟩ hi _
    subst heq
    exact ⟨⟨rfl, hs.child hi⟩, by simp⟩
  closure _ hi f hf := by
    cases hf
    exact hi
  call := by
    intro s s' f ⟨heq, hs⟩ hf
    subst heq
    exact ⟨⟨rfl, hs.child (hf f rfl)⟩, by simp, by simp⟩
  define := by
    intro s s' i v n ⟨heq, hs⟩ _ hv
    subst heq
    exact ⟨rfl, hs.define hv i n⟩
  assign := by
    intro s s' i v n ⟨heq, hs⟩ _ hv
    subst heq
    exact ⟨rfl, hs.define hv _ n⟩

/-! ## What a host can do -/

theorem Machine.interpret_store {m m' : Machine} {fuel : Nat} {program : List Stmt} {faulty : Bool}
    (h : m.interpret fuel program = some (faulty, m')) :
    m'.store = (Stmt.execsWithin fuel program Store.globalScope m).machine.store := by
  unfold Machine.interpret at h
  generalize Stmt.execsWithin fuel program Store.globalScope m = o at h ⊢
  cases o <;> cases h <;> rfl

/-- A machine, and the values that were got from it. -/
structure Host where
  machine : Machine
  held : List Value

def Flow.values : Flow → List Value
  | .normal => []
  | .returned v => [v]

namespace Host

def fresh (outLimit diagnosticsLimit : Option Nat) : Host := ⟨.fresh outLimit diagnosticsLimit, []⟩

/-- Functions come from the machine, and any other value can be made up. -/
def Has (h : Host) (v : Value) : Prop := v.kind = .function → v ∈ h.held

def Scope (h : Host) (i : ScopeId) : Prop := i < h.machine.store.frames.size

def withStore (h : Host) (s : Store) : Host := { h with machine := { h.machine with store := s } }

def after {α : Type} (h : Host) (o : Outcome α) (values : α → List Value) : Host :=
  match o with
  | .done a m => ⟨m, values a ++ h.held⟩
  | .failed _ m => ⟨m, h.held⟩
  | @Outcome.unfinished _ m => ⟨m, h.held⟩

inductive Step (h : Host) : Host → Prop
  | run {fuel source status m} : h.machine.run fuel source = some (status, m) → h.Step ⟨m, h.held⟩
  | interpret {fuel program faulty m} : h.machine.interpret fuel program = some (faulty, m) →
      h.Step ⟨m, h.held⟩
  | execute {scope} (fuel) (st : Stmt) : h.Scope scope →
      h.Step (h.after (st.execWithin fuel scope h.machine) Flow.values)
  | executeBlock {scope} (fuel) (ss : List Stmt) : h.Scope scope →
      h.Step (h.after (Stmt.execsWithin fuel ss scope h.machine) Flow.values)
  | evaluate {scope} (fuel) (e : Expr) : h.Scope scope →
      h.Step (h.after (e.evalWithin fuel scope h.machine) fun v => [v])
  | call {f args} (fuel paren) : h.Has (.function f) → (∀ v ∈ args, h.Has v) →
      h.Step (h.after (callFunction fuel (callWithin fuel) f args paren h.machine) fun v => [v])
  | get {scope name v} : h.Scope scope → h.machine.store.get? scope name = some v →
      h.Step { h with held := v :: h.held }
  | child {scope} : h.Scope scope → h.Step (h.withStore (h.machine.store.child scope).2)
  | define {scope v} (name) : h.Scope scope → h.Has v →
      h.Step (h.withStore (h.machine.store.define scope name v))
  | assign {scope v name s} : h.Scope scope → h.Has v →
      h.machine.store.assign? scope name v = some s → h.Step (h.withStore s)
  | assignOrDefine {scope v} (name) : h.Scope scope → h.Has v →
      h.Step (h.withStore (h.machine.store.assignOrDefine scope name v))

abbrev Reaches : Host → Host → Prop := Relation.ReflTransGen Step

structure Sound (h : Host) : Prop where
  tree : h.machine.store.IsTree
  held : ∀ v ∈ h.held, v.Within h.machine.store.frames.size

variable {h h' : Host} {α : Type} {scope : ScopeId} {v : Value}

theorem Sound.has (hs : h.Sound) (hv : h.Has v) : v.Within h.machine.store.frames.size := by
  by_cases hkind : v.kind = .function
  · exact hs.held v (hv hkind)
  · exact Value.within_of_kind hkind

theorem Sound.withStore (hs : h.Sound) {s : Store} (htree : s.IsTree)
    (hg : h.machine.store.Grows s) : (h.withStore s).Sound :=
  ⟨htree, fun v hv => (hs.held v hv).mono hg.size⟩

theorem Sound.after (hs : h.Sound) {A : Store → α → Prop} {values : α → List Value} {e : Eval α}
    (he : e.Beside growingTree h.machine.store A e)
    (hvalues : ∀ t a, A t a → ∀ v ∈ values a, v.Within t.frames.size) :
    (h.after (e h.machine) values).Sound ∧
    h.machine.store.Grows (h.after (e h.machine) values).machine.store := by
  have hend := he h.machine h.machine (.refl _) ⟨⟨rfl, hs.tree⟩, rfl, rfl, rfl, rfl⟩
  generalize e h.machine = o at hend
  cases hend with
  | done hg hm ha =>
    refine ⟨⟨hm.store.2, List.forall_mem_append.mpr ⟨hvalues _ _ ha, fun v hv => ?_⟩⟩, hg⟩
    exact (hs.held v hv).mono hg.size
  | failed hg hm => exact ⟨⟨hm.store.2, fun v hv => (hs.held v hv).mono hg.size⟩, hg⟩
  | unfinished _ hg hm => exact ⟨⟨hm.store.2, fun v hv => (hs.held v hv).mono hg.size⟩, hg⟩

theorem holds_within (t : Store) (v : Value) (hv : growingTree.Holds t v) :
    ∀ w ∈ [v], w.Within t.frames.size := by
  intro w hw
  rw [List.mem_singleton.mp hw]
  exact hv

theorem holdsFlow_within (t : Store) (flow : Flow) (hflow : growingTree.HoldsFlow t flow) :
    ∀ v ∈ flow.values, v.Within t.frames.size := by
  cases flow with
  | normal => simp [Flow.values]
  | returned v => exact holds_within t v hflow

theorem Sound.executeBlock (hs : h.Sound) (hscope : h.Scope scope) (fuel : Nat) (ss : List Stmt) :
    (h.after (Stmt.execsWithin fuel ss scope h.machine) Flow.values).Sound ∧
      h.machine.store.Grows
        (h.after (Stmt.execsWithin fuel ss scope h.machine) Flow.values).machine.store :=
  hs.after (Stmt.execs_beside (callWithin_beside (Nat.le_refl fuel)) (Nat.le_refl fuel) ss hscope)
    holdsFlow_within

theorem after_store {o : Outcome α} {values : α → List Value} :
    (h.after o values).machine = o.machine := by
  cases o <;> rfl

theorem Sound.program (hs : h.Sound) {m : Machine} {fuel : Nat} {program : List Stmt}
    (hm : m.store = (Stmt.execsWithin fuel program Store.globalScope h.machine).machine.store) :
    Host.Sound ⟨m, h.held⟩ ∧ h.machine.store.Grows m.store := by
  obtain ⟨hsound, hg⟩ := hs.executeBlock hs.tree.globe fuel program
  have htree := hsound.tree
  rw [after_store, ← hm] at hg htree
  exact ⟨⟨htree, fun v hv => (hs.held v hv).mono hg.size⟩, hg⟩

theorem Sound.step (hs : h.Sound) (hstep : h.Step h') :
    h'.Sound ∧ h.machine.store.Grows h'.machine.store := by
  cases hstep with
  | run hrun => exact hs.program (Machine.run_store hrun)
  | interpret hrun => exact hs.program (Machine.interpret_store hrun)
  | execute fuel st hscope =>
    exact hs.after (st.exec_beside (callWithin_beside (Nat.le_refl fuel)) (Nat.le_refl fuel) hscope)
      holdsFlow_within
  | executeBlock fuel ss hscope => exact hs.executeBlock hscope fuel ss
  | evaluate fuel e hscope =>
    exact hs.after (e.eval_beside (callWithin_beside (Nat.le_refl fuel)) hscope) holds_within
  | call fuel paren hf hargs =>
    have hvs : growingTree.HoldsAll h.machine.store _ := fun v hv => hs.has (hargs v hv)
    exact hs.after
      (callFunction_beside (callWithin_beside (Nat.le_refl fuel)) (Nat.le_refl fuel)
        (hs.has hf) hvs paren) holds_within
  | get hscope hv =>
    exact ⟨⟨hs.tree, List.forall_mem_cons.mpr ⟨hs.tree.closures.get? hv, hs.held⟩⟩, .refl _⟩
  | child hscope => exact ⟨hs.withStore (hs.tree.child hscope) (.child _ _), .child _ _⟩
  | define name _ hv =>
    exact ⟨hs.withStore (hs.tree.define (hs.has hv) _ name) (.define _ _ _ _), .define _ _ _ _⟩
  | assign _ hv hassign =>
    obtain ⟨j, -, hj⟩ := Option.map_eq_some_iff.mp hassign
    subst hj
    exact ⟨hs.withStore (hs.tree.define (hs.has hv) _ _) (.define _ _ _ _), .define _ _ _ _⟩
  | assignOrDefine name _ hv =>
    exact ⟨hs.withStore (hs.tree.define (hs.has hv) _ name) (.define _ _ _ _), .define _ _ _ _⟩

theorem Sound.reaches (hs : h.Sound) (hreach : h.Reaches h') :
    h'.Sound ∧ h.machine.store.Grows h'.machine.store := by
  induction hreach with
  | refl => exact ⟨hs, .refl _⟩
  | tail _ hstep ih =>
    obtain ⟨hsound, hg⟩ := ih.1.step hstep
    exact ⟨hsound, ih.2.trans hg⟩

theorem sound_fresh (outLimit diagnosticsLimit : Option Nat) :
    (fresh outLimit diagnosticsLimit).Sound :=
  ⟨Store.isTree_initial, by simp [fresh]⟩

end Host

theorem Store.IsTree.looks {s : Store} (h : s.IsTree) {i : ScopeId} (hi : i < s.frames.size)
    (name : String) : ∃ visited, s.Looks name i visited (s.binder? i name) ∧ visited.Nodup := by
  obtain ⟨js, hjs⟩ := h.climbs i hi
  obtain ⟨visited, hlooks, hprefix⟩ := hjs.looks name
  rw [Store.binder?, hjs.chain h.ordered]
  exact ⟨visited, hlooks, (hjs.nodup h.ordered).sublist hprefix.sublist⟩

/-- **The store stays a tree.** Whatever is done with a fresh machine, every
scope but the global one lies inside an older one, the way outwards from a scope
meets no scope twice and ends at the global one, and every function that is
bound or was given back was declared in a scope that exists. So a search for a
name ends and visits no scope twice. Nothing done later moves a scope. -/
theorem scopes_stay_a_tree {outLimit diagnosticsLimit : Option Nat} {h : Host}
    (hreach : (Host.fresh outLimit diagnosticsLimit).Reaches h) :
    (∀ i, h.Scope i → i ≠ Store.globalScope → ∃ j < i, h.machine.store.parent? i = some j) ∧
      (∀ i, h.Scope i → ∃ path, h.machine.store.Climbs i path ∧ path.Nodup ∧
        path.getLast? = some Store.globalScope ∧ path.length = h.machine.store.depth i + 1) ∧
      (∀ i name f, h.machine.store.here? i name = some (.function f) → h.Scope f.scope) ∧
      (∀ f, .function f ∈ h.held → h.Scope f.scope) ∧
      (∀ i name, h.Scope i → ∃ visited found, h.machine.store.Looks name i visited found ∧
        visited.Nodup ∧ h.machine.store.get? i name = found.bind (h.machine.store.here? · name) ∧
        h.machine.store.binds i name = found.isSome ∧
        ∀ v, h.machine.store.assign? i name v = found.map (h.machine.store.define · name v)) ∧
      ∀ h', h.Reaches h' → h.machine.store.Grows h'.machine.store := by
  obtain ⟨hs, -⟩ := (Host.sound_fresh outLimit diagnosticsLimit).reaches hreach
  refine ⟨hs.tree.parents, fun i hi => ?_, fun i name f hf => ?_, fun f hf =>
    ?_, fun i name hi => ?_, fun h' hlater => ?_⟩
  · obtain ⟨js, hjs⟩ := hs.tree.climbs i hi
    refine ⟨_, hjs, hjs.nodup hs.tree.ordered, by simp, ?_⟩
    rw [Store.depth, hjs.chain hs.tree.ordered]
    cases js <;> simp
  · exact hs.tree.closures i name _ hf f rfl
  · exact hs.held _ hf f rfl
  · obtain ⟨visited, hlooks, hnodup⟩ := hs.tree.looks hi name
    exact ⟨visited, _, hlooks, hnodup, rfl, rfl, fun v => rfl⟩
  · exact (hs.reaches hlater).2

/-- A call gives back a function declared in its own scope, which lies inside the global one. -/
theorem scopes_stay_a_tree_call :
    let source := "fungsi f()\x7bfungsi g()\x7b\x7d balikin g;\x7d"
    let e : Expr := .call (.name ⟨.name, "f", 1⟩) [] ⟨.mark .rightParen, ")", 1⟩
    ∃ m h, (Machine.fresh none none).run 2 source = some (.completed, m) ∧
      h = Host.after ⟨m, []⟩ (e.evalWithin 2 Store.globalScope m) (fun v => [v]) ∧
      h.held.map Value.kind = [.function] ∧ h.machine.store.frames.size = 2 ∧
      (∀ f, .function f ∈ h.held → f.scope < 2) ∧
      ∃ path, h.machine.store.Climbs 1 path ∧ path.Nodup ∧
        path.getLast? = some Store.globalScope := by
  intro source e
  have hends : ((Machine.fresh none none).run 2 source).map
      (fun r =>
        let h := Host.after ⟨r.2, []⟩ (e.evalWithin 2 Store.globalScope r.2) (fun v => [v])
        (r.1, r.2.store.frames.size, h.held.map Value.kind, h.machine.store.frames.size)) =
      some (.completed, 1, [.function], 2) := by decide +kernel
  obtain ⟨⟨status, m⟩, hrun, hend⟩ := Option.map_eq_some_iff.mp hends
  simp only [Prod.mk.injEq] at hend
  obtain ⟨rfl, hsize, hheld, hsize'⟩ := hend
  have hreach : (Host.fresh none none).Reaches
      (Host.after ⟨m, []⟩ (e.evalWithin 2 Store.globalScope m) (fun v => [v])) := by
    refine .tail (.single (.run hrun)) (.evaluate 2 e ?_)
    show Store.globalScope < m.store.frames.size
    rw [hsize]
    exact Nat.one_pos
  obtain ⟨-, hpaths, -, hfunctions, -⟩ := scopes_stay_a_tree hreach
  obtain ⟨path, hclimbs, hnodup, hlast, -⟩ := hpaths 1 (by rw [Host.Scope, hsize']; decide)
  refine ⟨m, _, hrun, rfl, hheld, hsize', fun f hf => ?_, path, hclimbs, hnodup, hlast⟩
  have hscope := hfunctions f hf
  rwa [Host.Scope, hsize'] at hscope

end Naskah
