import Mathlib.Order.MinMax
import Naskah.Proofs.Machine.Discipline
import Naskah.Session.Status

/-!
# How deep scopes lie

The scopes around a scope are those of the text around it. So however deep
calls go, no scope lies deeper than the text of the programs is nested: a
function takes its scope and the nesting of its body along wherever it is
stored, handed on or called.
-/

namespace Naskah

/-! ## Nesting of programs -/

mutual
def Stmt.nesting : Stmt → Nat
  | .block body => Stmt.nestings body + 1
  | .branch _ body otherwise => max (Stmt.nestings body) (Stmt.nestings otherwise) + 1
  | .loop _ body => Stmt.nestings body + 1
  | .function _ _ body => Stmt.nestings body + 1
  | _ => 0
def Stmt.nestings : List Stmt → Nat
  | [] => 0
  | s :: ss => max s.nesting (Stmt.nestings ss)
end

/-- The statements that a run of a source carries out: none, if it has syntax errors. -/
def programOf (source : String) : List Stmt :=
  let scan := tokenize source
  let program := parse scan.tokens
  if scan.errors.isEmpty && program.errors.isEmpty then program.statements else []

def deepest (sources : List String) : Nat :=
  sources.foldr (fun source d => max (Stmt.nestings (programOf source)) d) 0

theorem nestings_singleton (st : Stmt) : Stmt.nestings [st] = st.nesting := by
  simp [Stmt.nestings]

theorem nestings_inner {st : Stmt} {b : List Stmt} (hb : b ∈ st.inner) :
    Stmt.nestings b + 1 ≤ Stmt.nestings [st] := by
  rw [nestings_singleton]
  cases st <;> simp [Stmt.inner] at hb
  case block => simp [Stmt.nesting, hb]
  case loop => simp [Stmt.nesting, hb]
  case branch e b o =>
    rcases hb with rfl | rfl <;> simp [Stmt.nesting]

/-! ## Depth of scopes -/

inductive Store.Lies (s : Store) : ScopeId → Nat → Prop
  | outer {i} : i < s.frames.size → s.parent? i = none → s.Lies i 0
  | inner {i j d} : i < s.frames.size → s.parent? i = some j → s.Lies j d → s.Lies i (d + 1)

def Store.Fits (D : Nat) (s : Store) (i : ScopeId) (k : Nat) : Prop := ∃ d, s.Lies i d ∧ d + k ≤ D

/-- No scope lies deeper than `D`, and none will that a call of a bound function makes. -/
structure Store.Nested (D : Nat) (s : Store) : Prop where
  globe : s.Lies Store.globalScope 0
  scopes : ∀ i < s.frames.size, s.Fits D i 0
  functions : ∀ i n f, s.here? i n = some (.function f) →
    s.Fits D f.scope (Stmt.nestings f.body + 1)

variable {D : Nat} {s t : Store} {i : ScopeId} {d k : Nat} {v : Value}

theorem Store.Lies.mono (hg : s.Grows t) (h : s.Lies i d) : t.Lies i d := by
  induction h with
  | outer hi hp => exact .outer (Nat.lt_of_lt_of_le hi hg.size) (by rw [hg.parent _ hi, hp])
  | inner hi hp _ ih => exact .inner (Nat.lt_of_lt_of_le hi hg.size) (by rw [hg.parent _ hi, hp]) ih

theorem Store.Lies.length_chainWithin (h : s.Lies i d) (length : Nat) :
    (s.chainWithin length i).length ≤ d + 1 := by
  induction h generalizing length with
  | outer hi hp =>
    cases length with
    | zero => simp [Store.chainWithin]
    | succ length => simp [Store.chainWithin_succ, hi, hp]
  | inner hi hp _ ih =>
    cases length with
    | zero => simp [Store.chainWithin]
    | succ length => simpa [Store.chainWithin_succ, hi, hp] using ih length

theorem Store.Lies.depth_le (h : s.Lies i d) : s.depth i ≤ d := by
  have hlength := h.length_chainWithin (i + 1)
  -- the first scope of the chain is the scope itself
  rw [Store.depth, Store.chain, List.length_tail]
  omega

theorem Store.Fits.mono (hg : s.Grows t) (h : s.Fits D i k) : t.Fits D i k := by
  obtain ⟨d, hd, hk⟩ := h
  exact ⟨d, hd.mono hg, hk⟩

theorem Store.Fits.le (h : s.Fits D i k) {k' : Nat} (hk : k' ≤ k) : s.Fits D i k' := by
  obtain ⟨d, hd, hle⟩ := h
  exact ⟨d, hd, by omega⟩

theorem Store.Fits.child (h : s.Fits D i (k + 1)) : (s.child i).2.Fits D s.frames.size k := by
  obtain ⟨d, hd, hk⟩ := h
  exact ⟨d + 1, .inner (by simp) Store.parent?_new (hd.mono (.child s i)), by omega⟩

theorem Store.Nested.child (h : s.Nested D) (hi : s.Fits D i (k + 1)) : (s.child i).2.Nested D where
  globe := h.globe.mono (.child s i)
  scopes j hj := by
    by_cases hold : j < s.frames.size
    · exact (h.scopes j hold).mono (.child s i)
    · rw [Store.size_child] at hj
      obtain rfl : j = s.frames.size :=
        Nat.le_antisymm (Nat.le_of_lt_succ hj) (Nat.le_of_not_lt hold)
      exact hi.child.le (Nat.zero_le k)
  functions j n f hf := by
    rw [Store.here?_child] at hf
    exact (h.functions j n f hf).mono (.child s i)

theorem Store.Nested.define (h : s.Nested D)
    (hv : ∀ f, v = .function f → s.Fits D f.scope (Stmt.nestings f.body + 1)) (i : ScopeId)
    (name : String) : (s.define i name v).Nested D where
  globe := h.globe.mono (.define s i name v)
  scopes j hj := by
    rw [Store.size_define] at hj
    exact (h.scopes j hj).mono (.define s i name v)
  functions j n f hf := by
    apply Store.Fits.mono (.define s i name v)
    rw [Store.here?_define] at hf
    by_cases hw : j = i ∧ n = name ∧ i < s.frames.size
    · rw [if_pos hw] at hf
      exact hv f (Option.some.inj hf)
    · rw [if_neg hw] at hf
      exact h.functions j n f hf

theorem Store.Nested.get? (h : s.Nested D) {name : String} {f : Closure}
    (hf : s.get? i name = some (.function f)) : s.Fits D f.scope (Stmt.nestings f.body + 1) := by
  obtain ⟨j, -, hj⟩ := Option.bind_eq_some_iff.mp hf
  exact h.functions j name f hj

def nestingWithin (D : Nat) : Discipline where
  Good s s' := s = s' ∧ s.Nested D
  Holds s v := ∀ f, v = .function f → s.Fits D f.scope (Stmt.nestings f.body + 1)
  Free _ _ := True
  Allows s i ss := s.Fits D i (Stmt.nestings ss)
  size h := by rw [h.1]
  holds_mono hg h f hf := (h f hf).mono hg
  free_mono _ _ := trivial
  allows_mono hg h := h.mono hg
  plain hv f hf := absurd (by rw [hf, Value.kind]) hv
  found h _ n := ⟨by rw [h.1], fun v hv f hf => h.2.get? (hf ▸ hv)⟩
  first h := h.le (by simp [Stmt.nestings])
  rest h := h.le (by simp [Stmt.nestings])
  free _ _ := trivial
  inner := by
    intro s s' i st b ⟨heq, hs⟩ hi hb
    subst heq
    have hfits := hi.le (nestings_inner hb)
    exact ⟨⟨rfl, hs.child hfits⟩, hfits.child⟩
  closure _ h f hf := by
    cases hf
    rwa [nestings_singleton] at h
  call := by
    intro s s' f ⟨heq, hs⟩ hf
    subst heq
    exact ⟨⟨rfl, hs.child (hf f rfl)⟩, trivial, (hf f rfl).child⟩
  define := by
    intro s s' i v n ⟨heq, hs⟩ _ hv
    subst heq
    exact ⟨rfl, hs.define hv i n⟩
  assign := by
    intro s s' i v n ⟨heq, hs⟩ _ hv
    subst heq
    exact ⟨rfl, hs.define hv _ n⟩

/-! ## Runs -/

/-- A machine that sources, run one after another, make of a fresh one. -/
inductive Reached : List String → Machine → Prop
  | fresh (outLimit diagnosticsLimit) : Reached [] (.fresh outLimit diagnosticsLimit)
  | run {sources m fuel source status m'} : Reached sources m →
      m.run fuel source = some (status, m') → Reached (sources ++ [source]) m'

/-- The machine in the midst of a run of a source, where the fuel ends, or at the end of it. -/
def Machine.during (fuel : Nat) (source : String) (m : Machine) : Machine :=
  (Stmt.execsWithin fuel (programOf source) Store.globalScope m).machine

theorem Store.Nested.during {m : Machine} (h : m.store.Nested D) {source : String}
    (hsource : Stmt.nestings (programOf source) ≤ D) (fuel : Nat) :
    (m.during fuel source).store.Nested D := by
  have hallows : (nestingWithin D).Allows m.store Store.globalScope (programOf source) :=
    ⟨0, h.globe, by omega⟩
  have hm : (nestingWithin D).Beside m m := ⟨⟨rfl, h⟩, rfl, rfl, rfl, rfl⟩
  obtain ⟨-, k, hk⟩ := (execsWithin_keeps hallows).machine hm fuel
  exact hk.store.2

theorem Machine.run_store {m m' : Machine} {fuel : Nat} {source : String} {status : Status}
    (h : m.run fuel source = some (status, m')) : m'.store = (m.during fuel source).store := by
  simp only [Machine.run] at h
  simp only [Machine.during, programOf]
  split at h
  · rename_i hclean
    rw [if_pos hclean]
    simp only [Machine.interpret] at h
    generalize Stmt.execsWithin _ _ _ _ = o at h ⊢
    cases o <;> cases h <;> rfl
  · rename_i hclean
    rw [if_neg hclean]
    cases h
    rfl

theorem Store.initial_nested (D : Nat) : Store.initial.Nested D where
  globe := .outer (by simp [Store.initial, Store.globalScope]) rfl
  scopes i hi := by
    obtain rfl : i = 0 := Nat.lt_one_iff.mp hi
    exact ⟨0, .outer hi rfl, Nat.zero_le D⟩
  functions i n f hf := by
    obtain rfl : i = 0 := Nat.lt_one_iff.mp (Store.here?_lt hf)
    cases hf

theorem deepest_append {sources : List String} {source : String}
    (h : deepest (sources ++ [source]) ≤ D) :
    deepest sources ≤ D ∧ Stmt.nestings (programOf source) ≤ D := by
  induction sources with
  | nil => simpa [deepest] using h
  | cons s sources ih =>
    simp only [deepest, List.cons_append, List.foldr_cons, max_le_iff] at h ih ⊢
    exact ⟨⟨h.1, (ih h.2).1⟩, (ih h.2).2⟩

theorem Reached.nested {sources : List String} {m : Machine} (h : Reached sources m)
    (hD : deepest sources ≤ D) : m.store.Nested D := by
  induction h with
  | fresh => exact Store.initial_nested D
  | run _ hrun ih =>
    obtain ⟨hsources, hsource⟩ := deepest_append hD
    rw [Machine.run_store hrun]
    exact (ih hsources).during hsource _

theorem Store.Nested.depth_le (h : s.Nested D) (hi : i < s.frames.size) : s.depth i ≤ D := by
  obtain ⟨d, hd, hle⟩ := h.scopes i hi
  exact Nat.le_trans hd.depth_le (by omega)

/-- **Scopes are nested as the text is.** After any sources, and in the midst
of one more that may never end, no scope lies deeper than the deepest list of
statements in the programs. -/
theorem scope_depth_le_deepest {sources : List String} {m : Machine} (h : Reached sources m) :
    (∀ i < m.store.frames.size, m.store.depth i ≤ deepest sources) ∧
      ∀ source fuel, ∀ i < (m.during fuel source).store.frames.size,
        (m.during fuel source).store.depth i ≤ deepest (sources ++ [source]) := by
  refine ⟨fun i hi => (h.nested (Nat.le_refl _)).depth_le hi, fun source fuel i hi => ?_⟩
  obtain ⟨hsources, hsource⟩ := deepest_append (Nat.le_refl (deepest (sources ++ [source])))
  exact ((h.nested hsources).during hsource fuel).depth_le hi

/-- A call inside a call: the two branches lie two deep, and the inner call no
deeper than the outer. -/
theorem scope_depth_le_deepest_recursion :
    let source := "fungsi f(n)\x7bjika(n)\x7bf(salah);\x7d\x7d f(benar);"
    deepest [source] = 2 ∧ ∃ m, Reached [source] m ∧ m.store.frames.size = 5 ∧
      ∀ i < 5, m.store.depth i ≤ 2 := by
  intro source
  have hdeepest : deepest [source] = 2 := by decide +kernel
  have hsize : ((Machine.fresh none none).run 3 source).map (·.2.store.frames.size) = some 5 := by
    decide +kernel
  obtain ⟨⟨status, m⟩, hrun, hm⟩ := Option.map_eq_some_iff.mp hsize
  have h : Reached ([] ++ [source]) m := .run (.fresh none none) hrun
  refine ⟨hdeepest, m, h, hm, fun i hi => ?_⟩
  have hdepth := (scope_depth_le_deepest h).1 i (lt_of_lt_of_eq hi hm.symm)
  rwa [List.nil_append, hdeepest] at hdepth

end Naskah
