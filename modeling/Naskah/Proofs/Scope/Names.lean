import Mathlib.Data.Set.Insert
import Naskah.Proofs.Machine.Discipline

/-!
# Which names a scope binds

Scopes bind more names only where a statement that declares, assigns or names a
function is carried out in the scope itself. Whatever else a run does, in calls
or inside blocks and loops, a scope that was there before it binds the names it
bound, to the old values or to new ones.
-/

namespace Naskah

namespace Store

def names (s : Store) (i : ScopeId) : Set String := {n | (s.here? i n).isSome}

def SameNames (s t : Store) : Prop := ∀ i < s.frames.size, t.names i = s.names i

variable {s t : Store} {i j parent scope : ScopeId} {name : String} {v : Value}

theorem names_child : (s.child parent).2.names j = s.names j := by
  simp [names]

theorem names_define_ne (h : j ≠ i) : (s.define i name v).names j = s.names j := by
  simp [names, here?_define, h]

theorem names_define_self (h : i < s.frames.size) :
    (s.define i name v).names i = insert name (s.names i) := by
  ext n
  by_cases hn : n = name <;> simp [names, here?_define, h, hn]

theorem names_define_bound (h : name ∈ s.names i) : (s.define i name v).names j = s.names j := by
  by_cases hj : j = i
  · obtain ⟨w, hw⟩ := Option.isSome_iff_exists.mp h
    rw [hj, names_define_self (here?_lt hw), Set.insert_eq_of_mem h]
  · exact names_define_ne hj

theorem binder?_names (h : s.binder? scope name = some j) : name ∈ s.names j := by
  rw [binder?] at h
  exact List.find?_some (p := fun j => (s.here? j name).isSome) h

/-- An assignment binds a name where it is bound, or in the scope itself. -/
theorem assignOrDefine_eq (s : Store) (scope : ScopeId) (name : String) (v : Value) :
    ∃ j, s.assignOrDefine scope name v = s.define j name v ∧
      (s.binder? scope name = none ∧ j = scope ∨ s.binder? scope name = some j) := by
  rw [assignOrDefine]
  cases hb : s.binder? scope name with
  | none => exact ⟨scope, rfl, Or.inl ⟨rfl, rfl⟩⟩
  | some j => exact ⟨j, rfl, Or.inr rfl⟩

/-- Where a name comes to be bound, it is the only one. -/
theorem names_define (h : j = scope ∨ name ∈ s.names j) (hi : i < s.frames.size) :
    (s.define j name v).names i = s.names i ∨ i = scope ∧
    (s.define j name v).names i = insert name (s.names i) := by
  rcases h with rfl | h
  · by_cases hij : i = j
    · subst hij
      exact Or.inr ⟨rfl, names_define_self hi⟩
    · exact Or.inl (names_define_ne hij)
  · exact Or.inl (names_define_bound h)

theorem binder?_eq_none_iff :
    s.binder? scope name = none ↔ ∀ j ∈ s.chain scope, name ∉ s.names j := by
  simp [binder?, names]

theorem mem_chain (h : i < s.frames.size) : i ∈ s.chain i := by
  rw [chain, chainWithin_succ, if_pos h]
  exact List.mem_cons_self

theorem lt_of_mem_chainWithin {length : Nat} (h : j ∈ s.chainWithin length i) :
    j < s.frames.size := by
  induction length generalizing i with
  | zero => simp [chainWithin] at h
  | succ length ih =>
    rw [chainWithin_succ] at h
    by_cases hi : i < s.frames.size
    · rw [if_pos hi, List.mem_cons] at h
      rcases h with rfl | h
      · exact hi
      · cases hp : s.parent? i with
        | none => simp [hp] at h
        | some k =>
          rw [hp] at h
          exact ih h
    · simp [hi] at h

/-- A name that is seen nowhere from a scope is not seen there later, unless a scope comes to bind it. -/
theorem binder?_eq_none_of_grows (hs : s.Ordered) (hscope : scope < s.frames.size) (hg : s.Grows t)
    (hn : s.SameNames t) (name : String) :
    t.binder? scope name = none ↔ ∀ j ∈ s.chain scope, name ∉ s.names j := by
  rw [binder?_eq_none_iff, hg.chain hs hscope]
  refine forall₂_congr fun j hj => ?_
  rw [hn j (lt_of_mem_chainWithin hj)]

theorem SameNames.child (h : s.SameNames t) (parent : ScopeId) :
    s.SameNames (t.child parent).2 := by
  intro j hj
  rw [names_child, h j hj]

theorem SameNames.define (h : s.SameNames t) (hi : s.frames.size ≤ i) (name : String) (v : Value) :
    s.SameNames (t.define i name v) := by
  intro j hj
  rw [names_define_ne (Nat.ne_of_lt (Nat.lt_of_lt_of_le hj hi)), h j hj]

theorem SameNames.assignOrDefine (h : s.SameNames t) (hi : s.frames.size ≤ i)
    (name : String) (v : Value) : s.SameNames (t.assignOrDefine i name v) := by
  obtain ⟨k, heq, hk⟩ := t.assignOrDefine_eq i name v
  rw [heq]
  rcases hk with ⟨-, rfl⟩ | hk
  · exact h.define hi name v
  · intro j hj
    rw [names_define_bound (binder?_names hk), h j hj]

end Store

/-- Names are bound in scopes younger than a store, and in no other. -/
def bindingIn (s₀ : Store) : Discipline where
  Good s s' := s = s' ∧ s₀.frames.size ≤ s.frames.size ∧ s₀.SameNames s
  Holds _ _ := True
  Free _ i := s₀.frames.size ≤ i
  Allows _ i ss := s₀.frames.size ≤ i ∨ ∀ st ∈ ss, st.declared? = none
  size h := by rw [h.1]
  holds_mono _ h := h
  free_mono _ h := h
  allows_mono _ h := h
  plain _ := trivial
  found h _ n := ⟨by rw [h.1], fun _ _ => trivial⟩
  first h := h.imp_right fun h => by simpa using h _ List.mem_cons_self
  rest h := h.imp_right fun h st hst => h st (List.mem_cons_of_mem _ hst)
  free h hst := by
    rcases h with h | h
    · exact h
    · simp [h] at hst
  inner := by
    intro s s' i st b ⟨heq, hsize, hn⟩ _ _
    subst heq
    exact ⟨⟨rfl, by simpa using Nat.le_succ_of_le hsize, hn.child i⟩, Or.inl hsize⟩
  closure _ _ := trivial
  call := by
    intro s s' f ⟨heq, hsize, hn⟩ _
    subst heq
    exact ⟨⟨rfl, by simpa using Nat.le_succ_of_le hsize, hn.child f.scope⟩, hsize, Or.inl hsize⟩
  define := by
    intro s s' i v n ⟨heq, hsize, hn⟩ hi _
    subst heq
    exact ⟨rfl, by simpa using hsize, hn.define hi n v⟩
  assign := by
    intro s s' i v n ⟨heq, hsize, hn⟩ hi _
    subst heq
    exact ⟨rfl, by simpa [Store.assignOrDefine] using hsize, hn.assignOrDefine hi n v⟩

variable {α : Type} {m : Machine} {scope : ScopeId}

theorem bindingIn_beside (m : Machine) : (bindingIn m.store).Beside m m :=
  ⟨⟨rfl, Nat.le_refl _, fun _ _ => rfl⟩, rfl, rfl, rfl, rfl⟩

theorem sameNames_of_keeps {run : Nat → Eval α} (h : (bindingIn m.store).Keeps m.store run)
    {r : Except Fault α × Machine} (hr : EndsIn run m r) :
    m.store.Grows r.2.store ∧ m.store.SameNames r.2.store := by
  obtain ⟨n, hr⟩ := hr
  obtain ⟨hg, k, -, hk⟩ := h.ends (bindingIn_beside m) (Nat.le_refl n) hr
  exact ⟨hg, hk.store.2.2⟩

theorem eval_keeps_bindingIn (m : Machine) (e : Expr) :
    (bindingIn m.store).Keeps m.store fun n => e.evalWithin n scope :=
  evalWithin_keeps (Or.inr (by simp)) e

theorem eval_ends_unique {e : Expr} {r r' : Except Fault Value × Machine}
    (hr : EndsIn (fun n => e.evalWithin n scope) m r)
    (hr' : EndsIn (fun n => e.evalWithin n scope) m r') :
    r.1 = r'.1 := by
  have hends : ∀ {n n' : Nat} {r}, n ≤ n' → (e.evalWithin n scope m).end? = some r →
      ∃ r', (e.evalWithin n' scope m).end? = some r' ∧ r.1 = r'.1 := by
    intro n n' r hn hr
    obtain ⟨-, k, hk, -⟩ := (eval_keeps_bindingIn m e).ends (bindingIn_beside m) hn hr
    exact ⟨_, hk, rfl⟩
  refine (ends_alike hends fun hn hr => ?_).2 r r' hr hr'
  obtain ⟨r', hr', heq⟩ := hends hn hr
  exact ⟨r', hr', heq.symm⟩

/-! ## Statements that bind a name -/

theorem thenBind_ends {e : Nat → Eval Value} {g : Value → Eval Unit} {f : Value → Machine → Machine}
    (hg : ∀ v k, g v k = .done () (f v k)) {r : Except Fault Flow × Machine}
    (h : EndsIn (fun n => do let v ← e n; g v; pure Flow.normal) m r) :
    (∃ fault, EndsIn e m (.error fault, r.2)) ∨ ∃ v k, EndsIn e m (.ok v, k) ∧ r.2 = f v k := by
  obtain ⟨n, h⟩ := h
  simp only [Bind.bind, Eval.bind] at h
  cases hm : e n m with
  | done v k =>
    simp only [hm, hg] at h
    cases h
    exact Or.inr ⟨v, k, ⟨n, by rw [hm]; rfl⟩, rfl⟩
  | failed fault k =>
    rw [hm] at h
    cases h
    exact Or.inl ⟨fault, n, by rw [hm]; rfl⟩
  | unfinished =>
    rw [hm] at h
    cases h

variable {e : Expr} {r : Except Fault Flow × Machine}

theorem declare_ends {name : Token}
    (h : EndsIn (fun n => (Stmt.declare name e).execWithin n scope) m r) :
    (∃ fault, EndsIn (fun n => e.evalWithin n scope) m (.error fault, r.2)) ∨
      ∃ v k, EndsIn (fun n => e.evalWithin n scope) m (.ok v, k) ∧
        r.2 = { k with store := k.store.define scope name.lexeme v } :=
  thenBind_ends (fun _ _ => rfl) h

theorem assign_ends {name : Token}
    (h : EndsIn (fun n => (Stmt.assign name e).execWithin n scope) m r) :
    (∃ fault, EndsIn (fun n => e.evalWithin n scope) m (.error fault, r.2)) ∨
      ∃ v k, EndsIn (fun n => e.evalWithin n scope) m (.ok v, k) ∧
        r.2 = { k with store := k.store.assignOrDefine scope name.lexeme v } :=
  thenBind_ends (fun _ _ => rfl) h

theorem eval_sameNames {r : Except Fault Value × Machine}
    (h : EndsIn (fun n => e.evalWithin n scope) m r) :
    m.store.Grows r.2.store ∧ m.store.SameNames r.2.store :=
  sameNames_of_keeps (eval_keeps_bindingIn m e) h

/-- A statement that binds a name binds it once, after all else it does. -/
theorem declared_ends {st : Stmt} {name : String} (hst : st.declared? = some name)
    (h : EndsIn (fun n => st.execWithin n scope) m r) : m.store.SameNames r.2.store ∨
      ∃ k : Store, m.store.Grows k ∧ m.store.SameNames k ∧
        ∃ j v, (j = scope ∨ name ∈ k.names j) ∧ r.2.store = k.define j name v := by
  cases st with
  | declare t e =>
    cases hst
    rcases declare_ends h with ⟨fault, he⟩ | ⟨v, k, he, hk⟩
    · exact Or.inl (eval_sameNames he).2
    · obtain ⟨hg, hn⟩ := eval_sameNames he
      exact Or.inr ⟨k.store, hg, hn, scope, v, Or.inl rfl, by rw [hk]⟩
  | assign t e =>
    cases hst
    rcases assign_ends h with ⟨fault, he⟩ | ⟨v, k, he, hk⟩
    · exact Or.inl (eval_sameNames he).2
    · obtain ⟨hg, hn⟩ := eval_sameNames he
      obtain ⟨j, heq, hj⟩ := k.store.assignOrDefine_eq scope t.lexeme v
      exact Or.inr ⟨k.store, hg, hn, j, v, hj.imp And.right Store.binder?_names, by rw [hk, heq]⟩
  | function t ps b =>
    cases hst
    obtain ⟨n, h⟩ := h
    cases h
    exact Or.inr ⟨m.store, .refl _, fun _ _ => rfl, scope, _, Or.inl rfl, rfl⟩
  | _ => cases hst

theorem declared_names {st : Stmt} {name : String} (hst : st.declared? = some name)
    (h : EndsIn (fun n => st.execWithin n scope) m r) {i : ScopeId} (hi : i < m.store.frames.size) :
    r.2.store.names i = m.store.names i ∨ i = scope ∧
    r.2.store.names i = insert name (m.store.names i) := by
  rcases declared_ends hst h with hsame | ⟨k, hg, hn, j, v, hj, hk⟩
  · exact Or.inl (hsame i hi)
  · rw [hk, ← hn i hi]
    exact Store.names_define hj (Nat.lt_of_lt_of_le hi hg.size)

theorem assign_gains_iff (hs : m.store.Ordered) (hscope : scope < m.store.frames.size)
    {name : Token} (h : EndsIn (fun n => (Stmt.assign name e).execWithin n scope) m r) :
    (name.lexeme ∈ r.2.store.names scope ∧ name.lexeme ∉ m.store.names scope) ↔
      (∃ v k, EndsIn (fun n => e.evalWithin n scope) m (.ok v, k)) ∧
        ∀ j ∈ m.store.chain scope, name.lexeme ∉ m.store.names j := by
  rcases assign_ends h with ⟨fault, he⟩ | ⟨v, k, he, hk⟩
  · -- the value failed, and with other fuel it ends no differently
    have hsame := (eval_sameNames he).2 scope hscope
    constructor
    · intro hgain
      exact absurd (hsame ▸ hgain.1) hgain.2
    · rintro ⟨⟨v, k, hv⟩, -⟩
      cases eval_ends_unique he hv
  · obtain ⟨hg, hn⟩ := eval_sameNames he
    have hunbound := Store.binder?_eq_none_of_grows hs hscope hg hn name.lexeme
    obtain ⟨j, heq, hj⟩ := k.store.assignOrDefine_eq scope name.lexeme v
    rw [hk, heq, ← hunbound]
    rcases hj with ⟨hnone, rfl⟩ | hj
    · have hnot : name.lexeme ∉ m.store.names j := hunbound.mp hnone j (Store.mem_chain hscope)
      rw [Store.names_define_self (Nat.lt_of_lt_of_le hscope hg.size)]
      exact ⟨fun _ => ⟨⟨v, k, he⟩, hnone⟩, fun _ => ⟨Set.mem_insert _ _, hnot⟩⟩
    · rw [Store.names_define_bound (Store.binder?_names hj), hn scope hscope, hj]
      simp

/-- **Names do not leak.** Expressions, calls and statements that declare
nothing leave the names of every scope there was. A statement that declares a
name binds it in its own scope or not at all; an assignment does so exactly if
its value ends without a fault and no scope around bound the name. -/
theorem names_do_not_leak (m : Machine) (scope : ScopeId) :
    (∀ e r, EndsIn (fun n => Expr.evalWithin n e scope) m r → m.store.SameNames r.2.store) ∧
      (∀ f args paren r, EndsIn (fun n => callFunction n (callWithin n) f args paren) m r →
        m.store.SameNames r.2.store) ∧
      (∀ st r, EndsIn (fun n => Stmt.execWithin n st scope) m r → st.declared? = none →
        m.store.SameNames r.2.store) ∧
      (∀ st name r, EndsIn (fun n => Stmt.execWithin n st scope) m r → st.declared? = some name →
        ∀ i < m.store.frames.size, r.2.store.names i = m.store.names i ∨
          i = scope ∧ r.2.store.names i = insert name (m.store.names i)) ∧
      (m.store.Ordered → scope < m.store.frames.size →
        ∀ name e r, EndsIn (fun n => (Stmt.assign name e).execWithin n scope) m r →
          ((name.lexeme ∈ r.2.store.names scope ∧ name.lexeme ∉ m.store.names scope) ↔
            (∃ v k, EndsIn (fun n => e.evalWithin n scope) m (.ok v, k)) ∧
              ∀ j ∈ m.store.chain scope, name.lexeme ∉ m.store.names j)) := by
  refine ⟨?_, ?_, ?_, ?_, ?_⟩
  · intro e r hr
    exact (eval_sameNames hr).2
  · intro f args paren r hr
    exact (sameNames_of_keeps (callFunction_keeps trivial (fun _ _ => trivial) paren) hr).2
  · intro st r hr hst
    refine (sameNames_of_keeps (execWithin_keeps (Or.inr ?_)) hr).2
    simpa using hst
  · intro st name r hr hst i hi
    exact declared_names hst hr hi
  · intro hs hscope name e r hr
    exact assign_gains_iff hs hscope hr

/-- In a block within the global scope, which binds `x`: an assignment to `y`
binds it in the block, and one to `x` does not. -/
theorem names_do_not_leak_block :
    let m : Machine :=
      { Machine.fresh none none with store := ⟨#[⟨none, [("x", .nil)]⟩, ⟨some 0, []⟩]⟩ }
    let assign (name : String) : Stmt := .assign ⟨.name, name, 1⟩ (.name ⟨.name, "x", 1⟩)
    m.store.Ordered ∧ ∃ r r',
      EndsIn (fun n => (assign "y").execWithin n 1) m r ∧ "y" ∈ r.2.store.names 1 ∧
      EndsIn (fun n => (assign "x").execWithin n 1) m r' ∧ "x" ∉ r'.2.store.names 1 := by
  intro m assign
  have hs : m.store.Ordered := by
    intro i j hj
    rcases i with _ | _ | i <;> cases hj
    decide
  have hgain := (names_do_not_leak m 1).2.2.2.2 hs (by decide)
  have hvalue : EndsIn (fun n => (Expr.name ⟨.name, "x", 1⟩).evalWithin n 1) m (.ok .nil, m) :=
    ⟨0, rfl⟩
  have hy : EndsIn (fun n => (assign "y").execWithin n 1) m
      (.ok .normal, { m with store := m.store.define 1 "y" .nil }) := ⟨0, rfl⟩
  have hx : EndsIn (fun n => (assign "x").execWithin n 1) m
      (.ok .normal, { m with store := m.store.define 0 "x" .nil }) := ⟨0, rfl⟩
  have hchain : m.store.chain 1 = [1, 0] := rfl
  have hunbound : ∀ j ∈ m.store.chain 1, "y" ∉ m.store.names j := by
    rw [hchain]
    simp only [List.forall_mem_cons]
    exact ⟨Bool.false_ne_true, Bool.false_ne_true, by simp⟩
  refine ⟨hs, _, _, hy, ((hgain _ _ _ hy).mpr ⟨⟨_, _, hvalue⟩, hunbound⟩).1, hx, fun hmem => ?_⟩
  have hall := ((hgain _ _ _ hx).mp ⟨hmem, Bool.false_ne_true⟩).2
  exact hall 0 (by simp [hchain]) rfl

end Naskah
