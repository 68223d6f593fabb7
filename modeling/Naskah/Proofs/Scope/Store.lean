import Naskah.Scope.Store

/-!
# How stores change

A store changes in two ways: a scope is made, or a name is bound in a scope.
Neither takes a scope away or moves one, so the chain of a scope stays the
chain it was made with.
-/

namespace Naskah

theorem Bindings.get?_insert (bs : Bindings) (name n : String) (v : Value) :
    (bs.insert name v).get? n = if n = name then some v else bs.get? n := by
  have hcons : ∀ k w (cs : Bindings), Bindings.get? ((k, w) :: cs) n = if n = k then some w
      else cs.get? n := by
    intro k w cs
    by_cases h : n = k
    · simp [Bindings.get?, h]
    · rw [if_neg h, Bindings.get?, List.lookup_cons, beq_false_of_ne h]
      rfl
  induction bs with
  | nil => exact hcons name v []
  | cons b bs ih =>
    obtain ⟨k, w⟩ := b
    rw [Bindings.insert]
    by_cases hk : k = name
    · rw [if_pos hk, hcons, hcons, hk]
      by_cases hn : n = name <;> simp [hn]
    · rw [if_neg hk, hcons, hcons, ih]
      by_cases hn : n = k
      · simp [hn, hk]
      · simp [hn]

namespace Store

variable {s s' : Store} {i j parent : ScopeId} {name n : String} {v w : Value}

/-! ## Making a scope -/

@[simp] theorem size_child : (s.child parent).2.frames.size = s.frames.size + 1 := by
  simp [Store.child]

theorem frames_child (h : j < s.frames.size) : (s.child parent).2.frames[j]? = s.frames[j]? := by
  simp only [Store.child, Array.getElem?_push]
  rw [if_neg (Nat.ne_of_lt h)]

theorem parent?_child (h : j < s.frames.size) : (s.child parent).2.parent? j = s.parent? j := by
  rw [Store.parent?, Store.parent?, frames_child h]

theorem parent?_new : (s.child parent).2.parent? s.frames.size = some parent := by
  simp [Store.parent?, Store.child]

@[simp] theorem here?_child : (s.child parent).2.here? j n = s.here? j n := by
  simp only [Store.here?, Store.child, Array.getElem?_push]
  by_cases h : j = s.frames.size
  · rw [if_pos h, h, Array.getElem?_eq_none (Nat.le_refl _)]
    rfl
  · rw [if_neg h]

/-! ## Binding a name -/

@[simp] theorem size_define : (s.define i name v).frames.size = s.frames.size := by
  simp [Store.define]

theorem frames_define (h : j ≠ i) : (s.define i name v).frames[j]? = s.frames[j]? := by
  simp only [Store.define, Array.getElem?_modify]
  rw [if_neg (Ne.symm h)]

@[simp] theorem parent?_define : (s.define i name v).parent? j = s.parent? j := by
  simp only [Store.parent?, Store.define, Array.getElem?_modify]
  by_cases h : i = j
  · rw [if_pos h]
    cases s.frames[j]? <;> rfl
  · rw [if_neg h]

theorem here?_define : (s.define i name v).here? j n =
    if j = i ∧ n = name ∧ i < s.frames.size then some v else s.here? j n := by
  simp only [Store.here?, Store.define, Array.getElem?_modify]
  by_cases h : j = i
  · subst h
    by_cases hj : j < s.frames.size
    · simp [Bindings.get?_insert, hj]
    · simp [hj]
  · simp [h, Ne.symm h]

theorem here?_lt (h : s.here? i n = some v) : i < s.frames.size := by
  by_cases hi : i < s.frames.size
  · exact hi
  · simp [Store.here?, hi] at h

/-! ## Growth -/

structure Grows (s s' : Store) : Prop where
  size : s.frames.size ≤ s'.frames.size
  parent : ∀ i < s.frames.size, s'.parent? i = s.parent? i

namespace Grows

theorem refl (s : Store) : s.Grows s := ⟨Nat.le_refl _, fun _ _ => rfl⟩

theorem trans {s₁ s₂ s₃ : Store} (h : s₁.Grows s₂) (h' : s₂.Grows s₃) : s₁.Grows s₃ :=
  ⟨Nat.le_trans h.size h'.size, fun i hi =>
    (h'.parent i (Nat.lt_of_lt_of_le hi h.size)).trans (h.parent i hi)⟩

theorem child (s : Store) (parent : ScopeId) : s.Grows (s.child parent).2 :=
  ⟨by simp, fun _ hi => parent?_child hi⟩

theorem define (s : Store) (i : ScopeId) (name : String) (v : Value) :
    s.Grows (s.define i name v) :=
  ⟨by simp, fun _ _ => parent?_define⟩

end Grows

/-! ## Chains -/

/-- Every scope lies inside an older one, if inside any. -/
def Ordered (s : Store) : Prop := ∀ i j, s.parent? i = some j → j < i

theorem chainWithin_succ (s : Store) (length : Nat) (i : ScopeId) : s.chainWithin (length + 1) i =
    if i < s.frames.size then i :: (s.parent? i).elim [] (s.chainWithin length) else [] := by
  rw [Store.chainWithin]
  by_cases hi : i < s.frames.size
  · rw [if_pos hi, Store.parent?, Array.getElem?_eq_getElem hi]
    cases h : s.frames[i].parent <;> simp [h]
  · rw [if_neg hi, Array.getElem?_eq_none (Nat.le_of_not_lt hi)]

theorem Grows.chainWithin (hs : s.Ordered) (h : s.Grows s') (length : Nat)
    (hi : i < s.frames.size) : s'.chainWithin length i = s.chainWithin length i := by
  induction length generalizing i with
  | zero => rfl
  | succ length ih =>
    rw [chainWithin_succ, chainWithin_succ, h.parent i hi, if_pos hi,
      if_pos (Nat.lt_of_lt_of_le hi h.size)]
    cases hp : s.parent? i with
    | none => rfl
    | some j =>
      have hj := hs i j hp
      simp only [Option.elim_some]
      rw [ih (Nat.lt_trans hj hi)]

theorem Grows.chain (hs : s.Ordered) (h : s.Grows s') (hi : i < s.frames.size) :
    s'.chain i = s.chain i :=
  h.chainWithin hs _ hi

/-! ## What is bound -/

def All (P : Value → Prop) (s : Store) : Prop := ∀ i n v, s.here? i n = some v → P v

variable {P : Value → Prop}

theorem all_initial : Store.initial.All P := by
  intro i n v hv
  obtain rfl : i = 0 := Nat.lt_one_iff.mp (here?_lt hv)
  cases hv

theorem All.get? (h : s.All P) (hv : s.get? i n = some v) : P v := by
  obtain ⟨j, -, hj⟩ := Option.bind_eq_some_iff.mp hv
  exact h j n v hj

theorem All.child (h : s.All P) (parent : ScopeId) : (s.child parent).2.All P := by
  intro i n v hv
  rw [here?_child] at hv
  exact h i n v hv

theorem All.define (h : s.All P) (hv : P v) (i : ScopeId) (name : String) :
    (s.define i name v).All P := by
  intro j n w hw
  rw [here?_define] at hw
  split at hw
  · cases hw
    exact hv
  · exact h j n w hw

end Store

end Naskah
