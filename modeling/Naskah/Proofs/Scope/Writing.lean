import Naskah.Proofs.Scope.Names
import Naskah.Proofs.Scope.Tree

/-!
# Reading what was written

A name is looked for in a scope, then in the scope around it, and so on. Asking
whether it is bound, reading it and assigning to it are three such searches, and
all end at the same scope. A write is seen from the scopes whose search ends
where it was made, and from no other, whatever else binds the name on the way.
-/

namespace Naskah

namespace Store

variable {s t : Store} {i j k : ScopeId} {n : String} {v : Value}

/-! ## Searches, scope by scope -/

theorem Ordered.climbs (hs : s.Ordered) (i : ScopeId) (hi : i < s.frames.size) :
    ∃ js, s.Climbs i js := by
  induction i using Nat.strongRecOn with
  | ind i ih =>
    cases hp : s.parent? i with
    | none => exact ⟨[i], .last hi hp⟩
    | some j =>
      have hj := hs i j hp
      obtain ⟨js, hjs⟩ := ih j hj (Nat.lt_trans hj hi)
      exact ⟨i :: js, .up hp hjs⟩

section
variable (hs : s.Ordered) (hi : i < s.frames.size)
include hs hi

theorem chain_eq : s.chain i = i :: (s.parent? i).elim [] s.chain := by
  obtain ⟨js, hjs⟩ := hs.climbs i hi
  rw [hjs.chain hs]
  cases hjs with
  | last _ hp => simp [hp]
  | up hp hjs => simp [hp, hjs.chain hs]

theorem binder?_eq (n : String) :
    s.binder? i n = if (s.here? i n).isSome then some i
      else (s.parent? i).bind (s.binder? · n) := by
  unfold binder?
  rw [chain_eq hs hi, List.find?_cons]
  cases s.parent? i <;> cases s.here? i n <;> simp

theorem binds_eq (n : String) :
    s.binds i n = ((s.here? i n).isSome || (s.parent? i).any (s.binds · n)) := by
  unfold binds
  rw [binder?_eq hs hi]
  cases s.parent? i <;> cases s.here? i n <;> simp

theorem get?_eq (n : String) : s.get? i n = (s.here? i n).or ((s.parent? i).bind (s.get? · n)) := by
  unfold get?
  rw [binder?_eq hs hi]
  cases s.parent? i <;> cases hn : s.here? i n <;> simp [hn]

theorem assign?_eq (n : String) (v : Value) : s.assign? i n v =
    if (s.here? i n).isSome then some (s.define i n v)
      else (s.parent? i).bind (s.assign? · n v) := by
  unfold assign?
  rw [binder?_eq hs hi]
  cases s.parent? i <;> cases s.here? i n <;> simp

end

/-! ## Where a search ends -/

inductive Nearest (s : Store) (n : String) : ScopeId → ScopeId → Prop
  | here {i : ScopeId} : (s.here? i n).isSome → s.Nearest n i i
  | outer {i j k : ScopeId} : s.here? i n = none → s.parent? i = some j → s.Nearest n j k →
      s.Nearest n i k

theorem Nearest.isSome (h : s.Nearest n i k) : (s.here? k n).isSome := by
  induction h with
  | here h => exact h
  | outer _ _ _ ih => exact ih

theorem Nearest.lt (h : s.Nearest n i k) : k < s.frames.size := by
  obtain ⟨v, hv⟩ := Option.isSome_iff_exists.mp h.isSome
  exact here?_lt hv

theorem Nearest.binder? (hs : s.Ordered) (h : s.Nearest n i k) : s.binder? i n = some k := by
  induction h with
  | @here i h =>
    obtain ⟨v, hv⟩ := Option.isSome_iff_exists.mp h
    rw [binder?_eq hs (here?_lt hv), if_pos h]
  | @outer i j k hn hp _ ih => simp [binder?_eq hs (lt_of_parent? hp), hn, hp, ih]

theorem nearest_of_binder? (hs : s.Ordered) (hi : i < s.frames.size) (h : s.binder? i n = some k) :
    s.Nearest n i k := by
  induction i using Nat.strongRecOn with
  | ind i ih =>
    rw [binder?_eq hs hi] at h
    cases hn : s.here? i n with
    | some v =>
      obtain rfl : i = k := by simpa [hn] using h
      exact .here (by simp [hn])
    | none =>
      cases hp : s.parent? i with
      | none => simp [hn, hp] at h
      | some j =>
        have hj := hs i j hp
        exact .outer hn hp (ih j hj (Nat.lt_trans hj hi) (by simpa [hn, hp] using h))

theorem Nearest.unique (hs : s.Ordered) (h : s.Nearest n i j) (h' : s.Nearest n i k) : j = k :=
  Option.some.inj ((h.binder? hs).symm.trans (h'.binder? hs))

theorem Nearest.get? (hs : s.Ordered) (h : s.Nearest n i k) : s.get? i n = s.here? k n := by
  simp [Store.get?, h.binder? hs]

/-- A search goes by which scopes bind the name, not by what they bind it to. -/
theorem Nearest.congr (hhere : ∀ i, (t.here? i n).isSome = (s.here? i n).isSome)
    (hparent : ∀ i, t.parent? i = s.parent? i) (h : s.Nearest n i k) : t.Nearest n i k := by
  induction h with
  | here h => exact .here (by rwa [hhere])
  | @outer i j k hn hp _ ih =>
    refine .outer ?_ (by rwa [hparent]) ih
    rw [← Option.not_isSome_iff_eq_none, hhere, hn]
    exact Bool.false_ne_true

theorem binds_iff : s.binds i n = true ↔ ∃ k, s.binder? i n = some k := Option.isSome_iff_exists

theorem get?_isSome : (s.get? i n).isSome = s.binds i n := by
  unfold get? binds
  cases hb : s.binder? i n with
  | none => rfl
  | some k =>
    have hk : (s.here? k n).isSome := binder?_names hb
    simp [hk]

theorem assign?_isSome : (s.assign? i n v).isSome = s.binds i n := by
  simp [assign?, binds]

/-! ## Writes -/

theorem here?_define_self (hi : i < s.frames.size) : (s.define i n v).here? i n = some v := by
  simp [here?_define, hi]

theorem Ordered.define (hs : s.Ordered) : (s.define i n v).Ordered := by
  intro j k hk
  rw [parent?_define] at hk
  exact hs j k hk

theorem get?_define_ne {n' : String} (hs : s.Ordered) (hj : j < s.frames.size) (h : n' ≠ n) :
    (s.define i n v).get? j n' = s.get? j n' := by
  have hchain := (Grows.define s i n v).chain hs hj
  simp [get?, binder?, hchain, here?_define, h]

theorem get?_define_nearest (hs : s.Ordered) (hi : i < s.frames.size)
    (h : (s.define i n v).Nearest n j i) : (s.define i n v).get? j n = some v := by
  rw [h.get? hs.define, here?_define_self hi]

/-- A search that does not end at the scope written never came to it. -/
theorem get?_define_elsewhere (hs : s.Ordered) (hi : i < s.frames.size) (hj : j < s.frames.size)
    (h : ¬ (s.define i n v).Nearest n j i) : (s.define i n v).get? j n = s.get? j n := by
  induction j using Nat.strongRecOn with
  | ind j ih =>
    have hne : j ≠ i := by
      rintro rfl
      exact h (.here (by simp [here?_define_self hi]))
    have hhere : (s.define i n v).here? j n = s.here? j n := by simp [here?_define, hne]
    rw [get?_eq hs hj, get?_eq hs.define (by simpa using hj), parent?_define, hhere]
    cases hn : s.here? j n with
    | some w => simp
    | none =>
      cases hp : s.parent? j with
      | none => simp
      | some k =>
        have hk := hs j k hp
        have hfurther : ¬ (s.define i n v).Nearest n k i := by
          intro hnearest
          exact h (.outer (hhere.trans hn) (by rw [parent?_define, hp]) hnearest)
        simpa using ih k hk (Nat.lt_trans hk hj) hfurther

theorem get?_define_unseen {n' : String} (hs : s.Ordered) (hi : i < s.frames.size)
    (hj : j < s.frames.size) (h : ¬ (n' = n ∧ (s.define i n v).Nearest n j i)) :
    (s.define i n v).get? j n' = s.get? j n' := by
  by_cases hn : n' = n
  · subst hn
    exact get?_define_elsewhere hs hi hj fun hnearest => h ⟨rfl, hnearest⟩
  · exact get?_define_ne hs hj hn

/-- Where a name is bound already, a search ends where it did. -/
theorem nearest_define_bound (hk : (s.here? k n).isSome) :
    (s.define k n v).Nearest n j i ↔ s.Nearest n j i := by
  have hhere : ∀ i, ((s.define k n v).here? i n).isSome = (s.here? i n).isSome := by
    intro i
    rw [here?_define]
    split
    · rename_i h
      rw [h.1, hk]
      rfl
    · rfl
  exact ⟨.congr (fun i => (hhere i).symm) (fun _ => parent?_define.symm), .congr hhere fun _ =>
    parent?_define⟩

/-! ## What can be done with scopes -/

inductive Op where
  | child (parent : ScopeId)
  | define (scope : ScopeId) (name : String) (value : Value)
  | assign (scope : ScopeId) (name : String) (value : Value)
  | assignOrDefine (scope : ScopeId) (name : String) (value : Value)

def Op.scope : Op → ScopeId
  | .child i | .define i _ _ | .assign i _ _ | .assignOrDefine i _ _ => i

/-- The store after an operation. An assignment to a name that is not bound fails. -/
def after (s : Store) : Op → Store
  | .child i => (s.child i).2
  | .define i n v => s.define i n v
  | .assign i n v => (s.assign? i n v).getD s
  | .assignOrDefine i n v => s.assignOrDefine i n v

inductive Built : Store → Prop
  | initial : Built .initial
  | after {s : Store} {op : Op} : Built s → op.scope < s.frames.size → Built (s.after op)

theorem Grows.after (s : Store) (op : Op) : s.Grows (s.after op) := by
  cases op with
  | child i => exact .child s i
  | define i n v => exact .define s i n v
  | assignOrDefine i n v => exact .define s _ n v
  | assign i n v =>
    simp only [Store.after, assign?]
    cases s.binder? i n with
    | none => exact .refl s
    | some k => exact .define s k n v

theorem Ordered.after (hs : s.Ordered) {op : Op} (hop : op.scope < s.frames.size) :
    (s.after op).Ordered := by
  cases op with
  | define i n v => exact hs.define
  | assignOrDefine i n v => exact hs.define
  | assign i n v =>
    simp only [Store.after, assign?]
    cases s.binder? i n with
    | none => exact hs
    | some k => exact hs.define
  | child i =>
    intro j k hk
    have hj : j < s.frames.size + 1 := by simpa [Store.after] using lt_of_parent? hk
    by_cases hold : j < s.frames.size
    · rw [Store.after, parent?_child hold] at hk
      exact hs j k hk
    · obtain rfl : j = s.frames.size :=
        Nat.le_antisymm (Nat.le_of_lt_succ hj) (Nat.le_of_not_lt hold)
      rw [Store.after, parent?_new] at hk
      cases hk
      exact hop

theorem Built.ordered (h : s.Built) : s.Ordered := by
  induction h with
  | initial => exact isTree_initial.ordered
  | after _ hop ih => exact ih.after hop

end Store

open Store

/-- **A read finds the last write that it can see.** The three searches for a
name go outwards scope by scope and find it together or not at all. A name is
read as it was, unless it is the one that was written and the nearest scope that
binds it is the one written: after a definition the scope itself, after an
assignment the nearest one from there. No operation moves a scope. -/
theorem reads_see_writes {s : Store} (hs : s.Built) {i j : ScopeId} (hi : i < s.frames.size)
    (hj : j < s.frames.size) (n n' : String) (v : Value) :
    -- the searches
    (s.binds i n = ((s.here? i n).isSome || (s.parent? i).any (s.binds · n)) ∧
      s.get? i n = (s.here? i n).or ((s.parent? i).bind (s.get? · n)) ∧
      s.assign? i n v =
        if (s.here? i n).isSome then some (s.define i n v)
          else (s.parent? i).bind (s.assign? · n v)) ∧
    (s.binds i n = true ↔ (s.get? i n).isSome) ∧ (s.binds i n = true ↔ (s.assign? i n v).isSome) ∧
    (s.assign? i n v = none → s.after (.assign i n v) = s) ∧
    -- definitions
    ((n' = n ∧ (s.define i n v).Nearest n j i → (s.define i n v).get? j n' = some v) ∧
      (¬ (n' = n ∧ (s.define i n v).Nearest n j i) → (s.define i n v).get? j n' = s.get? j n')) ∧
    -- assignments
    (∀ t, s.assign? i n v = some t →
      (n' = n ∧ (∃ k, s.Nearest n i k ∧ s.Nearest n j k) → t.get? j n' = some v) ∧
      (¬ (n' = n ∧ ∃ k, s.Nearest n i k ∧ s.Nearest n j k) → t.get? j n' = s.get? j n')) ∧
    (s.binds i n = true → s.assign? i n v = some (s.assignOrDefine i n v)) ∧
    (s.binds i n = false → s.assignOrDefine i n v = s.define i n v) ∧
    -- scopes
    ∀ op k, k < s.frames.size → (s.after op).parent? k = s.parent? k ∧
      (s.after op).depth k = s.depth k := by
  have hs := hs.ordered
  refine ⟨⟨binds_eq hs hi n, get?_eq hs hi n,
    assign?_eq hs hi n v⟩, by rw [get?_isSome], by rw [assign?_isSome],
    fun hfails => by simp [Store.after, hfails], ⟨?_, ?_⟩, fun t ht => ?_, fun hb => ?_, fun hb =>
      ?_, fun op k hk => ?_⟩
  · rintro ⟨rfl, hnearest⟩
    exact get?_define_nearest hs hi hnearest
  · exact get?_define_unseen hs hi hj
  · -- an assignment is a definition in a scope that binds the name already
    obtain ⟨k, hk, rfl⟩ := Option.map_eq_some_iff.mp ht
    have hik := nearest_of_binder? hs hi hk
    refine ⟨?_, fun hunseen => ?_⟩
    · rintro ⟨rfl, l, hil, hjl⟩
      obtain rfl := hik.unique hs hil
      exact get?_define_nearest hs hik.lt ((nearest_define_bound hik.isSome).mpr hjl)
    · refine get?_define_unseen hs hik.lt hj ?_
      rintro ⟨hn, hjk⟩
      exact hunseen ⟨hn, k, hik, (nearest_define_bound hik.isSome).mp hjk⟩
  · obtain ⟨k, hk⟩ := binds_iff.mp hb
    simp [assign?, assignOrDefine, hk]
  · have hnone : s.binder? i n = none := by simpa [binds] using hb
    simp [assignOrDefine, hnone]
  · have hg := Grows.after s op
    exact ⟨hg.parent k hk, by rw [depth, depth, hg.chain hs hk]⟩

/-- A scope binds `x` again inside the global one. What is assigned from inside
it is seen there, and the global `x` stays as it was. -/
theorem reads_see_writes_shadowed :
    let outer := Store.initial.after (.define 0 "x" (.truth true))
    let s := ((outer.after (.child 0)).after (.define 1 "x" (.truth false))).after (.child 1)
    s.Built ∧ s.get? 2 "x" = some (.truth false) ∧
      ∃ t, s.assign? 2 "x" .nil = some t ∧ t.get? 1 "x" = some .nil ∧
        t.get? 0 "x" = some (.truth true) := by
  intro outer s
  have hbuilt : s.Built := by
    refine .after (.after (.after (.after .initial ?_) ?_) ?_) ?_ <;>
      simp [outer, Store.after, Op.scope, Store.initial]
  have hsize : s.frames.size = 3 := rfl
  have hinner : s.Nearest "x" 1 1 := .here rfl
  have hmost : s.Nearest "x" 2 1 := .outer rfl rfl hinner
  have hglobal : s.Nearest "x" 0 0 := .here rfl
  obtain ⟨-, -, -, -, -, hseen, -⟩ :=
    reads_see_writes hbuilt (i := 2) (j := 1) (by simp [hsize]) (by simp [hsize]) "x" "x" .nil
  obtain ⟨-, -, -, -, -, hunseen, -⟩ :=
    reads_see_writes hbuilt (i := 2) (j := 0) (by simp [hsize]) (by simp [hsize]) "x" "x" .nil
  refine ⟨hbuilt, rfl, s.define 1 "x" .nil, rfl, (hseen _ rfl).1 ⟨rfl, 1, hmost, hinner⟩, ?_⟩
  rw [(hunseen _ rfl).2]
  · rfl
  · rintro ⟨-, k, hk, hk'⟩
    cases hk.unique hbuilt.ordered hmost
    cases hk'.unique hbuilt.ordered hglobal

end Naskah
