import Naskah.Proofs.Alike.Parser
import Naskah.Proofs.Parser.Stack

/-!
# Stray closing braces

A closing brace is reported where no block is open. Blocks are opened by the
braces that are read, and recovery may skip one, after an error at it or before
it; its closing brace is then reported although the two match. So the braces
are to be matched without those that recovery skips, and then exactly the
closing braces that match none are reported.

An error names a token but not its position, and a list may hold a token twice.
Reading does not look at lines, so lines can be made to hold positions.
-/

namespace Naskah

open Naskah.Parser

/-! ## What recovery skips -/

def skipped (ts : List Token) : Nat := ts.length - (synchronize ts).length

/-- The positions that are skipped, from where errors stand and what was expected there. -/
def discarded (ts : List Token) (places : List (Nat × Expectation)) : List Nat :=
  places.flatMap fun e => if e.2 = .openBlock then [] else List.range' e.1 (skipped (ts.drop e.1))

def keptBefore (ts : List Token) (lost : List Nat) (i : Nat) : List Token :=
  (List.range i).filterMap fun j => if j ∈ lost then none else ts[j]?

def behind (k : Nat) (places : List (Nat × Expectation)) : List (Nat × Expectation) :=
  places.map fun e => (k + e.1, e.2)

theorem skipped_split (ts : List Token) :
    synchronize ts = ts.drop (skipped ts) ∧
      ∀ t ∈ ts.take (skipped ts), t.kind ≠ .mark .rightBrace ∧ t.kind ≠ .ending := by
  obtain ⟨d, hd, hpassed⟩ := Attempt.synchronize_skips ts
  have hlength : skipped ts = d.length := by
    have := congrArg List.length hd
    rw [List.length_append] at this
    rw [skipped]
    omega
  rw [hlength]
  constructor
  · conv => rhs; rw [hd]
    simp
  · rw [hd]
    simpa using hpassed

theorem discarded_behind (k : Nat) (ts : List Token) (places : List (Nat × Expectation)) :
    discarded ts (behind k places) = (discarded (ts.drop k) places).map (k + ·) := by
  unfold discarded behind
  rw [List.flatMap_map, List.map_flatMap]
  congr 1
  funext e
  by_cases hx : e.2 = .openBlock
  · simp [hx]
  · simp [hx, List.drop_drop, List.map_add_range']

theorem openBlock_mem_behind {k i : Nat} {places : List (Nat × Expectation)} :
    (k + i, Expectation.openBlock) ∈ behind k places ↔ (i, Expectation.openBlock) ∈ places := by
  simp [behind]

theorem not_mem_behind {k i : Nat} {x : Expectation} (h : i < k)
    (places : List (Nat × Expectation)) : (i, x) ∉ behind k places := by
  simp only [behind, List.mem_map, Prod.mk.injEq, not_exists, not_and]
  intro e _ he
  omega

/-! ## What is kept -/

section
variable {ts : List Token} {lost first : List Nat} {t : Token} {i k : Nat}

theorem keptBefore_add (hfirst : ∀ j ∈ first, j < k) :
    keptBefore ts (first ++ lost.map (k + ·)) (k + i) =
      keptBefore ts (first ++ lost.map (k + ·)) k ++ keptBefore (ts.drop k) lost i := by
  unfold keptBefore
  rw [List.range_add, List.filterMap_append, List.filterMap_map]
  congr 1
  refine List.filterMap_congr fun j _ => ?_
  have hmem : k + j ∈ first ++ lost.map (k + ·) ↔ j ∈ lost := by
    have hnot : k + j ∉ first := fun h => by have := hfirst _ h; omega
    simp [hnot]
  by_cases hj : j ∈ lost
  · rw [Function.comp_apply, if_pos (hmem.mpr hj), if_pos hj]
  · rw [Function.comp_apply, if_neg (mt hmem.mp hj), if_neg hj, List.getElem?_drop]

theorem keptBefore_cons :
    keptBefore (t :: ts) (lost.map (1 + ·)) (1 + i) = t :: keptBefore ts lost i := by
  have h := @keptBefore_add (t :: ts) lost [] i 1 (by simp)
  simpa [keptBefore, List.range_one] using h

theorem keptBefore_skip :
    keptBefore ts (List.range' 0 k ++ lost.map (k + ·)) (k + i) =
      keptBefore (ts.drop k) lost i := by
  rw [keptBefore_add (by simp)]
  have hnone : keptBefore ts (List.range' 0 k ++ lost.map (k + ·)) k = [] := by
    simp only [keptBefore, List.filterMap_eq_nil_iff, List.mem_range]
    intro j hj
    rw [if_pos]
    simp [hj]
  rw [hnone, List.nil_append]

end

/-! ## Where closing braces are stray -/

def Unended (ts : List Token) (i : Nat) : Prop := ∀ t ∈ ts.take i, t.kind ≠ .ending

theorem unended_zero (ts : List Token) : Unended ts 0 := by simp [Unended]

theorem unended_cons {t : Token} (ht : t.kind ≠ .ending) {ts : List Token} {i : Nat} :
    Unended (t :: ts) (1 + i) ↔ Unended ts i := by
  unfold Unended
  rw [Nat.add_comm, List.take_succ_cons, List.forall_mem_cons]
  exact and_iff_right ht

theorem unended_skip {ts : List Token} {i : Nat} :
    Unended ts (skipped ts + i) ↔ Unended (synchronize ts) i := by
  obtain ⟨hsync, hpassed⟩ := skipped_split ts
  unfold Unended
  rw [hsync, List.take_add, List.forall_mem_append]
  exact and_iff_right fun t ht => (hpassed t ht).2

theorem unended_behind {ts us : List Token} {k : Nat} (hk : ∀ i, Unended us (k + i) ↔ Unended ts i)
    {places : List (Nat × Expectation)} (h : ∀ e ∈ places, Unended ts e.1) :
    ∀ e ∈ behind k places, Unended us e.1 := by
  intro e he
  obtain ⟨e', he', rfl⟩ := List.mem_map.mp he
  exact (hk e'.1).mpr (h e' he')

/-- A closing brace in front of the ending that finds nothing open. -/
structure StrayAt (s ts : List Token) (lost : List Nat) (i : Nat) : Prop where
  closing : ∃ t, ts[i]? = some t ∧ t.kind = .mark .rightBrace
  unended : Unended ts i
  unopened : (keptBefore ts lost i).foldl braceStep s = []

section
variable {s ts : List Token} {lost : List Nat} {t : Token} {i : Nat}

theorem strayAt_congr {s' us : List Token} {lost' : List Nat} {j : Nat} (hget : ts[i]? = us[j]?)
    (hunended : Unended ts i ↔ Unended us j)
    (hkept : (keptBefore ts lost i).foldl braceStep s =
      (keptBefore us lost' j).foldl braceStep s') :
    StrayAt s ts lost i ↔ StrayAt s' us lost' j := by
  constructor
  · intro h
    exact ⟨hget ▸ h.closing, hunended.mp h.unended, hkept ▸ h.unopened⟩
  · intro h
    exact ⟨hget ▸ h.closing, hunended.mpr h.unended, hkept ▸ h.unopened⟩

theorem strayAt_zero : StrayAt s (t :: ts) lost 0 ↔ t.kind = .mark .rightBrace ∧ s = [] := by
  constructor
  · intro h
    obtain ⟨u, hu, hkind⟩ := h.closing
    cases hu
    exact ⟨hkind, h.unopened⟩
  · intro h
    exact ⟨⟨t, rfl, h.1⟩, unended_zero _, h.2⟩

theorem strayAt_cons (ht : t.kind ≠ .ending) :
    StrayAt s (t :: ts) (lost.map (1 + ·)) (1 + i) ↔ StrayAt (braceStep s t) ts lost i := by
  refine strayAt_congr ?_ (unended_cons ht) ?_
  · rw [Nat.add_comm, List.getElem?_cons_succ]
  · rw [keptBefore_cons, List.foldl_cons]

theorem strayAt_skip :
    StrayAt s ts (List.range' 0 (skipped ts) ++ lost.map (skipped ts + ·)) (skipped ts + i) ↔
    StrayAt s (synchronize ts) lost i := by
  refine strayAt_congr ?_ unended_skip ?_
  · rw [(skipped_split ts).1, List.getElem?_drop]
  · rw [keptBefore_skip, ← (skipped_split ts).1]

theorem strayAt_append (hi : i < ts.length) (us : List Token) :
    StrayAt s (ts ++ us) lost i ↔ StrayAt s ts lost i := by
  refine strayAt_congr (List.getElem?_append_left hi) ?_ ?_
  · unfold Unended
    rw [List.take_append_of_le_length (Nat.le_of_lt hi)]
  · congr 1
    refine List.filterMap_congr fun j hj => ?_
    rw [List.getElem?_append_left (Nat.lt_trans (List.mem_range.mp hj) hi)]

theorem not_strayAt_skipped (hi : i < skipped ts) : ¬ StrayAt s ts lost i := by
  intro h
  obtain ⟨t, ht, hkind⟩ := h.closing
  have htake : (ts.take (skipped ts))[i]? = some t := by rw [List.getElem?_take_of_lt hi, ht]
  exact ((skipped_split ts).2 t (List.mem_of_getElem? htake)).1 hkind

theorem not_strayAt_ending (hts : (front ts).kind = .ending) : ¬ StrayAt s ts lost i := by
  intro h
  obtain ⟨t, ht, hkind⟩ := h.closing
  cases ts with
  | nil => simp at ht
  | cons u ts =>
    cases i with
    | zero =>
      cases ht
      simp [front, hkind] at hts
    | succ i => exact h.unended u (by simp) hts

end

/-! ## Errors and their places -/

/-- The places of errors on a walk to the ending, which tell what is stray on it. -/
structure ErrorsAt (s ts : List Token) (places : List (Nat × Expectation))
    (es : List SyntaxError) : Prop where
  errors : es = places.map fun e => blame (ts.drop e.1) e.2
  unended : ∀ e ∈ places, Unended ts e.1
  stray : ∀ i, (i, Expectation.openBlock) ∈ places ↔ StrayAt s ts (discarded ts places) i

section
variable {s ts : List Token} {t : Token} {places : List (Nat × Expectation)} {es : List SyntaxError}

theorem errorsAt_ending (hts : (front ts).kind = .ending) : ErrorsAt s ts [] [] where
  errors := rfl
  unended := by simp
  stray i := iff_of_false (by simp) (not_strayAt_ending hts)

theorem ErrorsAt.takes (h : ErrorsAt (braceStep s t) ts places es) (ht : t.kind ≠ .ending)
    (hs : t.kind = .mark .rightBrace → s ≠ []) : ErrorsAt s (t :: ts) (behind 1 places) es where
  errors := by simp [h.errors, behind, Nat.add_comm 1]
  unended := unended_behind (fun _ => unended_cons ht) h.unended
  stray i := by
    rw [discarded_behind]
    cases i with
    | zero =>
      rw [strayAt_zero]
      exact iff_of_false (not_mem_behind Nat.one_pos _) fun hclosing => hs hclosing.1 hclosing.2
    | succ i =>
      rw [Nat.add_comm i 1, openBlock_mem_behind, h.stray, strayAt_cons ht]
      rfl

theorem ErrorsAt.strays (h : ErrorsAt [] ts places es) (ht : t.kind = .mark .rightBrace) :
    ErrorsAt [] (t :: ts) ((0, .openBlock) :: behind 1 places)
      (.unexpectedToken t .openBlock :: es) where
  errors := by simp [h.errors, behind, Nat.add_comm 1]
  unended := List.forall_mem_cons.mpr
    ⟨unended_zero _, unended_behind (fun _ => unended_cons (by simp [ht])) h.unended⟩
  stray i := by
    have hdiscarded : discarded (t :: ts) ((0, .openBlock) :: behind 1 places) =
        (discarded ts places).map (1 + ·) :=
      discarded_behind 1 (t :: ts) places
    rw [hdiscarded]
    cases i with
    | zero => simp [strayAt_zero, ht]
    | succ i =>
      have hstep : braceStep [] t = [] := braceStep_right [] ht
      rw [Nat.add_comm i 1, strayAt_cons (by simp [ht]), hstep, ← h.stray, List.mem_cons,
        openBlock_mem_behind]
      simp

theorem ErrorsAt.recovers (h : ErrorsAt s (synchronize ts) places es) {x : Expectation}
    (hx : x ≠ .openBlock) :
    ErrorsAt s ts ((0, x) :: behind (skipped ts) places) (blame ts x :: es) where
  errors := by
    have herrors := h.errors
    rw [(skipped_split ts).1] at herrors
    simp [herrors, behind, List.drop_drop]
  unended :=
    List.forall_mem_cons.mpr ⟨unended_zero _, unended_behind (fun _ => unended_skip) h.unended⟩
  stray i := by
    have hdiscarded : discarded ts ((0, x) :: behind (skipped ts) places) =
        List.range' 0 (skipped ts) ++ (discarded (synchronize ts) places).map (skipped ts + ·) := by
      rw [(skipped_split ts).1, ← discarded_behind]
      simp [discarded, hx]
    have hother : (i, Expectation.openBlock) ∈ (0, x) :: behind (skipped ts) places ↔
        (i, Expectation.openBlock) ∈ behind (skipped ts) places := by
      simp [Ne.symm hx]
    rw [hdiscarded, hother]
    -- recovery skips no closing brace, and what it skips is not kept
    by_cases hi : i < skipped ts
    · exact iff_of_false (not_mem_behind hi _) (not_strayAt_skipped hi)
    · obtain ⟨j, rfl⟩ := Nat.exists_eq_add_of_le (Nat.le_of_not_lt hi)
      rw [openBlock_mem_behind, h.stray, strayAt_skip]

theorem Walk.errorsAt {s' r : List Token} (h : Walk s ts es s' r) (hr : (front r).kind = .ending) :
    ∃ places, ErrorsAt s ts places es := by
  induction h with
  | stop => exact ⟨[], errorsAt_ending hr⟩
  | takes ht hs _ ih =>
    obtain ⟨places, herrors⟩ := ih hr
    exact ⟨_, herrors.takes ht hs⟩
  | stray ht _ ih =>
    obtain ⟨places, herrors⟩ := ih hr
    exact ⟨_, herrors.strays ht⟩
  | recovers hx _ ih =>
    obtain ⟨places, herrors⟩ := ih hr
    exact ⟨_, herrors.recovers hx⟩

end

/-! ## Lists of the same kinds -/

section
variable {ts us : List Token} (h : ts.map (·.kind) = us.map (·.kind))
include h

theorem kind_getElem? (i : Nat) : (ts[i]?).map (·.kind) = (us[i]?).map (·.kind) := by
  rw [← List.getElem?_map, ← List.getElem?_map, h]

theorem keptBefore_kinds (lost : List Nat) (i : Nat) :
    (keptBefore ts lost i).map (·.kind) = (keptBefore us lost i).map (·.kind) := by
  unfold keptBefore
  rw [List.map_filterMap, List.map_filterMap]
  refine List.filterMap_congr fun j _ => ?_
  by_cases hj : j ∈ lost
  · simp [hj]
  · simpa [hj] using kind_getElem? h j

theorem length_foldl_braceStep {s s' : List Token} (hs : s.length = s'.length) :
    (ts.foldl braceStep s).length = (us.foldl braceStep s').length := by
  induction ts generalizing us s s' with
  | nil =>
    obtain rfl : us = [] := by simpa using h.symm
    exact hs
  | cons t ts ih =>
    cases us with
    | nil => simp at h
    | cons u us =>
      simp only [List.map_cons, List.cons.injEq] at h
      refine ih h.2 ?_
      have hmark : ∀ m, t.isMark m = u.isMark m := fun m => by simp [Token.isMark, h.1]
      unfold braceStep
      rw [hmark, hmark]
      split
      · simp [hs]
      · split
        · simp [hs]
        · exact hs

theorem StrayAt.of_kinds {lost : List Nat} {i : Nat} (hstray : StrayAt [] ts lost i) :
    StrayAt [] us lost i where
  closing := by
    obtain ⟨t, ht, hkind⟩ := hstray.closing
    have hi := kind_getElem? h i
    rw [ht] at hi
    cases hu : us[i]? with
    | none => simp [hu] at hi
    | some u => exact ⟨u, rfl, by simpa [hu, hkind] using hi.symm⟩
  unended := by
    intro u hu hend
    have htake : (ts.take i).map (·.kind) = (us.take i).map (·.kind) := by
      rw [List.map_take, List.map_take, h]
    have hmem : Kind.ending ∈ (ts.take i).map (·.kind) := htake ▸ List.mem_map.mpr ⟨u, hu, hend⟩
    obtain ⟨t, ht, hkind⟩ := List.mem_map.mp hmem
    exact hstray.unended t ht hkind
  unopened := by
    have hlength :=
      length_foldl_braceStep (keptBefore_kinds h lost i) (Eq.refl ([] : List Token).length)
    rw [hstray.unopened] at hlength
    exact List.eq_nil_of_length_eq_zero hlength.symm

end

/-! ## An ending behind the list -/

theorem exists_cut_ending (ts : List Token) :
    ∃ c r, ts = c ++ r ∧ Cut c r (r ++ [Token.noMore]) := by
  obtain ⟨c, r, hts, hcut⟩ := exists_cut ts
  refine ⟨c, r, hts, hcut.unended, hcut.ends, ?_⟩
  cases r <;> rfl

theorem parse_append_ending (ts : List Token) : parse (ts ++ [Token.noMore]) = parse ts := by
  obtain ⟨c, r, rfl, hcut⟩ := exists_cut_ending ts
  rw [List.append_assoc]
  exact parse_cut hcut (by simp)

theorem skipped_append_ending (ts : List Token) : skipped (ts ++ [Token.noMore]) = skipped ts := by
  obtain ⟨c, r, rfl, hcut⟩ := exists_cut_ending ts
  obtain ⟨d, k, hc, hr, hr'⟩ := synchronize_together hcut
  unfold skipped
  rw [List.append_assoc, hr, hr']
  simp only [List.length_append]
  omega

theorem strayAt_append_ending {ts : List Token} {lost : List Nat} {i : Nat} :
    StrayAt [] (ts ++ [Token.noMore]) lost i ↔ StrayAt [] ts lost i := by
  by_cases hi : i < ts.length
  · exact strayAt_append hi _
  · refine iff_of_false (fun h => ?_) (fun h => ?_)
    · obtain ⟨t, ht, hkind⟩ := h.closing
      rw [List.getElem?_append_right (Nat.le_of_not_lt hi)] at ht
      obtain rfl := List.mem_singleton.mp (List.mem_of_getElem? ht)
      cases hkind
    · obtain ⟨t, ht, -⟩ := h.closing
      exact hi (List.getElem?_eq_some_iff.mp ht).1

/-! ## Positions for lines -/

/-- The list and an ending behind it, with positions for lines. -/
def positioned (ts : List Token) : List Token :=
  (ts ++ [Token.noMore]).mapIdx fun i t => { t with line := i }

def SyntaxError.place? : SyntaxError → Option (Nat × Expectation)
  | .unexpectedToken t x => some (t.line, x)
  | _ => none

def errorPlaces (ts : List Token) : List (Nat × Expectation) :=
  (parse (positioned ts)).errors.filterMap SyntaxError.place?

theorem front_drop (ts : List Token) (i : Nat) : front (ts.drop i) = (ts[i]?).getD .noMore := by
  rw [← List.head?_drop]
  cases ts.drop i <;> rfl

section
variable (ts : List Token)

theorem positioned_getElem? (i : Nat) :
    (positioned ts)[i]? = ((ts ++ [Token.noMore])[i]?).map fun t => { t with line := i } :=
  List.getElem?_mapIdx

theorem positioned_kinds : (positioned ts).map (·.kind) = (ts ++ [Token.noMore]).map (·.kind) := by
  apply List.ext_getElem?
  intro i
  rw [List.getElem?_map, List.getElem?_map, positioned_getElem?, Option.map_map]
  rfl

theorem positioned_length : (positioned ts).length = ts.length + 1 := by simp [positioned]

theorem front_positioned {i : Nat} (hi : i ≤ ts.length) :
    (front ((positioned ts).drop i)).line = i := by
  have hlt : i < (ts ++ [Token.noMore]).length := by simpa using Nat.lt_succ_of_le hi
  rw [front_drop, positioned_getElem?, List.getElem?_eq_getElem hlt]
  rfl

theorem le_of_unended_positioned {i : Nat} (h : Unended (positioned ts) i) : i ≤ ts.length := by
  apply Classical.byContradiction
  intro hi
  have htake : (positioned ts).take i = positioned ts :=
    List.take_of_length_le (by rw [positioned_length]; omega)
  have hmem : Kind.ending ∈ (positioned ts).map (·.kind) := by simp [positioned_kinds, Token.noMore]
  obtain ⟨t, ht, hkind⟩ := List.mem_map.mp hmem
  exact h t (htake.symm ▸ ht) hkind

/-- Each token stands at the position that its line says. -/
theorem positioned_alike : TokensAlike (fun t u => t = front (ts.drop u.line) ∧ t.kind = u.kind)
    (ts ++ [Token.noMore]) (positioned ts) := by
  refine ⟨List.forall₂_iff_get.mpr ⟨by simp [positioned], fun i hi hi' => ?_⟩,
    .noMore, by simp, rfl⟩
  have hfront : (ts ++ [Token.noMore])[i] = front (ts.drop i) := by
    rw [front_drop]
    by_cases hlt : i < ts.length
    · rw [List.getElem_append_left hlt, List.getElem?_eq_getElem hlt]
      rfl
    · rw [List.getElem_append_right (Nat.le_of_not_lt hlt),
        List.getElem?_eq_none (Nat.le_of_not_lt hlt)]
      simp
  simp only [positioned, List.get_eq_getElem, List.getElem_mapIdx]
  exact ⟨hfront, trivial⟩

theorem skipped_positioned (i : Nat) : skipped ((positioned ts).drop i) = skipped (ts.drop i) := by
  by_cases hi : i ≤ ts.length
  · have hdrop : (ts ++ [Token.noMore]).drop i = ts.drop i ++ [Token.noMore] :=
      List.drop_append_of_le_length hi
    have halike : TokensAlike (fun t u => t = front (ts.drop u.line) ∧ t.kind = u.kind)
        (ts.drop i ++ [Token.noMore]) ((positioned ts).drop i) := by
      refine ⟨?_, .noMore, by simp, rfl⟩
      rw [← hdrop]
      exact List.forall₂_drop i (positioned_alike ts).tokens
    have hsync := synchronize_alike ⟨fun h => congrArg Kind.bare h.2⟩ halike
    rw [← skipped_append_ending (ts.drop i)]
    unfold skipped
    rw [halike.tokens.length_eq, hsync.tokens.length_eq]
  · rw [List.drop_eq_nil_of_le (by rw [positioned_length]; omega),
      List.drop_eq_nil_of_le (by omega)]

theorem discarded_positioned (places : List (Nat × Expectation)) :
    discarded (positioned ts) places = discarded ts places := by
  unfold discarded
  congr 1
  funext e
  rw [skipped_positioned]

/-- Reading does not look at lines, so its errors are at the places that lines tell. -/
theorem parse_errors_placed :
    (parse ts).errors = (errorPlaces ts).map fun e => blame (ts.drop e.1) e.2 := by
  have herrors := (parse_alike ⟨fun h => congrArg Kind.bare h.2⟩ (positioned_alike ts)).2
  rw [parse_append_ending] at herrors
  unfold errorPlaces
  generalize (parse ts).errors = es, (parse (positioned ts)).errors = es' at herrors
  induction herrors with
  | nil => rfl
  | cons h _ ih =>
    cases h with
    | unexpectedToken h => simp [SyntaxError.place?, blame, ih, h.1]

theorem openBlock_mem_errorPlaces (i : Nat) :
    (i, Expectation.openBlock) ∈ errorPlaces ts ↔
    StrayAt [] ts (discarded ts (errorPlaces ts)) i := by
  obtain ⟨r, ⟨_, hwalk, _⟩, hr⟩ := parse_level (positioned ts)
  obtain ⟨places, herrors⟩ := hwalk.errorsAt hr
  have hplaces : errorPlaces ts = places := by
    calc errorPlaces ts = places.filterMap some := by
          rw [errorPlaces, herrors.errors, List.filterMap_map]
          refine List.filterMap_congr fun e he => ?_
          simp [SyntaxError.place?, blame,
            front_positioned ts (le_of_unended_positioned ts (herrors.unended e he))]
      _ = places := List.filterMap_some
  rw [hplaces, herrors.stray, discarded_positioned, ← @strayAt_append_ending ts]
  exact ⟨.of_kinds (positioned_kinds ts), .of_kinds (positioned_kinds ts).symm⟩

end

/-! ## Braces of the whole list -/

section
variable {ts : List Token} {lost : List Nat} {i j : Nat}

theorem discarded_ne_rightBrace {places : List (Nat × Expectation)}
    (hj : j ∈ discarded ts places) {t : Token} (ht : ts[j]? = some t) :
    t.kind ≠ .mark .rightBrace := by
  simp only [discarded, List.mem_flatMap] at hj
  obtain ⟨e, -, hj⟩ := hj
  by_cases hx : e.2 = .openBlock
  · simp [hx] at hj
  · rw [if_neg hx, List.mem_range'_1] at hj
    have htake : ((ts.drop e.1).take (skipped (ts.drop e.1)))[j - e.1]? = some t := by
      rw [List.getElem?_take_of_lt (by omega), List.getElem?_drop, Nat.add_sub_cancel' hj.1, ht]
    exact ((skipped_split (ts.drop e.1)).2 t (List.mem_of_getElem? htake)).1

theorem keptBefore_succ :
    keptBefore ts lost (i + 1) = keptBefore ts lost i ++
      (if i ∈ lost then none else ts[i]?).toList := by
  unfold keptBefore
  rw [List.range_succ, List.filterMap_append]
  congr 1

theorem foldl_keptBefore (s : List Token)
    (h : ∀ j ∈ lost, j < i → ∀ t, ts[j]? = some t → t.kind.NoBrace) :
    (keptBefore ts lost i).foldl braceStep s = (ts.take i).foldl braceStep s := by
  induction i with
  | zero => rfl
  | succ i ih =>
    have hbefore := ih fun j hj hlt => h j hj (Nat.lt_succ_of_lt hlt)
    rw [keptBefore_succ, List.take_add_one, List.foldl_append, List.foldl_append, hbefore]
    by_cases hi : i ∈ lost
    · cases ht : ts[i]? with
      | none => simp [hi]
      | some t => simp [hi, braceStep_other _ (h i hi (Nat.lt_succ_self i) t ht)]
    · rw [if_neg hi]

end

/-! ## What is reported -/

theorem Expectation.text_eq_unmatched {x : Expectation} :
    x.text = "Unmatched '\x7d'." ↔ x = .openBlock := by
  cases x <;> simp [Expectation.text]

def UnmatchedAt (ts : List Token) (i : Nat) : Prop :=
  ∃ x, (i, x) ∈ errorPlaces ts ∧ x.text = "Unmatched '\x7d'."

theorem unmatchedAt_iff {ts : List Token} {i : Nat} :
    UnmatchedAt ts i ↔ (i, .openBlock) ∈ errorPlaces ts := by
  simp [UnmatchedAt, Expectation.text_eq_unmatched]

/-- **A brace is said to be unmatched if it closes nothing that was read.** Each
error stands at a place of the list. Those that call a brace unmatched stand at
the closing braces before the ending that match no brace in front of them, once
what recovery has skipped is left out. In the whole list such a brace may have a
match, but only if recovery has skipped an opening brace in front of it. -/
theorem unmatched_iff_kept_unopened (ts : List Token) :
    (parse ts).errors = (errorPlaces ts).map (fun e => blame (ts.drop e.1) e.2) ∧
    (∀ i, UnmatchedAt ts i ↔
      (∃ right, ts[i]? = some right ∧ right.kind = .mark .rightBrace) ∧
        (∀ t ∈ ts.take i, t.kind ≠ .ending) ∧
        openBraces (keptBefore ts (discarded ts (errorPlaces ts)) i) = []) ∧
    ∀ i, UnmatchedAt ts i → openBraces (ts.take i) = [] ∨
      ∃ j ∈ discarded ts (errorPlaces ts), j < i ∧ ∃ left, ts[j]? = some left ∧
        left.kind = .mark .leftBrace := by
  have hstray : ∀ i, UnmatchedAt ts i ↔ StrayAt [] ts (discarded ts (errorPlaces ts)) i :=
    fun i => by
      rw [unmatchedAt_iff, openBlock_mem_errorPlaces]
  refine ⟨parse_errors_placed ts, fun i => ?_, fun i h => ?_⟩
  · rw [hstray]
    exact ⟨fun h => ⟨h.closing, h.unended, h.unopened⟩, fun h => ⟨h.1, h.2.1, h.2.2⟩⟩
  · apply Classical.or_iff_not_imp_right.mpr
    intro hkept
    have hbraces : ∀ j ∈ discarded ts (errorPlaces ts), j < i → ∀ t, ts[j]? = some t →
        t.kind.NoBrace :=
      fun j hj hlt t ht => ⟨fun hl => hkept ⟨j, hj, hlt, t, ht, hl⟩, discarded_ne_rightBrace hj ht⟩
    rw [openBraces, ← foldl_keptBefore [] hbraces]
    exact ((hstray i).mp h).unopened

/-- In `{ jika {} }` the second brace is skipped, so that the third closes the
first, and the last is left over although it matches the first. -/
theorem unmatched_iff_kept_unopened_branch :
    errorPlaces (tokenize "\x7b jika \x7b\x7d \x7d").tokens = [(2, .expression), (4, .openBlock)] ∧
      discarded (tokenize "\x7b jika \x7b\x7d \x7d").tokens
        [(2, .expression), (4, .openBlock)] = [2] ∧
      (openBraces ((tokenize "\x7b jika \x7b\x7d \x7d").tokens.take 4)).length = 1 ∧
      ∃ j ∈ [2], j < 4 ∧ ∃ left, (tokenize "\x7b jika \x7b\x7d \x7d").tokens[j]? = some left ∧
        left.kind = .mark .leftBrace := by
  have hplaces : errorPlaces (tokenize "\x7b jika \x7b\x7d \x7d").tokens =
      [(2, .expression), (4, .openBlock)] := by
    decide +kernel
  have hlost : discarded (tokenize "\x7b jika \x7b\x7d \x7d").tokens
      [(2, .expression), (4, .openBlock)] = [2] := by
    decide +kernel
  have hopen : (openBraces ((tokenize "\x7b jika \x7b\x7d \x7d").tokens.take 4)).length = 1 := by
    decide +kernel
  have hunmatched : UnmatchedAt (tokenize "\x7b jika \x7b\x7d \x7d").tokens 4 := by
    rw [unmatchedAt_iff, hplaces]
    decide
  have hmain :=
    (unmatched_iff_kept_unopened (tokenize "\x7b jika \x7b\x7d \x7d").tokens).2.2 4 hunmatched
  rw [hplaces, hlost] at hmain
  refine ⟨hplaces, hlost, hopen, hmain.resolve_left fun hnone => ?_⟩
  rw [hnone] at hopen
  cases hopen

/-- In `jika {}` the condition is missing, and the error at the first brace skips
it. The second is said to be unmatched, but a brace in front of it matches it. -/
theorem unmatched_although_matched :
    ¬ ∀ (ts : List Token) (found : Token) (x : Expectation),
      .unexpectedToken found x ∈ (parse ts).errors →
      x.text = "Unmatched '\x7d'." →
      ∃ before after, ts = before ++ found :: after ∧ found.kind = .mark .rightBrace ∧
        openBraces before = [] := by
  intro hclaim
  have htokens : (tokenize "jika \x7b\x7d").tokens = [⟨.keyword .jika, "jika", 1⟩,
      ⟨.mark .leftBrace, "\x7b", 1⟩, ⟨.mark .rightBrace, "\x7d", 1⟩, ⟨.ending, "", 1⟩] := rfl
  have herrors : (parse (tokenize "jika \x7b\x7d").tokens).errors =
      [.unexpectedToken ⟨.mark .leftBrace, "\x7b", 1⟩ .expression,
        .unexpectedToken ⟨.mark .rightBrace, "\x7d", 1⟩ .openBlock] := rfl
  obtain ⟨before, after, hts, -, hopen⟩ := hclaim (tokenize "jika \x7b\x7d").tokens
    ⟨.mark .rightBrace, "\x7d", 1⟩ .openBlock (by simp [herrors]) rfl
  rw [htokens] at hts
  -- the only closing brace has two tokens in front of it
  rcases before with _ | ⟨a, _ | ⟨b, _ | ⟨c, _ | ⟨d, before⟩⟩⟩⟩ <;> simp at hts
  obtain ⟨rfl, rfl, -⟩ := hts
  simp [openBraces, braceStep, Token.isMark] at hopen

end Naskah
