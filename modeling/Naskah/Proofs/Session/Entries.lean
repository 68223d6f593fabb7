import Naskah.Proofs.Alike.Run
import Naskah.Proofs.Grammar.Exact
import Naskah.Proofs.Machine.Depth
import Naskah.Proofs.Session.Diagnostics
import Naskah.Proofs.Token.Lines

/-!
# Entries and their sum

Sources without syntax errors, run one after another on one machine up to the
first fault, come to what one run of all of them comes to, joined by newlines.
A source that stands below others is the same source with that many newlines in
front. These move its tokens down and do nothing else, so the run of the joined
sources is a run of the sources themselves, each set down by the lines above it.
A run is the same wherever its sources are set, but for the lines of tokens. So
what becomes of a line, when the sources are set in other ways, tells the source
that its token is from.
-/

namespace Naskah

/-! ## Sources further down -/

structure Clean (s : String) : Prop where
  words : (tokenize s).errors = []
  tree : (parse (tokenize s).tokens).errors = []

abbrev statementsOf (s : String) : List Stmt := (parse (tokenize s).tokens).statements

def setDown (n : Nat) (s : String) : String := String.ofList (List.replicate n '\n') ++ s

def lowered (n : Nat → Nat) (sources : List String) : List String :=
  sources.mapIdx fun k s => setDown (n k) s

theorem setDown_zero (s : String) : setDown 0 s = s := by simp [setDown]

theorem lowered_cons (n : Nat → Nat) (s : String) (sources : List String) :
    lowered n (s :: sources) = setDown (n 0) s :: lowered (fun k => n (k + 1)) sources :=
  List.mapIdx_cons

theorem lowered_zero (sources : List String) : lowered (fun _ => 0) sources = sources := by
  induction sources with
  | nil => rfl
  | cons s sources ih => rw [lowered_cons, setDown_zero, ih]

theorem split_setDown (n : Nat) (s : String) :
    Piece.split (setDown n s).toList = List.replicate n ⟨.newline, ['\n']⟩ ++
      Piece.split s.toList := by
  rw [setDown, String.toList_append, String.toList_ofList]
  induction n with
  | zero => rfl
  | succ n ih =>
    rw [List.replicate_succ, List.replicate_succ, List.cons_append, List.cons_append, ← ih]
    exact Piece.split_append_newline [] _

theorem tokensFrom_newlines (line n : Nat) (ps : List Piece) :
    Piece.tokensFrom line (List.replicate n ⟨.newline, ['\n']⟩ ++ ps) =
      Piece.tokensFrom (line + n) ps := by
  induction n generalizing line with
  | zero => rfl
  | succ n ih =>
    rw [List.replicate_succ, List.cons_append, newline_tokensFrom, ih, Nat.add_right_comm,
      Nat.add_assoc]

theorem errorsFrom_newlines (line n : Nat) (ps : List Piece) :
    Piece.errorsFrom line (List.replicate n ⟨.newline, ['\n']⟩ ++ ps) =
      Piece.errorsFrom (line + n) ps := by
  induction n generalizing line with
  | zero => rfl
  | succ n ih =>
    rw [List.replicate_succ, List.cons_append, newline_errorsFrom, ih, Nat.add_right_comm,
      Nat.add_assoc]

theorem tokenize_setDown (n : Nat) (s : String) : (tokenize (setDown n s)).tokens =
    Piece.tokensFrom (1 + n) (Piece.split s.toList) ++
      [Token.below n ⟨.ending, "", 1 + s.toList.count '\n'⟩] := by
  have hlines : (setDown n s).toList.count '\n' = n + s.toList.count '\n' := by
    rw [setDown, String.toList_append, String.toList_ofList, List.count_append,
      List.count_replicate_self]
  rw [tokenize_tokens, split_setDown, tokensFrom_newlines, hlines, Token.below]
  simp only [Nat.add_assoc, Nat.add_comm n]

theorem tokenize_setDown_below (n : Nat) (s : String) :
    (tokenize (setDown n s)).tokens = (tokenize s).tokens.map (Token.below n) := by
  rw [tokenize_setDown, tokenize_tokens, List.map_append, Piece.tokensFrom_add]
  rfl

theorem parse_setDown {R : Token → Token → Prop} (hR : OfKinds R) {s : String} {n n' : Nat}
    (h : ∀ t ∈ (tokenize s).tokens, R (t.below n) (t.below n')) :
    List.Forall₂ (Stmt.Alike R) (statementsOf (setDown n s)) (statementsOf (setDown n' s)) ∧
      List.Forall₂ (SyntaxError.Alike R) (parse (tokenize (setDown n s)).tokens).errors
        (parse (tokenize (setDown n' s)).tokens).errors := by
  refine parse_alike hR ⟨?_, tokenize_ended _⟩
  rw [tokenize_setDown_below, tokenize_setDown_below, List.forall₂_map_left_iff,
    List.forall₂_map_right_iff]
  exact List.forall₂_same.mpr h

theorem Clean.setDown {s : String} (h : Clean s) (n : Nat) : Clean (setDown n s) where
  words := by
    rw [tokenize_errors, split_setDown, errorsFrom_newlines]
    exact Piece.errorsFrom_add_eq_nil h.words
  tree := by
    have hkinds : OfKinds fun t u => t.kind.bare = u.kind.bare := ⟨fun h => h⟩
    have herrors := (@parse_setDown _ hkinds s 0 n fun _ _ => rfl).2
    rwa [setDown_zero, h.tree, List.forall₂_nil_left_iff] at herrors

/-! ## Joined sources -/

def sourceLines (s : String) : Nat := s.toList.count '\n' + 1

/-- The number of lines above the source at index `k`, when sources are joined. -/
def linesAbove : List String → Nat → Nat
  | s :: sources, k + 1 => sourceLines s + linesAbove sources k
  | _, _ => 0

def joinedFrom (line : Nat) : List String → List Token
  | [] => []
  | s :: ss => Piece.tokensFrom line (Piece.split s.toList) ++ joinedFrom (line + sourceLines s) ss

theorem split_join (s s' : String) (ss : List String) :
    Piece.split ("\n".intercalate (s :: s' :: ss)).toList =
      Piece.split s.toList ++ ⟨.newline, ['\n']⟩ ::
        Piece.split ("\n".intercalate (s' :: ss)).toList := by
  rw [← Piece.split_append_newline, String.intercalate_cons_cons]
  simp

theorem tokensFrom_join (line : Nat) (sources : List String) :
    Piece.tokensFrom line (Piece.split ("\n".intercalate sources).toList) =
      joinedFrom line sources := by
  induction sources generalizing line with
  | nil => rfl
  | cons s ss ih =>
    cases ss with
    | nil => simp [joinedFrom]
    | cons s' ss =>
      rw [split_join, Piece.tokensFrom_append, newline_tokensFrom, Piece.linesOf_split, ih]
      rfl

theorem errorsFrom_join {line : Nat} {sources : List String}
    (h : ∀ s ∈ sources, (tokenize s).errors = []) (hline : 1 ≤ line) :
    Piece.errorsFrom line (Piece.split ("\n".intercalate sources).toList) = [] := by
  induction sources generalizing line with
  | nil => rfl
  | cons s ss ih =>
    obtain ⟨n, rfl⟩ := Nat.exists_eq_add_of_le hline
    have hs : Piece.errorsFrom (1 + n) (Piece.split s.toList) = [] :=
      Piece.errorsFrom_add_eq_nil (h s List.mem_cons_self)
    cases ss with
    | nil => simpa using hs
    | cons s' ss =>
      rw [split_join, Piece.errorsFrom_append, newline_errorsFrom, hs, List.nil_append]
      exact ih (fun s hs => h s (List.mem_cons_of_mem _ hs)) (by omega)

theorem Clean.program {s : String} (h : Clean s) (n : Nat) :
    Grammar.Program (Piece.tokensFrom (1 + n) (Piece.split s.toList))
      (statementsOf (Naskah.setDown n s)) := by
  have htree := (h.setDown n).tree
  rw [statementsOf]
  generalize hparse : parse (tokenize (Naskah.setDown n s)).tokens = program at htree
  obtain ⟨ss, errors⟩ := program
  obtain rfl : errors = [] := htree
  rw [tokenize_setDown] at hparse
  exact Grammar.program_of_parse tokensFrom_unended (by rfl) hparse

theorem program_join {sources : List String} (h : ∀ s ∈ sources, Clean s) (n : Nat) :
    Grammar.Program (joinedFrom (1 + n) sources)
      ((lowered (fun k => n + linesAbove sources k) sources).flatMap statementsOf) := by
  induction sources generalizing n with
  | nil => exact .nil
  | cons s sources ih =>
    have hmore := ih (fun s hs => h s (List.mem_cons_of_mem _ hs)) (n + sourceLines s)
    simp only [Nat.add_assoc] at hmore
    rw [lowered_cons, List.flatMap_cons, joinedFrom, Nat.add_assoc]
    exact ((h s List.mem_cons_self).program n).append hmore

/-- Joined, clean sources are clean, and their statements are those of the
sources, each set down by the lines above it. -/
theorem clean_join {sources : List String} (h : ∀ s ∈ sources, Clean s) :
    Clean ("\n".intercalate sources) ∧
      statementsOf ("\n".intercalate sources) =
        (lowered (linesAbove sources) sources).flatMap statementsOf := by
  have hprogram := program_join h 0
  simp only [Nat.zero_add] at hprogram
  have hparse : parse (tokenize ("\n".intercalate sources)).tokens =
      ⟨(lowered (linesAbove sources) sources).flatMap statementsOf, []⟩ := by
    rw [tokenize_tokens, tokensFrom_join]
    exact Grammar.parse_of_program hprogram rfl
  refine ⟨⟨?_, by rw [hparse]⟩, by rw [statementsOf, hparse]⟩
  rw [tokenize_errors]
  exact errorsFrom_join (fun s hs => (h s hs).words) (Nat.le_refl 1)

theorem clean_lowered {sources : List String} (h : ∀ s ∈ sources, Clean s) (n : Nat → Nat) :
    ∀ s ∈ lowered n sources, Clean s := by
  intro s hs
  obtain ⟨k, hk, rfl⟩ := List.mem_mapIdx.mp hs
  exact (h _ (List.getElem_mem hk)).setDown (n k)

/-! ## Running in parts -/

theorem Machine.interpret_append {m : Machine} (hm : m.callDepth = 0) (n : Nat)
    (ss ts : List Stmt) : m.interpret n (ss ++ ts) =
      match m.interpret n ss with
      | some (false, k) => k.interpret n ts
      | r => r := by
  unfold Machine.interpret
  rw [execsWithin_append hm]
  cases Stmt.execsWithin n ss Store.globalScope m <;> rfl

theorem Machine.interpret_callDepth {n : Nat} {ss : List Stmt} {m k : Machine}
    (h : m.interpret n ss = some (false, k)) : k.callDepth = m.callDepth := by
  unfold Machine.interpret at h
  cases hexec : Stmt.execsWithin n ss Store.globalScope m with
  | done flow k' =>
    rw [hexec] at h
    cases h
    exact (Stmt.execsWithin_along sameDepth_travel n ss Store.globalScope).done hexec
  | failed => rw [hexec] at h; cases h
  | unfinished => rw [hexec] at h; cases h

/-- Runs sources one after another, up to the first that does not complete. -/
def Machine.runEntries (fuel : Nat) : List String → Machine → Option (Status × Machine)
  | [], m => some (.completed, m)
  | s :: ss, m =>
    match m.run fuel s with
    | some (.completed, m) => m.runEntries fuel ss
    | r => r

abbrev statusOf : Bool × Machine → Status × Machine
  | (faulty, m) => (if faulty then .runtimeError else .completed, m)

theorem Machine.runEntries_of_clean {sources : List String}
    (h : ∀ s ∈ sources, Clean s) {m : Machine} (hm : m.callDepth = 0) (n : Nat) :
    m.runEntries n sources = (m.interpret n (sources.flatMap statementsOf)).map statusOf := by
  induction sources generalizing m with
  | nil => rfl
  | cons s sources ih =>
    have hs := h s List.mem_cons_self
    rw [Machine.runEntries, m.run_of_clean hs.words hs.tree, List.flatMap_cons,
      Machine.interpret_append hm]
    cases hfirst : m.interpret n (statementsOf s) with
    | none => rfl
    | some r =>
      obtain ⟨faulty, k⟩ := r
      cases faulty with
      | true => rfl
      | false =>
        -- a source that completes leaves no call open for the next
        exact ih (fun s hs => h s (List.mem_cons_of_mem _ hs))
          ((Machine.interpret_callDepth hfirst).trans hm)

theorem Machine.run_join {sources : List String} (h : ∀ s ∈ sources, Clean s) {m : Machine}
    (hm : m.callDepth = 0) (n : Nat) :
    m.run n ("\n".intercalate sources) = m.runEntries n (lowered (linesAbove sources) sources) := by
  obtain ⟨hclean, hstatements⟩ := clean_join h
  rw [Machine.runEntries_of_clean (clean_lowered h _) hm, ← hstatements,
    m.run_of_clean hclean.words hclean.tree]

/-! ## Sources set in two ways -/

/-- A token of one of the sources, set down by `n` and by `n'`. -/
inductive Moved (sources : List String) (n n' : Nat → Nat) : Token → Token → Prop
  | mk {k s t} : sources[k]? = some s → t ∈ (tokenize s).tokens →
      Moved sources n n' (t.below (n k)) (t.below (n' k))

theorem moved_ofWords (sources : List String) (n n' : Nat → Nat) :
    OfWords (Moved sources n n') where
  kind := by
    rintro _ _ ⟨⟩
    rfl
  lexeme := by
    rintro _ _ ⟨⟩
    rfl

theorem flip_moved (sources : List String) (n n' : Nat → Nat) :
    flip (Moved sources n n') = Moved sources n' n := by
  funext t u
  refine propext ⟨?_, ?_⟩
  · rintro ⟨hs, ht⟩
    exact ⟨hs, ht⟩
  · rintro ⟨hs, ht⟩
    exact ⟨hs, ht⟩

theorem statements_lowered {R : Token → Token → Prop} (hR : OfKinds R) {sources : List String}
    {n n' : Nat → Nat}
    (h : ∀ k s, sources[k]? = some s → ∀ t ∈ (tokenize s).tokens,
      R (t.below (n k)) (t.below (n' k))) :
    List.Forall₂ (Stmt.Alike R) ((lowered n sources).flatMap statementsOf)
      ((lowered n' sources).flatMap statementsOf) := by
  induction sources generalizing n n' with
  | nil => exact .nil
  | cons s sources ih =>
    rw [lowered_cons, lowered_cons, List.flatMap_cons, List.flatMap_cons]
    exact List.rel_append (parse_setDown hR (h 0 s rfl)).1 (ih fun k => h (k + 1))

def endOf (fuel : Nat) (ss : List Stmt) : Option (Option Fault × Machine) :=
  match Stmt.execsWithin fuel ss Store.globalScope (.fresh none none) with
  | .done _ m => some (none, m)
  | .failed f m => some (some f, m)
  | .unfinished => none

def concluded : Option Fault × Machine → Status × Machine
  | (none, m) => (.completed, m)
  | (some f, m) => (.runtimeError, { m with diagnostics := (m.diagnostics.writeLine f.message).1 })

theorem runEntries_concluded {sources : List String} (h : ∀ s ∈ sources, Clean s) (fuel : Nat) :
    (Machine.fresh none none).runEntries fuel sources =
      (endOf fuel (sources.flatMap statementsOf)).map concluded := by
  rw [Machine.runEntries_of_clean h rfl, Machine.interpret, endOf]
  cases Stmt.execsWithin fuel (sources.flatMap statementsOf) Store.globalScope
    (.fresh none none) <;> rfl

def Silent (d d' : Sink) : Prop := d = .empty none ∧ d' = .empty none

theorem flip_silent : flip Silent = Silent := by
  funext d d'
  exact propext and_comm

structure EndMoved (sources : List String) (n n' : Nat → Nat)
    (e e' : Option Fault × Machine) : Prop where
  fault : Option.Rel (Fault.Alike (Moved sources n n')) e.1 e'.1
  machine : e.2.Alike (Moved sources n n') Silent e'.2

section
variable {sources : List String} {n n' : Nat → Nat} {e e' : Option Fault × Machine}

theorem EndMoved.symm (h : EndMoved sources n n' e e') : EndMoved sources n' n e' e := by
  obtain ⟨f, m⟩ := e
  obtain ⟨f', m'⟩ := e'
  obtain ⟨hfault, hmachine⟩ := h
  have hback := hmachine.flip
  rw [flip_moved, flip_silent] at hback
  refine ⟨?_, hback⟩
  cases hfault with
  | none => exact .none
  | some hf =>
    have hf' := hf.flip
    rw [flip_moved] at hf'
    exact .some hf'

theorem endOf_moved {fuel fuel' : Nat} (hfuel : fuel ≤ fuel')
    (hend : endOf fuel ((lowered n sources).flatMap statementsOf) = some e) :
    ∃ e', endOf fuel' ((lowered n' sources).flatMap statementsOf) = some e' ∧
      EndMoved sources n n' e e' := by
  have hwords := moved_ofWords sources n n'
  have hss := statements_lowered hwords.ofKinds fun k s hk t ht => Moved.mk hk ht
  have hexec := execsWithin_matched hwords hfuel hss Store.globalScope _ _
    (Machine.fresh_alike _ (show Silent _ _ from ⟨rfl, rfl⟩))
  unfold endOf at hend ⊢
  generalize Stmt.execsWithin fuel _ Store.globalScope _ = o at hend hexec
  generalize Stmt.execsWithin fuel' _ Store.globalScope _ = o' at hexec ⊢
  cases hexec with
  | done _ hm =>
    cases hend
    exact ⟨_, rfl, .none, hm⟩
  | failed hf hm =>
    cases hend
    exact ⟨_, rfl, .some hf, hm⟩
  | unfinished => cases hend

def EndTo (sources : List String) (n : Nat → Nat) (e : Option Fault × Machine) : Prop :=
  ∃ fuel, endOf fuel ((lowered n sources).flatMap statementsOf) = some e

theorem endTo_moved (sources : List String) (n n' : Nat → Nat) :
    ((∃ e, EndTo sources n e) ↔ ∃ e', EndTo sources n' e') ∧
      ∀ e e', EndTo sources n e → EndTo sources n' e' → EndMoved sources n n' e e' := by
  refine ends_alike endOf_moved fun hfuel hend => ?_
  obtain ⟨e, he, hmoved⟩ := endOf_moved hfuel hend
  exact ⟨e, he, hmoved.symm⟩

end

/-! ## The source of a fault -/

theorem exists_line_lt (sources : List String) :
    ∃ M, ∀ s ∈ sources, ∀ t ∈ (tokenize s).tokens, t.line < M := by
  have hlist : ∀ ts : List Token, ∃ M, ∀ t ∈ ts, t.line < M := by
    intro ts
    induction ts with
    | nil => exact ⟨0, by simp⟩
    | cons t ts ih =>
      obtain ⟨M, hM⟩ := ih
      exact ⟨M + t.line + 1,
        List.forall_mem_cons.mpr ⟨by omega, fun u hu => by have := hM u hu; omega⟩⟩
  obtain ⟨M, hM⟩ := hlist (sources.flatMap fun s => (tokenize s).tokens)
  exact ⟨M, fun s hs t ht => hM t (List.mem_flatMap.mpr ⟨s, hs, ht⟩)⟩

theorem moved_apart {sources : List String} {M : Nat}
    (hM : ∀ s ∈ sources, ∀ t ∈ (tokenize s).tokens, t.line < M) {k : Nat} {s : String} {t u : Token}
    (hs : sources[k]? = some s) (ht : t ∈ (tokenize s).tokens) {n : Nat → Nat}
    (h : Moved sources (· * M) n (t.below (k * M)) u) : u = t.below (n k) := by
  generalize hv : t.below (k * M) = v at h
  obtain @⟨k', s', t', hs', ht'⟩ := h
  -- sources that are set so far apart have no line in common
  have hline : t.line + k * M = t'.line + k' * M := congrArg Token.line hv
  have hlt := hM s (List.mem_of_getElem? hs) t ht
  have hlt' := hM s' (List.mem_of_getElem? hs') t' ht'
  have hk : k = k' := by
    have hdiv := congrArg (· / M) hline
    simpa [Nat.add_mul_div_right _ _ (Nat.zero_lt_of_lt hlt), Nat.div_eq_of_lt hlt,
      Nat.div_eq_of_lt hlt'] using hdiv
  subst hk
  obtain ⟨kind, lexeme, line⟩ := t
  obtain ⟨kind', lexeme', line'⟩ := t'
  simp only [Token.below, Token.mk.injEq, Nat.add_right_cancel_iff] at hv
  obtain ⟨rfl, rfl, rfl⟩ := hv
  rfl

def Fault.below (n : Nat) (f : Fault) : Fault := { f with token := f.token.below n }

/-- A fault that stops the sources is at a token of one of them, and wherever
they are set, it is the fault at that token. -/
theorem fault_origin {sources : List String} {n : Nat → Nat} {f : Fault} {m : Machine}
    (h : EndTo sources n (some f, m)) :
    ∃ k s g, sources[k]? = some s ∧ g.token ∈ (tokenize s).tokens ∧
      ∀ n' e, EndTo sources n' e → e.1 = some (Fault.below (n' k) g) := by
  obtain ⟨M, hM⟩ := exists_line_lt sources
  -- far apart, the line of a token tells its source
  obtain ⟨e, he⟩ := (endTo_moved sources n (· * M)).1.mp ⟨_, h⟩
  have hfault := ((endTo_moved sources n (· * M)).2 _ _ h he).fault
  obtain ⟨_, m₀⟩ := e
  cases hfault with
  | @some _ f₀ hf =>
    have hplace := hf.token
    generalize hu : f₀.token = u, f.token = v at hplace
    obtain @⟨k, s, t, hs, ht⟩ := hplace
    refine ⟨k, s, ⟨t, f.cause⟩, hs, ht, fun n' e' he' => ?_⟩
    have hfault' := ((endTo_moved sources (· * M) n').2 _ _ he he').fault
    obtain ⟨_, m'⟩ := e'
    cases hfault' with
    | @some _ g hg =>
      have hplace' := hg.token
      rw [hu] at hplace'
      have htoken : g.token = t.below (n' k) := moved_apart hM hs ht hplace'
      have hcause : g.cause = f.cause := hg.cause.symm.trans hf.cause.symm
      simp only [Fault.below, ← htoken, ← hcause]

/-! ## The two runs -/

def EntriesTo (sources : List String) (r : Status × Machine) : Prop :=
  ∃ fuel, (Machine.fresh none none).runEntries fuel sources = some r

def JoinedTo (sources : List String) (r : Status × Machine) : Prop :=
  ∃ fuel, (Machine.fresh none none).run fuel ("\n".intercalate sources) = some r

def Tells (d : Sink) (f : Fault) : Prop := d.written = (f.message ++ "\n").toUTF8

/-- The fault `f` at a token of the source at index `k`. However far down each
of the sources is set, they end, and the fault is reported further down by as
much as that source is. -/
structure FaultOf (sources : List String) (k : Nat) (f : Fault) : Prop where
  token : ∃ s, sources[k]? = some s ∧ f.token ∈ (tokenize s).tokens
  ends : ∀ n, ∃ r, EntriesTo (lowered n sources) r
  told : ∀ n r, EntriesTo (lowered n sources) r → r.1 = .runtimeError ∧
    Tells r.2.diagnostics (f.below (n k))

/-- What is reported of sources that are set down by `n` and by `n'`: nothing,
or the fault of a token of one of them, where that source is. -/
inductive SameReport (sources : List String) (n n' : Nat → Nat) : Status → Sink → Sink → Prop
  | nothing {d d' : Sink} : d.written = .empty → d'.written = .empty →
      SameReport sources n n' .completed d d'
  | fault {k f} {d d' : Sink} : FaultOf sources k f → Tells d (f.below (n k)) →
      Tells d' (f.below (n' k)) → SameReport sources n n' .runtimeError d d'

/-- The same status and output, the same report but for places, and global
scopes of the same names, bound to values that are the same but for the places
of tokens in functions. -/
structure SameEnd (sources : List String) (n n' : Nat → Nat) (r r' : Status × Machine) : Prop where
  status : r.1 = r'.1
  out : r.2.out.written = r'.2.out.written
  diagnostics : SameReport sources n n' r.1 r.2.diagnostics r'.2.diagnostics
  globals : ∀ name, Option.Rel (Value.Alike (Moved sources n n'))
    (r.2.store.here? Store.globalScope name) (r'.2.store.here? Store.globalScope name)

theorem Sink.written_writeLine_empty (text : String) :
    ((Sink.empty none).writeLine text).1.written = (text ++ "\n").toUTF8 := by
  rw [Sink.empty, Sink.writeLine_unlimited, ByteArray.empty_append]

theorem tells_of_endTo {sources : List String} {n : Nat → Nat} {f : Fault} {m : Machine}
    (h : EndTo sources n (some f, m)) : Tells (concluded (some f, m)).2.diagnostics f := by
  -- nothing but the fault is ever written
  have hsilent : m.diagnostics = .empty none :=
    ((endTo_moved sources n n).2 _ _ h h).machine.diagnostics.1
  simp only [concluded, Tells, hsilent, Sink.written_writeLine_empty]

section
variable {sources : List String} (h : ∀ s ∈ sources, Clean s) {n n' : Nat → Nat}
  {r r' : Status × Machine}
include h

theorem entriesTo_iff :
    EntriesTo (lowered n sources) r ↔ ∃ e, EndTo sources n e ∧ concluded e = r := by
  simp only [EntriesTo, EndTo, runEntries_concluded (clean_lowered h n), Option.map_eq_some_iff]
  exact exists_comm.trans (exists_congr fun e => exists_and_right)

theorem joinedTo_iff : JoinedTo sources r ↔ EntriesTo (lowered (linesAbove sources) sources) r := by
  have hrun : ∀ fuel, (Machine.fresh none none).run fuel ("\n".intercalate sources) =
      (Machine.fresh none none).runEntries fuel (lowered (linesAbove sources) sources) :=
        Machine.run_join h rfl
  simp only [JoinedTo, EntriesTo, hrun]

theorem entries_end (n n' : Nat → Nat) :
    (∃ r, EntriesTo (lowered n sources) r) ↔ ∃ r', EntriesTo (lowered n' sources) r' := by
  have hends := (endTo_moved sources n n').1
  simp only [entriesTo_iff h]
  constructor
  · rintro ⟨-, e, he, -⟩
    obtain ⟨e', he'⟩ := hends.mp ⟨e, he⟩
    exact ⟨_, e', he', rfl⟩
  · rintro ⟨-, e', he', -⟩
    obtain ⟨e, he⟩ := hends.mpr ⟨e', he'⟩
    exact ⟨_, e, he, rfl⟩

theorem faultOf_of_endTo {f : Fault} {m : Machine} (he : EndTo sources n (some f, m)) :
    ∃ k g, FaultOf sources k g ∧ ∀ n' e, EndTo sources n' e →
      e.1 = some (Fault.below (n' k) g) := by
  obtain ⟨k, s, g, hs, ht, hfault⟩ := fault_origin he
  refine ⟨k, g, ⟨⟨s, hs, ht⟩, fun n' => ?_, fun n' r hr => ?_⟩, hfault⟩
  · exact (entries_end h n n').mp ⟨_, (entriesTo_iff h).mpr ⟨_, he, rfl⟩⟩
  · obtain ⟨⟨_, m'⟩, he', rfl⟩ := (entriesTo_iff h).mp hr
    obtain rfl := hfault n' _ he'
    exact ⟨rfl, tells_of_endTo he'⟩

theorem sameEnd (hr : EntriesTo (lowered n sources) r) (hr' : EntriesTo (lowered n' sources) r') :
    SameEnd sources n n' r r' := by
  obtain ⟨⟨fault, m⟩, he, rfl⟩ := (entriesTo_iff h).mp hr
  obtain ⟨⟨fault', m'⟩, he', rfl⟩ := (entriesTo_iff h).mp hr'
  obtain ⟨hfault, hm⟩ := (endTo_moved sources n n').2 _ _ he he'
  cases hfault with
  | none =>
    obtain ⟨hd, hd'⟩ := hm.diagnostics
    exact ⟨rfl, congrArg Sink.written hm.out,
      .nothing (congrArg Sink.written hd) (congrArg Sink.written hd'), hm.store.here? _⟩
  | some hf =>
    obtain ⟨k, g, hg, hall⟩ := faultOf_of_endTo h he
    refine ⟨rfl, congrArg Sink.written hm.out, ?_, hm.store.here? _⟩
    cases hall n _ he
    cases hall n' _ he'
    exact .fault hg (tells_of_endTo he) (tells_of_endTo he')

end

/-- **A program may be cut into entries.** Sources without syntax errors, run
one after another up to the first fault, end exactly if one run of all of them
does, joined by newlines. That run is the run of the sources with newlines in
front, as many as there are lines above. Compared with the sources as they are,
the status and the output are the same, a fault is reported further down by the
lines above the source that its token is from, and the global scopes are the
same but for such places in functions. So they are wherever the sources are set. -/
theorem entries_run_as_joined {sources : List String} (h : ∀ s ∈ sources, Clean s) :
    ((∃ r, EntriesTo sources r) ↔ ∃ r', JoinedTo sources r') ∧
      (∀ r', JoinedTo sources r' ↔ EntriesTo (lowered (linesAbove sources) sources) r') ∧
      (∀ r r', EntriesTo sources r → JoinedTo sources r' →
        SameEnd sources (fun _ => 0) (linesAbove sources) r r') ∧
      ∀ n r r', EntriesTo (lowered n sources) r → JoinedTo sources r' →
        SameEnd sources n (linesAbove sources) r r' := by
  have hjoined : ∀ r', JoinedTo sources r' ↔ EntriesTo (lowered (linesAbove sources) sources) r' :=
    fun r' => joinedTo_iff h
  have hends := entries_end h (fun _ => 0) (linesAbove sources)
  rw [lowered_zero] at hends
  refine ⟨hends.trans (exists_congr fun r' => (hjoined r').symm), hjoined, fun r r' hr hr' => ?_,
    fun n r r' hr hr' => sameEnd h hr ((hjoined r').mp hr')⟩
  rw [← lowered_zero sources] at hr
  exact sameEnd h hr ((hjoined r').mp hr')

/-- A fault in a function of one source, met in a call of the next; the last
source is not run. -/
theorem entries_run_as_joined_fault :
    let sources := ["\nfungsi f()\x7bcetak y;\x7d", "\nf();", "f();"]
    (∀ s ∈ sources, Clean s) ∧ ∃ m r', EntriesTo sources (.runtimeError, m) ∧ JoinedTo sources r' ∧
      SameEnd sources (fun _ => 0) (linesAbove sources) (.runtimeError, m) r' := by
  intro sources
  have h : ∀ s ∈ sources, Clean s := by
    simp only [sources, List.forall_mem_cons]
    exact ⟨⟨by decide +kernel, by decide +kernel⟩, ⟨by decide +kernel, by decide +kernel⟩,
      ⟨by decide +kernel, by decide +kernel⟩, by simp⟩
  have hstatus : ((Machine.fresh none none).runEntries 2 sources).map Prod.fst =
      some .runtimeError := by
    decide +kernel
  obtain ⟨⟨_, m⟩, hrun, rfl⟩ := Option.map_eq_some_iff.mp hstatus
  have hentries : EntriesTo sources (.runtimeError, m) := ⟨2, hrun⟩
  obtain ⟨hends, -, hsame, -⟩ := entries_run_as_joined h
  obtain ⟨r', hjoined⟩ := hends.mp ⟨_, hentries⟩
  exact ⟨h, m, r', hentries, hjoined, hsame _ r' hentries hjoined⟩

end Naskah
