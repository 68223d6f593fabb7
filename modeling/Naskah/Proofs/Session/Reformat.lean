import Naskah.Proofs.Alike.Run
import Naskah.Proofs.Session.Diagnostics
import Naskah.Proofs.Token.Lines

/-!
# Sources of the same words

What stands between the words of a source decides the lines of its tokens and
nothing else. Two sources of the same words run alike, and so do two sequences
of such sources, each on one machine: the statuses and the output are the same
and the diagnostics differ in line numbers only.
-/

namespace Naskah

structure Reformatted (s t : String) : Prop where
  left : (tokenize s).errors = []
  right : (tokenize t).errors = []
  words : (tokenize s).tokens.map (fun t => (t.kind, t.lexeme)) =
    (tokenize t).tokens.map (fun t => (t.kind, t.lexeme))

def Machine.runAll (fuel : Nat) : List String → Machine → Option (List (Status × Machine))
  | [], _ => some []
  | s :: ss, m =>
    match m.run fuel s with
    | none => none
    | some r => (r.2.runAll fuel ss).map (r :: ·)

def RunTo (sources : List String) (ends : List (Status × Machine)) : Prop :=
  ∃ fuel, (Machine.fresh none none).runAll fuel sources = some ends

structure SameResult (r r' : Status × Machine) : Prop where
  status : r.1 = r'.1
  out : r.2.out.written = r'.2.out.written
  diagnostics : SameDiagnostics r.2.diagnostics r'.2.diagnostics

/-! ## The tokens -/

theorem Reformatted.symm {s t : String} (h : Reformatted s t) : Reformatted t s :=
  ⟨h.right, h.left, h.words.symm⟩

theorem Reformatted.tokens {s t : String} (h : Reformatted s t) :
    TokensAlike SameWord (tokenize s).tokens (tokenize t).tokens := by
  have hwords := h.words
  rw [← List.forall₂_eq_eq_eq, List.forall₂_map_left_iff, List.forall₂_map_right_iff] at hwords
  refine ⟨((List.forall₂_and_left _ _).mpr ⟨tokenize_inline, hwords⟩).imp ?_, tokenize_ended s⟩
  rintro t u ⟨hinline, hword⟩
  obtain ⟨hkind, hlexeme⟩ := Prod.mk.inj hword
  exact ⟨hkind, hlexeme, hinline⟩

theorem Reformatted.parsed {s t : String} (h : Reformatted s t) :
    List.Forall₂ (Stmt.Alike SameWord) (parse (tokenize s).tokens).statements
      (parse (tokenize t).tokens).statements ∧
      List.Forall₂ (SyntaxError.Alike SameWord) (parse (tokenize s).tokens).errors
        (parse (tokenize t).tokens).errors :=
  parse_alike sameWord_ofWords.ofKinds h.tokens

/-! ## The pieces -/

def wordPieces (s : String) : List Piece := (Piece.split s.toList).filter (·.kind?.isSome)

theorem Piece.words_tokensFrom (line : Nat) (ps : List Piece) :
    (tokensFrom line ps).map (fun t => (t.kind, t.lexeme)) =
      (ps.filter (·.kind?.isSome)).filterMap fun p => p.kind?.map (·, String.ofList p.text) := by
  induction ps generalizing line with
  | nil => rfl
  | cons p ps ih =>
    have ih := ih (line + p.lines)
    unfold tokensFrom at ih ⊢
    cases hkind : p.kind? with
    | none => simpa [numbered, token?, hkind] using ih
    | some kind => simpa [numbered, token?, hkind] using ih

theorem Reformatted.of_wordPieces {s t : String} (hs : (tokenize s).errors = [])
    (ht : (tokenize t).errors = []) (h : wordPieces s = wordPieces t) : Reformatted s t := by
  refine ⟨hs, ht, ?_⟩
  unfold wordPieces at h
  simp only [tokenize_tokens, List.map_append, Piece.words_tokensFrom, h]
  rfl

/-! ## One run -/

abbrev SameRun (m m' : Machine) : Prop := m.Alike SameWord SameDiagnostics m'

theorem reportSyntax_alike {es es' : List SyntaxError}
    (hes : List.Forall₂ (SyntaxError.Alike SameWord) es es') {m m' : Machine} (hm : SameRun m m') :
    SameRun (m.reportSyntax [] es) (m'.reportSyntax [] es') := by
  refine { hm with diagnostics := hm.diagnostics.writeLines ?_ }
  rw [List.forall₂_map_left_iff, List.forall₂_map_right_iff]
  exact hes.imp fun _ _ he => he.message

theorem run_of_errors {fuel : Nat} {s : String} (m : Machine) (hs : (tokenize s).errors = [])
    (hp : (parse (tokenize s).tokens).errors ≠ []) :
    m.run fuel s = some (.syntaxError, m.reportSyntax [] (parse (tokenize s).tokens).errors) := by
  simp [Machine.run, hs, hp]

theorem run_matched {n n' : Nat} (hn : n ≤ n') {s t : String} (h : Reformatted s t)
    {m m' m₁ : Machine} (hm : SameRun m m') {status : Status}
    (hrun : m.run n s = some (status, m₁)) :
    ∃ m₁', m'.run n' t = some (status, m₁') ∧ SameRun m₁ m₁' := by
  obtain ⟨hstatements, herrors⟩ := h.parsed
  by_cases hp : (parse (tokenize s).tokens).errors = []
  · have hp' : (parse (tokenize t).tokens).errors = [] := by
      rw [hp, List.forall₂_nil_left_iff] at herrors
      exact herrors
    rw [m.run_of_clean h.left hp, Option.map_eq_some_iff] at hrun
    obtain ⟨⟨faulty, k⟩, hinterpret, hstatus⟩ := hrun
    cases hstatus
    obtain ⟨k', hinterpret', hend⟩ :=
      Machine.interpret_matched sameWord_ofWords hn hstatements hm hinterpret
    refine ⟨k', by rw [m'.run_of_clean h.right hp', hinterpret']; rfl, ?_⟩
    cases hend with
    | completed hsame => exact hsame
    | fault hfault hsame =>
      exact { hsame with diagnostics := hsame.diagnostics.writeLine hfault.message }
  · have hp' : (parse (tokenize t).tokens).errors ≠ [] := by
      intro hnil
      rw [hnil, List.forall₂_nil_right_iff] at herrors
      exact hp herrors
    rw [run_of_errors m h.left hp] at hrun
    cases hrun
    exact ⟨_, run_of_errors m' h.right hp', reportSyntax_alike herrors hm⟩

theorem SameRun.result {status : Status} {m m' : Machine} (h : SameRun m m') :
    SameResult (status, m) (status, m') :=
  ⟨rfl, congrArg Sink.written h.out, h.diagnostics⟩

/-! ## Sequences of runs -/

theorem runAll_matched {n n' : Nat} (hn : n ≤ n') {ss ts : List String}
    (h : List.Forall₂ Reformatted ss ts) {m m' : Machine} (hm : SameRun m m')
    {ends : List (Status × Machine)} (hrun : m.runAll n ss = some ends) :
    ∃ ends', m'.runAll n' ts = some ends' ∧ List.Forall₂ SameResult ends ends' := by
  induction h generalizing m m' ends with
  | nil =>
    cases hrun
    exact ⟨[], rfl, .nil⟩
  | @cons s t ss ts hst _ ih =>
    rw [Machine.runAll] at hrun
    cases hfirst : m.run n s with
    | none => rw [hfirst] at hrun; cases hrun
    | some r =>
      obtain ⟨status, k⟩ := r
      rw [hfirst] at hrun
      obtain ⟨rest, hrest, rfl⟩ := Option.map_eq_some_iff.mp hrun
      obtain ⟨k', hfirst', hk⟩ := run_matched hn hst hm hfirst
      obtain ⟨rest', hrest', hsame⟩ := ih hk hrest
      refine ⟨(status, k') :: rest', ?_, .cons hk.result hsame⟩
      rw [Machine.runAll, hfirst']
      simp only [hrest', Option.map_some]

theorem SameButNumber.symm {l l' : String} (h : SameButNumber l l') : SameButNumber l' l := by
  obtain ⟨hl, hl', n, n', text, hn, hn'⟩ := h
  exact ⟨hl', hl, n', n, text, hn', hn⟩

theorem SameDiagnostics.symm {d d' : Sink} (h : SameDiagnostics d d') : SameDiagnostics d' d := by
  obtain ⟨ls, ls', hls, hd, hd'⟩ := h
  exact ⟨ls', ls, hls.flip.imp fun _ _ => SameButNumber.symm, hd', hd⟩

theorem SameResult.symm {r r' : Status × Machine} (h : SameResult r r') : SameResult r' r :=
  ⟨h.status.symm, h.out.symm, h.diagnostics.symm⟩

theorem fresh_sameRun : SameRun (.fresh none none) (.fresh none none) :=
  Machine.fresh_alike _ ⟨[], [], .nil, rfl, rfl⟩

/-- **Reformatting changes no behaviour.** Of two sequences of sources with the
same words, one ends exactly if the other does. Then run by run the statuses
are the same, the output is the same to the byte, and the diagnostics have the
same lines but for the line numbers at their fronts. -/
theorem reformatted_run_alike {ss ts : List String} (h : List.Forall₂ Reformatted ss ts) :
    ((∃ ends, RunTo ss ends) ↔ ∃ ends', RunTo ts ends') ∧
      ∀ ends ends', RunTo ss ends → RunTo ts ends' → List.Forall₂ SameResult ends ends' := by
  have hflip : List.Forall₂ Reformatted ts ss := h.flip.imp fun _ _ hst => hst.symm
  refine ends_alike (fun hn hrun => runAll_matched hn h fresh_sameRun hrun) (fun hn hrun => ?_)
  obtain ⟨ends, hrun', hsame⟩ := runAll_matched hn hflip fresh_sameRun hrun
  exact ⟨ends, hrun', hsame.flip.imp fun _ _ hr => hr.symm⟩

/-- Two runs on one machine, the second with a fault, and the same words with
other blanks, newlines and a comment. -/
theorem reformatted_run_alike_fault :
    let ss := ["misal x = benar; cetak x;", "cetak y;"]
    let ts := ["misal x=benar;\n\tcetak x;", "// y\n\ncetak\ny ;"]
    List.Forall₂ Reformatted ss ts ∧ ∃ ends ends', RunTo ss ends ∧
      ends.map (·.1) = [.completed, .runtimeError] ∧
      RunTo ts ends' ∧ List.Forall₂ SameResult ends ends' := by
  intro ss ts
  have h : List.Forall₂ Reformatted ss ts :=
    .cons (.of_wordPieces (by decide +kernel) (by decide +kernel) (by decide +kernel))
      (.cons (.of_wordPieces (by decide +kernel) (by decide +kernel) (by decide +kernel)) .nil)
  have hstatuses : ((Machine.fresh none none).runAll 1 ss).map (List.map Prod.fst) =
      some [.completed, .runtimeError] := by decide +kernel
  obtain ⟨ends, hrun, hends⟩ := Option.map_eq_some_iff.mp hstatuses
  have hleft : RunTo ss ends := ⟨1, hrun⟩
  obtain ⟨hiff, hsame⟩ := reformatted_run_alike h
  obtain ⟨ends', hright⟩ := hiff.mp ⟨ends, hleft⟩
  exact ⟨h, ends, ends', hleft, hends, hright, hsame ends ends' hleft hright⟩

end Naskah
