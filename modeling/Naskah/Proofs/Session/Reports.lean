import Naskah.Proofs.Alike.Parser
import Naskah.Proofs.Session.Diagnostics
import Naskah.Proofs.Session.Faults

/-!
# What a run reports

The status of a run tells what it has written to the diagnostics: one line for
each syntax error, one line for a fault, or nothing. With syntax errors nothing
else is done; without any, the output may have grown.
-/

namespace Naskah

/-- The syntax errors of a source: the pieces that are no token before the tokens out of place. -/
def syntaxErrors (source : String) : List SyntaxError :=
  (tokenize source).errors ++ (parse (tokenize source).tokens).errors

theorem syntaxErrors_eq_nil {source : String} : syntaxErrors source = [] ↔ Clean source := by
  rw [syntaxErrors, List.append_eq_nil_iff]
  exact ⟨fun h => ⟨h.1, h.2⟩, fun h => ⟨h.words, h.tree⟩⟩

/-! ## Every message is one line -/

theorem Piece.inline_error {p : Piece} {cs : List Char} {line : Nat} {e : SyntaxError}
    (hp : p ∈ Piece.split cs) (he : p.error? line = some e) : Inline e.message := by
  have hpiece := Piece.inline_of_mem_splitFrom hp
  unfold Piece.error? at he
  split at he
  · cases he
    simp only [SyntaxError.message, inline_append, and_assoc]
    exact ⟨inline_ofList (by decide), inline_nat line, inline_ofList (by decide)⟩
  · rename_i c rest hshape htext
    cases he
    -- a stray piece is no newline, so its character is none
    have hc : '\n' ∉ [c] := by
      rcases hpiece with rfl | ⟨-, hinline⟩
      · cases hshape
      · rw [htext] at hinline
        exact fun hmem => hinline (List.mem_cons.mpr (.inl (List.mem_singleton.mp hmem)))
    simp only [SyntaxError.message, inline_append, and_assoc]
    exact ⟨inline_ofList (by decide), inline_nat line, inline_ofList (by decide), inline_ofList hc,
      inline_ofList (by decide)⟩
  · cases he

theorem tokenize_errors_inline {source : String} :
    ∀ e ∈ (tokenize source).errors, Inline e.message := by
  intro e he
  rw [tokenize_errors, Piece.errorsFrom, List.mem_filterMap] at he
  obtain ⟨⟨line, p⟩, hp, herror⟩ := he
  exact Piece.inline_error (Piece.mem_of_mem_numbered hp) herror

theorem tokenize_sameWord {source : String} {t : Token} (ht : t ∈ (tokenize source).tokens) :
    SameWord t t :=
  ⟨rfl, rfl, tokenize_inline t ht⟩

theorem parse_errors_inline {source : String} :
    ∀ e ∈ (parse (tokenize source).tokens).errors, Inline e.message := by
  have htokens : TokensAlike SameWord (tokenize source).tokens (tokenize source).tokens :=
    ⟨List.forall₂_same.mpr fun _ => tokenize_sameWord, tokenize_ended source⟩
  have herrors := List.forall₂_same.mp (parse_alike sameWord_ofWords.ofKinds htokens).2
  exact fun e he => (herrors e he).message.1

theorem syntaxErrors_inline {source : String} : ∀ e ∈ syntaxErrors source, Inline e.message :=
  List.forall_mem_append.mpr ⟨tokenize_errors_inline, parse_errors_inline⟩

theorem Fault.Fits.inline_message {sources : List String} {f : Fault}
    (h : f.Fits (Occurs sources)) : Inline f.message := by
  obtain ⟨⟨s, -, -, ht⟩, -, hknown⟩ := h
  have halike : f.Alike SameWord f := ⟨tokenize_sameWord ht, rfl, hknown⟩
  exact halike.message.1

/-! ## Writing without a limit -/

def Machine.noting (m : Machine) (lines : List String) : Machine :=
  { m with diagnostics := ⟨m.diagnostics.written ++ linesText lines, none⟩ }

theorem linesText_cons (l : String) (ls : List String) :
    linesText (l :: ls) = (l ++ "\n").toUTF8 ++ linesText ls := by
  simp [linesText]

theorem linesText_append (ls ls' : List String) :
    linesText (ls ++ ls') = linesText ls ++ linesText ls' := by
  simp [linesText]

theorem foldl_writeLine_unlimited (es : List SyntaxError) (w : ByteArray) :
    es.foldl (fun d e => (d.writeLine e.message).1) (⟨w, none⟩ : Sink) =
      ⟨w ++ linesText (es.map (·.message)), none⟩ := by
  induction es generalizing w with
  | nil => simp [linesText]
  | cons e es ih =>
    rw [List.foldl_cons, Sink.writeLine_unlimited, ih, List.map_cons, linesText_cons,
      ByteArray.append_assoc]

theorem Sink.writeLines_unlimited (ls : List String) (w : ByteArray) :
    (⟨w, none⟩ : Sink).writeLines ls = (⟨w ++ linesText ls, none⟩, true) := by
  induction ls generalizing w with
  | nil => simp [Sink.writeLines, linesText]
  | cons l ls ih =>
    rw [Sink.writeLines, Sink.writeLine_unlimited, linesText_cons, ← ByteArray.append_assoc]
    exact ih _

theorem Machine.reportSyntax_unlimited {m : Machine} (h : m.diagnostics.limit = none)
    (stray wrong : List SyntaxError) :
    m.reportSyntax stray wrong = m.noting ((stray ++ wrong).map (·.message)) := by
  obtain ⟨store, out, ⟨w, limit⟩, depth, made⟩ := m
  cases h
  simp only [Machine.reportSyntax, Machine.noting, foldl_writeLine_unlimited,
    Sink.writeLines_unlimited, List.map_append, linesText_append, ByteArray.append_assoc]

theorem Machine.reportFault_unlimited {m : Machine} (h : m.diagnostics.limit = none) (f : Fault) :
    m.reportFault f = m.noting [f.message] := by
  obtain ⟨store, out, ⟨w, limit⟩, depth, made⟩ := m
  cases h
  simp only [Machine.reportFault, Machine.noting, Sink.writeLine_unlimited, linesText,
    List.map_cons, List.map_nil, String.join_cons, String.join_nil, String.append_empty]

/-! ## Statements print and write no diagnostics -/

def Printed (m m' : Machine) : Prop :=
  m'.diagnostics = m.diagnostics ∧ ∃ text, m'.out.written = m.out.written ++ text

theorem printed_refl (m : Machine) : Printed m m := ⟨rfl, .empty, by simp⟩

theorem printed_travel : Travel Printed where
  refl := printed_refl
  trans := by
    rintro m₁ m₂ m₃ ⟨hd, text, ho⟩ ⟨hd', text', ho'⟩
    exact ⟨hd'.trans hd, text ++ text', by rw [ho', ho, ByteArray.append_assoc]⟩
  child m _ := printed_refl m
  define m _ _ _ := printed_refl m
  make m := printed_refl m
  print _ _ := ⟨rfl, _, rfl⟩
  call h := h

theorem execsWithin_printed (fuel : Nat) (ss : List Stmt) (scope : ScopeId) :
    Eval.Along Printed (Stmt.execsWithin fuel ss scope) :=
  Stmt.execs_along printed_travel (callWithin_along printed_travel fuel) fuel ss scope

/-- On diagnostics without a limit, a source with syntax errors adds their
messages in order and changes nothing else. A source without any only adds to
the output, and adds one line to the diagnostics if it ends in a fault, or none. -/
theorem runs_report {sources : List String} {m : Machine} (h : Reached sources m)
    (hlimit : m.diagnostics.limit = none) (source : String) :
    (∀ e ∈ syntaxErrors source, Inline e.message) ∧
      (syntaxErrors source ≠ [] → ∀ fuel,
        m.run fuel source = some (.syntaxError, m.noting ((syntaxErrors source).map (·.message)))) ∧
      (syntaxErrors source = [] → ∀ fuel status m', m.run fuel source = some (status, m') →
        (∃ text, m'.out.written = m.out.written ++ text) ∧
          (status = .completed ∧ m'.diagnostics = m.diagnostics ∨
            status = .runtimeError ∧ ∃ line, Inline line ∧
              m'.diagnostics = (m.noting [line]).diagnostics)) := by
  refine ⟨syntaxErrors_inline, fun herrors fuel => ?_, fun herrors fuel status m' hrun => ?_⟩
  · rw [m.run_of_not_clean (mt syntaxErrors_eq_nil.mpr herrors),
    Machine.reportSyntax_unlimited hlimit]
    rfl
  · have hprinted := execsWithin_printed fuel (programOf source) Store.globalScope
    cases Machine.run_cases hrun with
    | wrong hwrong => exact absurd (syntaxErrors_eq_nil.mp herrors) hwrong
    | completed _ hexec =>
      obtain ⟨hdiagnostics, hout⟩ := hprinted.done hexec
      exact ⟨hout, .inl ⟨rfl, hdiagnostics⟩⟩
    | @fault f k _ hexec =>
      obtain ⟨hdiagnostics, hout⟩ := hprinted.failed hexec
      have hraises : m.Raises source f (k.reportFault f) := ⟨fuel, k, hexec, rfl, hrun⟩
      refine ⟨hout, .inr ⟨rfl, f.message, (hraises.fits h).inline_message, ?_⟩⟩
      rw [Machine.reportFault_unlimited (hdiagnostics ▸ hlimit), Machine.noting,
        Machine.noting, hdiagnostics]

/-- After a source that makes a function, one with two syntax errors does
nothing but report them, and one that calls the function reports a line. -/
theorem runs_report_after_function :
    let before := "fungsi f()\x7bcetak benar; balikin y;\x7d"
    let wrong := "@ cetak;"
    let failing := "f();"
    ∃ m, Reached [before] m ∧ m.diagnostics.limit = none ∧ (syntaxErrors wrong).length = 2 ∧
      (∀ fuel, m.run fuel wrong =
        some (.syntaxError, m.noting ((syntaxErrors wrong).map (·.message)))) ∧
      syntaxErrors failing = [] ∧
      ∃ m' line, m.run 5 failing = some (.runtimeError, m') ∧ Inline line ∧
        m'.diagnostics = (m.noting [line]).diagnostics := by
  intro before wrong failing
  have hends : ((Machine.fresh none none).run 5 before).bind (fun r =>
      (r.2.run 5 failing).map fun r' => (r.2.diagnostics.limit, r'.1)) =
        some (none, .runtimeError) := by decide +kernel
  obtain ⟨⟨_, m⟩, hrun, hends⟩ := Option.bind_eq_some_iff.mp hends
  obtain ⟨⟨status, m'⟩, hfailing, hend⟩ := Option.map_eq_some_iff.mp hends
  obtain ⟨hlimit, rfl⟩ := Prod.mk.inj hend
  have hm : Reached ([] ++ [before]) m := .run (.fresh none none) hrun
  have hlength : (syntaxErrors wrong).length = 2 := by decide +kernel
  have hclean : syntaxErrors failing = [] := List.isEmpty_iff.mp (by decide +kernel)
  have hwrong := (runs_report hm hlimit wrong).2.1 (List.ne_nil_of_length_eq_add_one hlength)
  obtain ⟨-, ⟨hstatus, -⟩ | ⟨-, line, hline, hdiagnostics⟩⟩ :=
    (runs_report hm hlimit failing).2.2 hclean 5 _ m' hfailing
  · cases hstatus
  · exact ⟨m, hm, hlimit, hlength, hwrong, hclean, m', line, hfailing, hline, hdiagnostics⟩

end Naskah
