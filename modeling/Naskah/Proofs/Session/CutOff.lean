import Naskah.Proofs.Machine.Trace
import Naskah.Proofs.Session.Cut

/-!
# Output with a limit

A run does not look at its output until a line is not taken whole. Up to there
a run with a limit on the output does what it does without one, and the fault
of that line ends it, whatever loops and calls are open. So the limit cuts the
trace of the run behind the print whose line crosses it, and the output at the
limit itself.
-/

namespace Naskah

open Eval

/-! ## Lines of a trace -/

def printedLines (ms : List Moment) : List String := ms.filterMap (·.act.line?)

@[simp] theorem printedLines_append (ms ns : List Moment) :
    printedLines (ms ++ ns) = printedLines ms ++ printedLines ns :=
  List.filterMap_append

def printedBytes (ms : List Moment) : ByteArray := linesText (printedLines ms)

theorem printedBytes_append (ms ns : List Moment) :
    printedBytes (ms ++ ns) = printedBytes ms ++ printedBytes ns := by
  simp [printedBytes, linesText_append]

theorem printedBytes_nil : printedBytes [] = .empty := by
  simp [printedBytes, printedLines, linesText]

theorem printedBytes_print (t : Token) (v : Value) (k : Machine) :
    printedBytes [⟨.print t v, k⟩] = (v.shown ++ "\n").toUTF8 := by
  simp [printedBytes, printedLines, Act.line?, linesText]

theorem printedBytes_cons {x : Moment} (h : x.act.line? = none) (ms : List Moment) :
    printedBytes (x :: ms) = printedBytes ms := by
  simp [printedBytes, printedLines, h]

/-! ## Machines with a limit -/

def Machine.limited (limit : Nat) (m : Machine) : Machine := m.withOut ⟨m.out.written, some limit⟩

def Outcome.limited {α : Type} (limit : Nat) : Outcome α → Outcome α
  | .done a m => .done a (m.limited limit)
  | .failed f m => .failed f (m.limited limit)
  | @Outcome.unfinished _ m => @Outcome.unfinished _ (m.limited limit)

def Moment.limited (limit : Nat) (x : Moment) : Moment := ⟨x.act, x.machine.limited limit⟩

/-- The machine at a print whose line is not taken whole, with so many calls open. -/
def Machine.cutOff (limit depth : Nat) (v : Value) (k : Machine) : Machine :=
  { k with
    out := ⟨(k.out.written ++ (v.shown ++ "\n").toUTF8).extract 0 limit, some limit⟩
    callDepth := depth }

/-- The print in a trace from `m` whose line crosses the limit, and the moments before it. -/
structure Crosses (limit : Nat) (m : Machine) (ms before : List Moment) (t : Token) (v : Value)
    (k : Machine) : Prop where
  moments : ∃ after, ms = before ++ ⟨.print t v, k⟩ :: after
  out : k.out = ⟨m.out.written ++ printedBytes before, none⟩
  below : k.out.written.size ≤ limit
  above : limit < (k.out.written ++ (v.shown ++ "\n").toUTF8).size

/-- What a limit makes of an end `o` with the trace `ms`: the same end, or the fault of a print. -/
def CutAt {α : Type} (limit : Nat) (m : Machine) (o : Outcome α) (ms : List Moment) (o' : Outcome α)
    (ms' : List Moment) : Prop :=
  (o.machine.out.written.size ≤ limit ∧ o' = o.limited limit ∧
    ms' = ms.map (Moment.limited limit)) ∨ ∃ before t v k, Crosses limit m ms before t v k ∧
      o' = .failed ⟨t, .output Sink.closedReason⟩ (k.cutOff limit m.callDepth v) ∧
      ms' = List.map (Moment.limited limit) (before ++ [⟨.print t v, k⟩])

structure Eval.Cuts {α : Type} (e : Eval α) (T : Trace) : Prop where
  out : ∀ m : Machine, m.out.limit = none →
    (e m).machine.out = ⟨m.out.written ++ printedBytes (T m), none⟩
  depth : ∀ {m k : Machine} {a : α}, e m = .done a k → k.callDepth = m.callDepth
  cut : ∀ limit m, m.out.limit = none → m.out.written.size ≤ limit →
    CutAt limit m (e m) (T m) (e (m.limited limit)) (T (m.limited limit))

variable {α β : Type}

theorem Eval.Quiet.cuts {e : Eval α} (h : e.Quiet) : e.Cuts Trace.nothing where
  out m hm := by
    rw [h.out m]
    obtain ⟨store, ⟨w, limit⟩, diagnostics, depth, made⟩ := m
    obtain rfl : limit = none := hm
    simp [Trace.nothing, printedBytes_nil]
  depth {m a k} hend := by
    have hm := h.depth m
    rw [hend] at hm
    exact hm
  cut limit m hm hsize := by
    have hout := h.out m
    refine .inl ⟨by rw [hout]; exact hsize, ?_, rfl⟩
    rw [Machine.limited, h.blind, ← hout]
    cases e m <;> rfl

theorem Eval.Cuts.note {e : Eval α} {T : Trace} (h : e.Cuts T) {act : Act}
    (hact : act.line? = none) : e.Cuts (Trace.note act T) where
  out m hm := by
    rw [h.out m hm, Trace.note, printedBytes_cons hact]
  depth := h.depth
  cut limit m hm hsize := by
    rcases h.cut limit m hm hsize with ⟨hfit, ho, hms⟩ | ⟨before, t, v, k, hcross, ho, hms⟩
    · refine .inl ⟨hfit, ho, ?_⟩
      rw [Trace.note, Trace.note, hms]
      rfl
    · obtain ⟨after, hmoments⟩ := hcross.moments
      refine .inr
        ⟨⟨act, m⟩ :: before, t, v, k, ⟨⟨after, ?_⟩, ?_, hcross.below, hcross.above⟩, ho, ?_⟩
      · rw [Trace.note, hmoments]
        rfl
      · rw [printedBytes_cons hact]
        exact hcross.out
      · rw [Trace.note, hms]
        rfl

theorem Eval.Cuts.bind {e : Eval α} {f : α → Eval β} {T : Trace} {U : α → Trace} (he : e.Cuts T)
    (hf : ∀ {m k a}, e m = .done a k → (f a).Cuts (U a)) : (e >>= f).Cuts (Trace.seq e T U) where
  out m hm := by
    have hout := he.out m hm
    cases hend : e m with
    | done a k =>
      rw [hend] at hout
      have hk : k.out = _ := hout
      rw [Eval.bind_of_done hend, Trace.seq_of_done hend, (hf hend).out k (by rw [hk]), hk,
        printedBytes_append, ByteArray.append_assoc]
    | failed g k =>
      rw [Eval.bind_of_failed hend, Trace.seq_of_failed hend]
      rw [hend] at hout
      exact hout
    | unfinished =>
      rw [Eval.bind_of_unfinished hend, Trace.seq_of_unfinished hend]
      rw [hend] at hout
      exact hout
  depth {m k b} h := by
    cases hend : e m with
    | done a k' =>
      rw [Eval.bind_of_done hend] at h
      rw [(hf hend).depth h, he.depth hend]
    | failed g k' => rw [Eval.bind_of_failed hend] at h; cases h
    | unfinished => rw [Eval.bind_of_unfinished hend] at h; cases h
  cut limit m hm hsize := by
    rcases he.cut limit m hm hsize with ⟨hfit, ho, hms⟩ | ⟨before, t, v, k, hcross, ho, hms⟩
    · cases hend : e m with
      | done a k =>
        have hout := he.out m hm
        rw [hend] at hout hfit ho
        have hk : k.out = _ := hout
        rw [Eval.bind_of_done hend, Eval.bind_of_done ho, Trace.seq_of_done hend,
          Trace.seq_of_done ho]
        -- `e` has fitted, so the limit may cut only what follows it
        rcases (hf hend).cut limit k (by rw [hk]) hfit with
          ⟨hfit', ho', hms'⟩ | ⟨before, t, v, k', hcross, ho', hms'⟩
        · exact .inl ⟨hfit', ho', by rw [hms, hms', List.map_append]⟩
        · obtain ⟨after, hmoments⟩ := hcross.moments
          refine .inr
            ⟨T m ++ before, t, v, k', ⟨⟨after, ?_⟩, ?_, hcross.below, hcross.above⟩, ?_, ?_⟩
          · rw [hmoments, List.append_assoc]
          · rw [hcross.out, hk, printedBytes_append, ByteArray.append_assoc]
          · rw [ho', he.depth hend]
          · rw [hms, hms', ← List.map_append, List.append_assoc]
      | failed g k =>
        rw [hend] at hfit ho
        rw [Eval.bind_of_failed hend, Eval.bind_of_failed ho, Trace.seq_of_failed hend,
          Trace.seq_of_failed ho]
        exact .inl ⟨hfit, rfl, hms⟩
      | unfinished =>
        rw [hend] at hfit ho
        rw [Eval.bind_of_unfinished hend, Eval.bind_of_unfinished ho, Trace.seq_of_unfinished hend,
          Trace.seq_of_unfinished ho]
        exact .inl ⟨hfit, rfl, hms⟩
    · obtain ⟨after, hmoments⟩ := hcross.moments
      refine .inr ⟨before, t, v, k, ⟨?_, hcross.out, hcross.below, hcross.above⟩,
        Eval.bind_of_failed ho, ?_⟩
      · rw [Trace.seq, hmoments]
        exact ⟨_, List.append_assoc _ _ _⟩
      · rw [Trace.seq_of_failed ho, hms]

/-! ## Printing a line -/

theorem Sink.cut_of_le {limit : Nat} {w : ByteArray} (h : w.size ≤ limit) :
    (⟨w, none⟩ : Sink).cut limit = ⟨w, some limit⟩ := by
  rw [Sink.cut, ← extract_zero_min, Nat.min_eq_left h, ByteArray.extract_zero_size]

theorem Sink.writeLine_limited {limit : Nat} {w : ByteArray} (h : w.size ≤ limit) (l : String) :
    (⟨w, some limit⟩ : Sink).writeLine l =
      ((⟨w ++ (l ++ "\n").toUTF8, none⟩ : Sink).cut limit,
        decide ((w ++ (l ++ "\n").toUTF8).size ≤ limit)) := by
  refine Prod.ext ?_ ?_
  · rw [← Sink.cut_of_le h]
    exact Sink.writeLine_cut w l
  · simp only [Sink.writeLine, Sink.write, Sink.room, ByteArray.size_append]
    congr 1
    apply propext
    omega

theorem printLine_cuts (t : Token) (v : Value) :
    (printLine t v.shown).Cuts (Trace.note (.print t v) Trace.nothing) where
  out m hm := by
    obtain ⟨store, ⟨w, _⟩, diagnostics, depth, made⟩ := m
    cases hm
    simp only [printLine, Sink.writeLine_unlimited, Trace.note, Trace.nothing, printedBytes_print]
    rfl
  depth {m k _} h := by
    simp only [printLine] at h
    split at h <;> cases h
    rfl
  cut limit m hm hsize := by
    obtain ⟨store, ⟨w, _⟩, diagnostics, depth, made⟩ := m
    cases hm
    simp only [printLine, Machine.limited, Machine.withOut, Sink.writeLine_unlimited,
      Sink.writeLine_limited hsize]
    by_cases hfits : (w ++ (v.shown ++ "\n").toUTF8).size ≤ limit
    · refine .inl ⟨hfits, ?_, rfl⟩
      rw [decide_eq_true hfits, Sink.cut_of_le hfits]
      rfl
    · refine .inr ⟨[], t, v, _, ⟨⟨[], rfl⟩, ?_, hsize, Nat.lt_of_not_le hfits⟩, ?_, rfl⟩
      · simp [printedBytes_nil]
      · rw [decide_eq_false hfits]
        rfl

theorem Eval.Cuts.duringCall {e : Eval Value} {T : Trace} (h : e.Cuts T) :
    (Eval.duringCall e).Cuts fun m => T { m with callDepth := m.callDepth + 1 } where
  out m hm := by
    rw [← h.out { m with callDepth := m.callDepth + 1 } hm]
    unfold Eval.duringCall
    cases e { m with callDepth := m.callDepth + 1 } <;> rfl
  depth {m k v} hend := by
    unfold Eval.duringCall at hend
    cases hcall : e { m with callDepth := m.callDepth + 1 } with
    | done w k' =>
      rw [hcall] at hend
      cases hend
      exact congrArg (· - 1) (h.depth hcall)
    | failed => rw [hcall] at hend; cases hend
    | unfinished => rw [hcall] at hend; cases hend
  cut limit m hm hsize := by
    rcases h.cut limit { m with callDepth := m.callDepth + 1 } hm hsize with
      ⟨hfit, ho, hms⟩ | ⟨before, t, v, k, hcross, ho, hms⟩
    · refine .inl ⟨?_, ?_, hms⟩
      · unfold Eval.duringCall
        cases hend : e { m with callDepth := m.callDepth + 1 } <;> (rw [hend] at hfit; exact hfit)
      · simp only [Machine.limited, Machine.withOut] at ho
        simp only [Eval.duringCall, Machine.limited, Machine.withOut, ho]
        cases e { m with callDepth := m.callDepth + 1 } <;> rfl
    · refine .inr
        ⟨before, t, v, k, ⟨hcross.moments, hcross.out, hcross.below, hcross.above⟩, ?_, hms⟩
      -- the fault leaves the body with one call more open, which the end of the call closes
      simp only [Machine.limited, Machine.withOut] at ho
      simp only [Eval.duringCall, Machine.limited, Machine.withOut, ho]
      rfl

theorem blindness_cuts : blindness.Telling fun _ _ P e T => Blind P e ∧ e.Cuts T where
  quiet he hquiet := ⟨he, hquiet.cuts⟩
  bind he hf :=
    ⟨he.1.bind fun a ha => (hf a ha).1, he.2.bind fun hend => (hf _ (he.1.value hend)).2⟩
  note _ hline _ he := ⟨he.1, he.2.note hline⟩
  print {_ t v} _ he := ⟨he, printLine_cuts t v⟩
  duringCall he := ⟨he.1.duringCall, he.2.duringCall⟩

theorem execsWithin_cuts (fuel : Nat) (ss : List Stmt) (scope : ScopeId) :
    (Stmt.execsWithin fuel ss scope).Cuts (Stmt.tracesWithin fuel ss scope) :=
  (Stmt.execsWithin_told (d := 0) blindness_laws blindness_cuts (fun _ _ => trivial) fuel scope).2

/-! ## Runs -/

def Machine.trace (fuel : Nat) (source : String) (m : Machine) : List Moment :=
  Stmt.tracesWithin fuel (programOf source) Store.globalScope m

def Outcome.report : Outcome Flow → Option (Status × Machine)
  | .done _ m => some (.completed, m)
  | .failed f m => some (.runtimeError, m.reportFault f)
  | .unfinished => none

theorem Machine.run_eq_report {source : String} (h : Clean source) (m : Machine) (fuel : Nat) :
    m.run fuel source = (Stmt.execsWithin fuel (programOf source) Store.globalScope m).report := by
  rw [m.run_of_clean h.words h.tree, ← statementsOf, ← programOf_clean h, Machine.interpret]
  cases Stmt.execsWithin fuel (programOf source) Store.globalScope m <;> rfl

theorem Machine.trace_of_not_clean {source : String} (h : ¬ Clean source) (m : Machine)
    (fuel : Nat) : m.trace fuel source = [] := by
  rw [Machine.trace, programOf_not_clean h]
  rfl

theorem Outcome.report_machine {o : Outcome Flow} {status : Status} {m : Machine}
    (h : o.report = some (status, m)) : m.out = o.machine.out := by
  cases o <;> cases h <;> rfl

theorem Outcome.report_limited {o : Outcome Flow} {status : Status} {m : Machine} (limit : Nat)
    (h : o.report = some (status, m)) :
    (o.limited limit).report = some (status, m.limited limit) := by
  cases o <;> cases h <;> rfl

theorem Machine.run_written {m m' : Machine} {fuel : Nat} {source : String} {status : Status}
    (hm : m.out.limit = none) (hrun : m.run fuel source = some (status, m')) :
    m'.out = ⟨m.out.written ++ printedBytes (m.trace fuel source), none⟩ := by
  by_cases hclean : Clean source
  · rw [Machine.run_eq_report hclean] at hrun
    rw [Outcome.report_machine hrun]
    exact (execsWithin_cuts fuel (programOf source) Store.globalScope).out m hm
  · rw [Machine.run_of_not_clean _ hclean] at hrun
    cases hrun
    rw [Machine.trace_of_not_clean hclean, printedBytes_nil, ByteArray.append_empty, ← hm]
    rfl

section
variable {m k : Machine} {ms before : List Moment} {t : Token} {v : Value} {L : Nat}

theorem Crosses.line {limit : Nat} (h : Crosses limit m ms before t v k) :
    k.out.written ++ (v.shown ++ "\n").toUTF8 = m.out.written ++
      printedBytes (before ++ [⟨.print t v, k⟩]) := by
  rw [h.out, printedBytes_append, printedBytes_print, ByteArray.append_assoc]

theorem Crosses.fits_before (h : Crosses (m.out.written.size + L) m ms before t v k) :
    (printedBytes before).size ≤ L := by
  have hbelow := h.below
  rw [h.out, ByteArray.size_append] at hbelow
  omega

theorem Crosses.not_fits (h : Crosses (m.out.written.size + L) m ms before t v k) :
    L < (printedBytes (before ++ [⟨.print t v, k⟩])).size := by
  have habove := h.above
  rw [h.line, ByteArray.size_append] at habove
  omega

theorem Crosses.lt_size (h : Crosses (m.out.written.size + L) m ms before t v k) :
    L < (printedBytes ms).size := by
  have hlong := h.not_fits
  obtain ⟨after, rfl⟩ := h.moments
  rw [List.append_cons, printedBytes_append, ByteArray.size_append]
  omega

theorem Crosses.extract_line (h : Crosses (m.out.written.size + L) m ms before t v k) :
    (k.out.written ++ (v.shown ++ "\n").toUTF8).extract 0 (m.out.written.size + L) =
      m.out.written ++ (printedBytes ms).extract 0 L := by
  have hlong := h.not_fits
  rw [h.line]
  obtain ⟨after, rfl⟩ := h.moments
  rw [List.append_cons before _ after]
  generalize before ++ [⟨.print t v, k⟩] = upTo at hlong ⊢
  have hwritten : m.out.written.extract 0 (m.out.written.size + L) = m.out.written :=
    congrArg Sink.written (Sink.cut_of_le (Nat.le_add_right _ L))
  rw [printedBytes_append, extract_zero_append, extract_zero_append, hwritten,
    Nat.add_sub_cancel_left,
    Nat.sub_eq_zero_of_le hlong.le, ByteArray.extract_same, ByteArray.append_empty]

/-- The fault of a print ends the run, with its line in the diagnostics. -/
theorem Machine.run_cutOff {source : String} (hclean : Clean source) {fuel limit : Nat}
    (hend : Stmt.execsWithin fuel (programOf source) Store.globalScope (m.limited limit) =
      .failed ⟨t, .output Sink.closedReason⟩ (k.cutOff limit m.callDepth v)) :
    (m.limited limit).run fuel source = some (.runtimeError, { k with
      out := ⟨(k.out.written ++ (v.shown ++ "\n").toUTF8).extract 0 limit, some limit⟩
      diagnostics := (m.diagnostics.writeLine (⟨t, .output Sink.closedReason⟩ : Fault).message).1
      callDepth := m.callDepth }) := by
  have hdiagnostics : k.diagnostics = m.diagnostics :=
    ((execsWithin_printed fuel (programOf source) Store.globalScope).failed hend).1
  rw [Machine.run_eq_report hclean, hend, Outcome.report, Machine.reportFault,
    Machine.cutOff, hdiagnostics]

theorem Reached.output_fault {sources : List String} (h : Reached sources m)
    {source reason : String} {fuel limit : Nat}
    (hend : Stmt.execsWithin fuel (programOf source) Store.globalScope (m.limited limit) =
      .failed ⟨t, .output reason⟩ k) : Occurs (sources ++ [source]) t ∧
      t.kind = .keyword .cetak := by
  have hfault := h.execs_fits (show (m.limited limit).store = m.store from rfl) source fuel
  rw [hend] at hfault
  exact ⟨hfault.2.token, hfault.2.suits⟩

end

/-- The run whose output has room for `L` more bytes, next to the run whose
output has no limit. If the bytes that the run prints fit, both come to the same.
If not, there is a print whose line does not fit behind those before it. The run
with the limit does what the other does up to it, and nothing else. It fails at
the keyword of the print, with the first `L` bytes printed. -/
theorem limited_output_stops_run {m m' : Machine} {fuel : Nat} {source : String} {status : Status}
    (hm : m.out.limit = none) (hrun : m.run fuel source = some (status, m')) (L : Nat) :
    let limit := m.out.written.size + L
    let printed := printedBytes (m.trace fuel source)
    m'.out = ⟨m.out.written ++ printed, none⟩ ∧
      (printed.size ≤ L →
        (m.limited limit).run fuel source = some (status, m'.limited limit) ∧
          (m.limited limit).trace fuel source = (m.trace fuel source).map (Moment.limited limit)) ∧
      (L < printed.size → ∃ before t v k after,
        m.trace fuel source = before ++ ⟨.print t v, k⟩ :: after ∧
          (printedBytes before).size ≤ L ∧ L < (printedBytes (before ++ [⟨.print t v, k⟩])).size ∧
          (m.limited limit).trace fuel source =
            List.map (Moment.limited limit) (before ++ [⟨.print t v, k⟩]) ∧
          (m.limited limit).run fuel source = some (.runtimeError, { k with
            out := ⟨m.out.written ++ printed.extract 0 L, some limit⟩
            diagnostics :=
              (m.diagnostics.writeLine (⟨t, .output Sink.closedReason⟩ : Fault).message).1
            callDepth := m.callDepth }) ∧
          ∀ sources, Reached sources m → Occurs (sources ++ [source]) t ∧
            t.kind = .keyword .cetak) := by
  intro limit printed
  have hout := Machine.run_written hm hrun
  have hsize : m'.out.written.size = m.out.written.size + printed.size := by
    rw [hout, ByteArray.size_append]
  refine ⟨hout, ?_⟩
  by_cases hclean : Clean source
  · have hend : _ = some (status, m') := (Machine.run_eq_report hclean m fuel).symm.trans hrun
    rcases (execsWithin_cuts fuel (programOf source) Store.globalScope).cut limit m hm
      (Nat.le_add_right _ L) with
      ⟨hfit, ho, hms⟩ | ⟨before, t, v, k, hcross, ho, hms⟩
    · have hlimited := Machine.run_eq_report hclean (m.limited limit) fuel
      rw [ho, Outcome.report_limited limit hend] at hlimited
      rw [← Outcome.report_machine hend] at hfit
      exact ⟨fun _ => ⟨hlimited, hms⟩, fun hlong => absurd hfit (by omega)⟩
    · obtain ⟨after, hmoments⟩ := hcross.moments
      have hlimited := Machine.run_cutOff hclean ho
      rw [hcross.extract_line] at hlimited
      refine ⟨fun hshort => absurd hcross.lt_size (Nat.not_lt.mpr hshort), fun _ => ?_⟩
      exact ⟨before, t, v, k, after, hmoments, hcross.fits_before, hcross.not_fits, hms, hlimited,
        fun sources h => h.output_fault ho⟩
  · have hnothing : printed.size = 0 := by
      simp [printed, Machine.trace_of_not_clean hclean, printedBytes_nil]
    refine ⟨fun _ => ⟨?_, ?_⟩, fun hlong => absurd hlong (by omega)⟩
    · rw [Machine.run_of_not_clean _ hclean] at hrun ⊢
      cases hrun
      rfl
    · rw [Machine.trace_of_not_clean hclean, Machine.trace_of_not_clean hclean]
      rfl

/-- The second of three lines does not fit. A loop prints it, in a function that is called. -/
theorem limited_output_stops_run_in_call :
    let source :=
      "fungsi f(x)\x7bselama (x)\x7bcetak \"ab\"; cetak \"cd\"; x = salah;\x7d\x7d f(benar); cetak \"e\";"
    ∃ m' k t, (Machine.fresh none none).run 5 source = some (.completed, m') ∧
      m'.out.written = "ab\ncd\ne\n".toUTF8 ∧
      (Machine.fresh (some 4) none).run 5 source = some (.runtimeError, k) ∧
      k.out.written = "ab\nc".toUTF8 ∧
      k.diagnostics.written = ((⟨t, .output Sink.closedReason⟩ : Fault).message ++ "\n").toUTF8 ∧
      t.kind = .keyword .cetak := by
  intro source
  have hends : ((Machine.fresh none none).run 5 source).map (fun r => (r.1, r.2.out.written.data)) =
      some (.completed, "ab\ncd\ne\n".toUTF8.data) := by decide +kernel
  obtain ⟨⟨status, m'⟩, hrun, hend⟩ := Option.map_eq_some_iff.mp hends
  obtain ⟨rfl, hwritten⟩ := Prod.mk.inj hend
  have hout : m'.out.written = "ab\ncd\ne\n".toUTF8 := ByteArray.ext hwritten
  obtain ⟨hprinted, -, hlong⟩ := limited_output_stops_run rfl hrun 4
  have hbytes : printedBytes ((Machine.fresh none none).trace 5 source) = "ab\ncd\ne\n".toUTF8 := by
    rw [← hout, hprinted]
    simp [Machine.fresh, Sink.empty]
  have hfirst : (Machine.fresh none none).out.written ++ "ab\ncd\ne\n".toUTF8.extract 0 4 =
      "ab\nc".toUTF8 :=
    ByteArray.ext (by decide +kernel)
  rw [hbytes, hfirst] at hlong
  obtain ⟨before, t, v, k, after, -, -, -, -, hlimited, hkeyword⟩ := hlong (by decide +kernel)
  refine ⟨m', _, t, hrun, hout, hlimited, rfl, ?_, (hkeyword [] (.fresh none none)).2⟩
  simp [Machine.fresh, Sink.empty, Sink.writeLine_unlimited]

end Naskah
