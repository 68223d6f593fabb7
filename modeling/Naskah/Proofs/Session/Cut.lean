import Naskah.Proofs.Session.Reformat
import Naskah.Proofs.Session.Reports

/-!
# Diagnostics with a limit

No step of a run looks at the diagnostics, and a limit on them only cuts their
bytes. The three ways to report go on differently once a line is not taken, but
by then the sink is full, so that none of them adds a byte.
-/

namespace Naskah

open Eval

/-! ## No step looks at the diagnostics -/

def Machine.withDiagnostics (d : Sink) (m : Machine) : Machine := { m with diagnostics := d }

def Outcome.withDiagnostics {α : Type} (d : Sink) : Outcome α → Outcome α
  | .done a m => .done a (m.withDiagnostics d)
  | .failed f m => .failed f (m.withDiagnostics d)
  | @Outcome.unfinished _ m => @Outcome.unfinished _ (m.withDiagnostics d)

variable {α β : Type} {P : α → Prop} {Q : β → Prop}

structure Eval.Blind (P : α → Prop) (e : Eval α) : Prop where
  same : ∀ d m, e (m.withDiagnostics d) = (e m).withDiagnostics d
  value : ∀ {m a m'}, e m = .done a m' → P a

theorem blind_pure {a : α} (h : P a) : Blind P (pure a) where
  same _ _ := rfl
  value hdone := by
    cases hdone
    exact h

theorem Eval.Blind.bind {e : Eval α} {f : α → Eval β} (he : Blind P e)
    (hf : ∀ a, P a → Blind Q (f a)) : Blind Q (e >>= f) where
  same d m := by
    simp only [Bind.bind, Eval.bind, he.same]
    cases hm : e m with
    | done a k => exact (hf a (he.value hm)).same d k
    | failed => rfl
    | unfinished => rfl
  value {m b m'} h := by
    simp only [Bind.bind, Eval.bind] at h
    cases hm : e m with
    | done a k =>
      rw [hm] at h
      exact (hf a (he.value hm)).value h
    | failed => rw [hm] at h; cases h
    | unfinished => rw [hm] at h; cases h

theorem blind_settle (t : Token) (r : Except Cause α) : Blind (fun _ => True) (settle t r) := by
  cases r with
  | ok a => exact blind_pure trivial
  | error c => exact ⟨fun _ _ => rfl, fun _ => trivial⟩

theorem blind_lookup (scope : ScopeId) (t : Token) : Blind (fun _ => True) (lookup scope t) where
  same d m := by
    simp only [lookup, Machine.withDiagnostics]
    cases m.store.get? scope t.lexeme <;> rfl
  value _ := trivial

theorem blind_printLine (t : Token) (text : String) : Blind (fun _ => True) (printLine t text) where
  same d m := by
    have hout : (m.withDiagnostics d).out = m.out := rfl
    simp only [printLine]
    rw [hout]
    split <;> rfl
  value _ := trivial

theorem blind_requireCall (t : Token) : Blind (fun _ => True) (requireCall t) where
  same d m := by
    obtain ⟨store, out, diagnostics, depth, made⟩ := m
    cases depth <;> rfl
  value _ := trivial

theorem Eval.Blind.duringCall {e : Eval Value} (he : Blind (fun _ => True) e) :
    Blind (fun _ => True) (Eval.duringCall e) where
  same d m := by
    have hsame := he.same d { m with callDepth := m.callDepth + 1 }
    simp only [Machine.withDiagnostics] at hsame
    simp only [Eval.duringCall, Machine.withDiagnostics, hsame]
    cases e { m with callDepth := m.callDepth + 1 } <;> rfl
  value _ := trivial

def blindness : Conduct where
  Ok := fun _ => fun P e => Blind P e
  Holds _ := True
  Reads _ := True
  Does _ _ := True
  Closes _ := True

theorem blindness_laws : blindness.Laws where
  pure h := blind_pure h
  bind he hf := he.bind hf
  unfinished := ⟨fun _ _ => rfl, fun h => by cases h⟩
  child _ _ := ⟨fun _ _ => rfl, fun _ => trivial⟩
  literal _ := trivial
  name _ scope := blind_lookup scope _
  group _ := trivial
  unary _ := ⟨trivial, fun _ _ => blind_settle _ _⟩
  binary _ := ⟨trivial, trivial, fun _ _ _ _ => blind_settle _ _⟩
  logical _ := ⟨trivial, trivial⟩
  arguments _ := ⟨trivial, fun _ _ => trivial, trivial⟩
  expression _ := trivial
  print _ := ⟨trivial, fun _ _ => blind_printLine _ _⟩
  declare _ := ⟨trivial, fun _ _ _ => ⟨fun _ _ => rfl, fun _ => trivial⟩⟩
  assign _ := ⟨trivial, fun _ _ _ => ⟨fun _ _ => rfl, fun _ => trivial⟩⟩
  block _ _ _ := trivial
  branch _ := ⟨trivial, fun _ _ => trivial, fun _ _ => trivial⟩
  loop _ := ⟨trivial, fun _ _ => trivial⟩
  function _ _ :=
    ⟨⟨fun _ _ => rfl, fun _ => trivial⟩, fun _ _ => ⟨fun _ _ => rfl, fun _ => trivial⟩⟩
  giveBack _ := ⟨blind_requireCall _, fun _ _ => trivial⟩
  giveNothing := trivial
  param _ _ _ _ _ _ _ := ⟨fun _ _ => rfl, fun _ => trivial⟩
  body _ _ _ _ := trivial
  duringCall he := he.duringCall
  notCallable _ := blind_settle _ (.error _)
  argumentCount _ _ _ := blind_settle _ (.error _)

theorem execsWithin_withDiagnostics (fuel : Nat) (ss : List Stmt) (scope : ScopeId) (d : Sink)
    (m : Machine) :
    Stmt.execsWithin fuel ss scope (m.withDiagnostics d) =
      (Stmt.execsWithin fuel ss scope m).withDiagnostics d :=
  (Stmt.execsWithin_ok (d := m.callDepth) blindness_laws (fun _ _ => trivial) fuel scope).same d m

/-! ## The bytes that a limit leaves -/

/-- The sink that has been written the same, but for a limit. -/
def Sink.cut (limit : Nat) (s : Sink) : Sink := ⟨s.written.extract 0 limit, some limit⟩

variable {limit : Nat}

theorem extract_zero_append (w b : ByteArray) (limit : Nat) :
    (w ++ b).extract 0 limit = w.extract 0 limit ++ b.extract 0 (limit - w.size) := by
  rw [ByteArray.extract_append, Nat.zero_sub]

theorem extract_zero_min (b : ByteArray) (n : Nat) :
    b.extract 0 (min b.size n) = b.extract 0 n := by
  rw [ByteArray.ext_iff, ByteArray.data_extract, ByteArray.data_extract,
    Array.extract_eq_extract_right, ByteArray.size_data]
  omega

theorem Sink.room_cut (w : ByteArray) (size : Nat) :
    ((⟨w, none⟩ : Sink).cut limit).room size = min size (limit - w.size) := by
  simp only [Sink.cut, Sink.room, ByteArray.size_extract]
  omega

theorem Sink.writeLine_cut (w : ByteArray) (l : String) :
    (((⟨w, none⟩ : Sink).cut limit).writeLine l).1 =
      (⟨w ++ (l ++ "\n").toUTF8, none⟩ : Sink).cut limit := by
  simp only [Sink.writeLine, Sink.write, Sink.room_cut]
  simp only [Sink.cut, extract_zero_min, extract_zero_append]

theorem Sink.full_of_writeLine_cut {w : ByteArray} {l : String}
    (h : (((⟨w, none⟩ : Sink).cut limit).writeLine l).2 = false) :
    limit ≤ (w ++ (l ++ "\n").toUTF8).size := by
  simp only [Sink.writeLine, Sink.write, Sink.room_cut, decide_eq_false_iff_not] at h
  rw [ByteArray.size_append]
  omega

theorem Sink.cut_append_of_full {w : ByteArray} (h : limit ≤ w.size) (b : ByteArray) :
    (⟨w ++ b, none⟩ : Sink).cut limit = (⟨w, none⟩ : Sink).cut limit := by
  rw [Sink.cut, Sink.cut, extract_zero_append, Nat.sub_eq_zero_of_le h, ByteArray.extract_same,
    ByteArray.append_empty]

theorem foldl_writeLine_cut (es : List SyntaxError) (w : ByteArray) :
    es.foldl (fun d e => (d.writeLine e.message).1) ((⟨w, none⟩ : Sink).cut limit) =
      (⟨w ++ linesText (es.map (·.message)), none⟩ : Sink).cut limit := by
  induction es generalizing w with
  | nil => simp [linesText]
  | cons e es ih =>
    rw [List.foldl_cons, Sink.writeLine_cut, ih, List.map_cons, linesText_cons,
      ByteArray.append_assoc]

theorem Sink.writeLines_cut (ls : List String) (w : ByteArray) :
    (((⟨w, none⟩ : Sink).cut limit).writeLines ls).1 =
      (⟨w ++ linesText ls, none⟩ : Sink).cut limit := by
  induction ls generalizing w with
  | nil => simp [Sink.writeLines, linesText]
  | cons l ls ih =>
    have hwritten : (((⟨w, none⟩ : Sink).cut limit).writeLine l).1 = _ := Sink.writeLine_cut w l
    have hfull : (((⟨w, none⟩ : Sink).cut limit).writeLine l).2 = false → _ :=
      Sink.full_of_writeLine_cut
    rw [Sink.writeLines, linesText_cons, ← ByteArray.append_assoc]
    generalize ((⟨w, none⟩ : Sink).cut limit).writeLine l = r at hwritten hfull ⊢
    obtain ⟨s, taken⟩ := r
    cases taken with
    | true =>
      cases hwritten
      exact ih _
    | false =>
      -- the lines that are left out would not have been taken
      rw [Sink.cut_append_of_full (hfull rfl)]
      exact hwritten

/-! ## Runs -/

def Machine.cut (limit : Nat) (m : Machine) : Machine := m.withDiagnostics (m.diagnostics.cut limit)

theorem Machine.reportSyntax_cut {m : Machine} (h : m.diagnostics.limit = none)
    (stray wrong : List SyntaxError) :
    (m.cut limit).reportSyntax stray wrong = (m.reportSyntax stray wrong).cut limit := by
  rw [Machine.reportSyntax_unlimited h]
  obtain ⟨store, out, ⟨w, _⟩, depth, made⟩ := m
  cases h
  simp only [Machine.reportSyntax, Machine.cut, Machine.withDiagnostics, Machine.noting,
    foldl_writeLine_cut,
    Sink.writeLines_cut, List.map_append, linesText_append, ByteArray.append_assoc]

theorem Machine.reportFault_cut {m : Machine} (h : m.diagnostics.limit = none) (f : Fault) :
    (m.cut limit).reportFault f = (m.reportFault f).cut limit := by
  obtain ⟨store, out, ⟨w, _⟩, depth, made⟩ := m
  cases h
  simp only [Machine.reportFault, Machine.cut, Machine.withDiagnostics, Sink.writeLine_cut,
    Sink.writeLine_unlimited]

theorem Machine.run_cut {m : Machine} (h : m.diagnostics.limit = none) (fuel : Nat)
    (source : String) :
    (m.cut limit).run fuel source = (m.run fuel source).map fun r => (r.1, r.2.cut limit) := by
  by_cases hclean : Clean source
  · have hprinted := execsWithin_printed fuel (statementsOf source) Store.globalScope
    rw [Machine.run_of_clean _ hclean.words hclean.tree,
      Machine.run_of_clean _ hclean.words hclean.tree,
      Machine.interpret, Machine.interpret, ← statementsOf, Machine.cut,
        execsWithin_withDiagnostics]
    cases hend : Stmt.execsWithin fuel (statementsOf source) Store.globalScope m with
    | done flow k =>
      rw [← (hprinted.done hend).1]
      rfl
    | failed f k =>
      have hdiagnostics := (hprinted.failed hend).1
      have hreport : (k.cut limit).reportFault f = _ := Machine.reportFault_cut (hdiagnostics ▸ h) f
      rw [← hdiagnostics]
      exact congrArg (fun k => some (Status.runtimeError, k)) hreport
    | unfinished => rfl
  · rw [Machine.run_of_not_clean _ hclean, Machine.run_of_not_clean _ hclean,
      Machine.reportSyntax_cut h]
    rfl

theorem Machine.run_unlimited {m m' : Machine} {fuel : Nat} {source : String} {status : Status}
    (h : m.diagnostics.limit = none) (hrun : m.run fuel source = some (status, m')) :
    m'.diagnostics.limit = none := by
  have hprinted := execsWithin_printed fuel (programOf source) Store.globalScope
  cases Machine.run_cases hrun with
  | wrong => rw [Machine.reportSyntax_unlimited h]; rfl
  | completed _ hexec => exact (hprinted.done hexec).1 ▸ h
  | @fault f k _ hexec => rw [Machine.reportFault_unlimited ((hprinted.failed hexec).1 ▸ h)]; rfl

theorem Machine.runAll_cut {m : Machine} (h : m.diagnostics.limit = none) (fuel : Nat)
    (sources : List String) :
    (m.cut limit).runAll fuel sources =
      (m.runAll fuel sources).map (List.map fun r => (r.1, r.2.cut limit)) := by
  induction sources generalizing m with
  | nil => rfl
  | cons source sources ih =>
    rw [Machine.runAll, Machine.runAll, Machine.run_cut h]
    cases hrun : m.run fuel source with
    | none => rfl
    | some r =>
      simp only [Option.map_some, ih (Machine.run_unlimited h hrun), Option.map_map]
      rfl

/-- A limit on the diagnostics leaves the status, the output and the scopes of
every run in a sequence as they are, and of the diagnostics the bytes up to it. -/
theorem limited_diagnostics_are_cut (outLimit : Option Nat) (limit fuel : Nat)
    (sources : List String) :
    (Machine.fresh outLimit (some limit)).runAll fuel sources =
      ((Machine.fresh outLimit none).runAll fuel sources).map (List.map fun r =>
        (r.1, { r.2 with
          diagnostics := ⟨r.2.diagnostics.written.extract 0 limit, some limit⟩ })) := by
  have hfresh : (Machine.fresh outLimit none).cut limit = Machine.fresh outLimit (some limit) := by
    simp [Machine.cut, Machine.withDiagnostics, Sink.cut, Machine.fresh, Sink.empty]
  rw [← hfresh]
  exact Machine.runAll_cut rfl fuel sources

end Naskah
