import Naskah.Proofs.Scope.Nesting
import Naskah.Proofs.Session.Entries

/-!
# What a run comes to

A run reports syntax errors and does nothing else, or it carries out the
statements of its source: to their end, or to a fault, which it reports.
-/

namespace Naskah

variable {m m' : Machine} {source : String} {fuel : Nat} {status : Status}

theorem clean_iff : Clean source ↔
    ((tokenize source).errors.isEmpty && (parse (tokenize source).tokens).errors.isEmpty) =
      true := by
  rw [Bool.and_eq_true, List.isEmpty_iff, List.isEmpty_iff]
  exact ⟨fun h => ⟨h.words, h.tree⟩, fun h => ⟨h.1, h.2⟩⟩

theorem programOf_clean (h : Clean source) : programOf source = statementsOf source :=
  if_pos (clean_iff.mp h)

theorem programOf_not_clean (h : ¬ Clean source) : programOf source = [] :=
  if_neg fun hclean => h (clean_iff.mpr hclean)

def Machine.reportFault (m : Machine) (f : Fault) : Machine :=
  { m with diagnostics := (m.diagnostics.writeLine f.message).1 }

inductive Machine.RunsTo (m : Machine) (fuel : Nat) (source : String) : Status → Machine → Prop
  | wrong : ¬ Clean source →
      RunsTo m fuel source .syntaxError
        (m.reportSyntax (tokenize source).errors (parse (tokenize source).tokens).errors)
  | completed {flow k} :
      Clean source → Stmt.execsWithin fuel (programOf source) Store.globalScope m = .done flow k →
      RunsTo m fuel source .completed k
  | fault {f k} :
      Clean source → Stmt.execsWithin fuel (programOf source) Store.globalScope m = .failed f k →
      RunsTo m fuel source .runtimeError (k.reportFault f)

theorem Machine.run_of_not_clean (m : Machine) (h : ¬ Clean source) (fuel : Nat) :
    m.run fuel source =
    some (.syntaxError,
      m.reportSyntax (tokenize source).errors (parse (tokenize source).tokens).errors) :=
  if_neg fun hclean => h (clean_iff.mpr hclean)

theorem Machine.run_cases (h : m.run fuel source = some (status, m')) :
    m.RunsTo fuel source status m' := by
  by_cases hclean : Clean source
  · rw [m.run_of_clean hclean.words hclean.tree, ← statementsOf, ← programOf_clean hclean,
      Option.map_eq_some_iff] at h
    obtain ⟨⟨faulty, k⟩, hinterpret, hstatus⟩ := h
    cases hstatus
    unfold Machine.interpret at hinterpret
    cases hexec : Stmt.execsWithin fuel (programOf source) Store.globalScope m with
    | done flow k' =>
      rw [hexec] at hinterpret
      cases hinterpret
      exact .completed hclean hexec
    | failed f k' =>
      rw [hexec] at hinterpret
      cases hinterpret
      exact .fault hclean hexec
    | unfinished =>
      rw [hexec] at hinterpret
      cases hinterpret
  · rw [m.run_of_not_clean hclean] at h
    cases h
    exact .wrong hclean

/-! ## Faults of runs -/

/-- A run that ends in a fault, which it reports. -/
def Machine.Raises (m : Machine) (source : String) (f : Fault) (m' : Machine) : Prop :=
  ∃ fuel k, Stmt.execsWithin fuel (programOf source) Store.globalScope m = .failed f k ∧
    m' = k.reportFault f ∧ m.run fuel source = some (.runtimeError, m')

theorem Machine.raises_of_run (h : m.run fuel source = some (.runtimeError, m')) :
    ∃ f, m.Raises source f m' := by
  cases Machine.run_cases h with
  | fault hclean hexec => exact ⟨_, fuel, _, hexec, rfl, h⟩

def Machine.fault? (m : Machine) (fuel : Nat) (source : String) : Option Fault :=
  match Stmt.execsWithin fuel (programOf source) Store.globalScope m with
  | .failed f _ => some f
  | _ => none

theorem Machine.raises_of_fault? {f : Fault} (h : m.fault? fuel source = some f) :
    ∃ m', m.Raises source f m' := by
  unfold Machine.fault? at h
  cases hexec : Stmt.execsWithin fuel (programOf source) Store.globalScope m with
  | failed g k =>
    rw [hexec] at h
    cases h
    by_cases hclean : Clean source
    · refine ⟨k.reportFault f, fuel, k, hexec, rfl, ?_⟩
      rw [programOf_clean hclean] at hexec
      rw [m.run_of_clean hclean.words hclean.tree, Machine.interpret, hexec]
      rfl
    · rw [programOf_not_clean hclean] at hexec
      cases hexec
  | done => rw [hexec] at h; cases h
  | unfinished => rw [hexec] at h; cases h

end Naskah
