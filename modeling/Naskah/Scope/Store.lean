import Naskah.Value.Basic

/-!
# Scopes

A store holds all scopes ever made. A scope binds names to values and, unless
it is the global one, lies inside an older scope. The chain of a scope is
itself and the scopes around it, the innermost first; a name means what the
first scope on the chain binds it to.
-/

namespace Naskah

/-! ## Bindings -/

abbrev Bindings := List (String × Value)

namespace Bindings

def insert (name : String) (value : Value) : Bindings → Bindings
  | [] => [(name, value)]
  | (n, v) :: bs => if n = name then (n, value) :: bs else (n, v) :: insert name value bs

def get? (bs : Bindings) (name : String) : Option Value :=
  bs.lookup name

def names (bs : Bindings) : List String :=
  bs.map (·.1)

end Bindings

/-! ## The store -/

structure Frame where
  parent : Option ScopeId
  bindings : Bindings

structure Store where
  frames : Array Frame

namespace Store

def initial : Store :=
  ⟨#[⟨none, []⟩]⟩

def globalScope : ScopeId := 0

def child (s : Store) (parent : ScopeId) : ScopeId × Store :=
  (s.frames.size, ⟨s.frames.push ⟨some parent, []⟩⟩)

def parent? (s : Store) (i : ScopeId) : Option ScopeId :=
  s.frames[i]?.bind (·.parent)

def here? (s : Store) (i : ScopeId) (name : String) : Option Value :=
  s.frames[i]?.bind (·.bindings.get? name)

def chainWithin (s : Store) : Nat → ScopeId → List ScopeId
  | 0, _ => []
  | length + 1, i =>
    match s.frames[i]? with
    | none => []
    | some frame =>
      match frame.parent with
      | none => [i]
      | some j => i :: chainWithin s length j

/-- The chain of a scope. Scopes are numbered as they are made, so that of `i`
has no more than `i + 1`. -/
def chain (s : Store) (i : ScopeId) : List ScopeId :=
  s.chainWithin (i + 1) i

def depth (s : Store) (i : ScopeId) : Nat :=
  (s.chain i).tail.length

/-- The scope whose binding of a name is seen from `i`. -/
def binder? (s : Store) (i : ScopeId) (name : String) : Option ScopeId :=
  (s.chain i).find? fun j => (s.here? j name).isSome

def binds (s : Store) (i : ScopeId) (name : String) : Bool :=
  (s.binder? i name).isSome

def get? (s : Store) (i : ScopeId) (name : String) : Option Value :=
  (s.binder? i name).bind fun j => s.here? j name

def define (s : Store) (i : ScopeId) (name : String) (value : Value) : Store :=
  ⟨s.frames.modify i fun frame => { frame with bindings := frame.bindings.insert name value }⟩

def assign? (s : Store) (i : ScopeId) (name : String) (value : Value) : Option Store :=
  (s.binder? i name).map fun j => s.define j name value

/-- Gives a bound name a new value, and binds any other in the scope itself. -/
def assignOrDefine (s : Store) (i : ScopeId) (name : String) (value : Value) : Store :=
  s.define ((s.binder? i name).getD i) name value

end Store

end Naskah
