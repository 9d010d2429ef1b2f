import MachineLang.Scope.Value

/-!
# Scopes

A scope binds names to values and may have a result. Scopes are nested: a name that a scope does not
declare is looked for in the scopes around it. Every name of a scope is declared once and defined at
most once, in its own scope or in one inside it (`ScopeTree.declare`, `ScopeTree.define`).

The scopes of a program are kept in a `ScopeTree` and go by numbers. Scopes are only ever added, so
a number keeps its meaning; the outermost scope has the number zero.
-/

namespace MachineLang

/-- A declared name, and its value if it is defined. -/
structure Binding where
  /-- The name. -/
  name : String
  /-- The value. -/
  value? : Option Value
deriving DecidableEq, Repr

/-- Why a name cannot be declared, defined or used. -/
inductive BindingError
  /-- The name has a meaning already. -/
  | redefinition (name : String)
  /-- The name is declared and has no value yet. -/
  | usedBeforeDefinition (name : String)
  /-- The name is not declared at all. -/
  | notDeclared (name : String)
deriving DecidableEq, Repr

/-- The error in words, about a name whose place is not known here. -/
def BindingError.message : BindingError → String
  | redefinition name => "Redefinition of name '" ++ name ++ "'"
  | usedBeforeDefinition name => "Name '" ++ name ++ "' used before definition"
  | notDeclared name => "Name '" ++ name ++ "' is not declared"

/-- A scope: the names that were declared in it, in order, and the result of the declaration it
belongs to. -/
structure Scope where
  /-- The scopes around it, the innermost first. -/
  enclosing : List ScopeId
  /-- The names that are declared in it, in the order of their declaration. -/
  bindings : List Binding
  /-- What was declared by the declaration that the scope belongs to. -/
  result? : Option Automaton
deriving DecidableEq, Repr

namespace Scope

/-- The scope around everything, without names and without a result. -/
def outermost : Scope := ⟨[], [], none⟩

instance : Inhabited Scope := ⟨outermost⟩

/-- The names, in the order of their declaration. -/
def names (s : Scope) : List String := s.bindings.map Binding.name

/-- The binding of a name in the scope itself. -/
def binding? (s : Scope) (name : String) : Option Binding :=
  s.bindings.find? fun b => b.name == name

/-- Whether a name is declared in the scope itself. -/
def declares (s : Scope) (name : String) : Bool := (s.binding? name).isSome

/-- The scope with one more name, which has no value yet. -/
def declare (s : Scope) (name : String) : Scope :=
  { s with bindings := s.bindings ++ [⟨name, none⟩] }

/-- The scope with a value for one of its names. -/
def set (s : Scope) (name : String) (value : Value) : Scope :=
  { s with bindings := s.bindings.map fun b => if b.name == name then ⟨name, some value⟩ else b }

end Scope

/-- All scopes of a program, by their numbers. -/
structure ScopeTree where
  /-- The scopes. -/
  scopes : Array Scope
deriving Repr

namespace ScopeTree

/-- The number of the outermost scope. -/
def root : ScopeId := 0

/-- The tree of the outermost scope alone, in which a session begins. -/
def initial : ScopeTree := ⟨#[.outermost]⟩

instance : Inhabited ScopeTree := ⟨initial⟩

/-- A scope by its number; there is an outermost one even for numbers that were not given out. -/
def get (t : ScopeTree) (id : ScopeId) : Scope := t.scopes.getD id .outermost

/-- Changes a scope, if there is one of the number. -/
def modify (t : ScopeTree) (id : ScopeId) (f : Scope → Scope) : ScopeTree :=
  ⟨t.scopes.modify id f⟩

/-- Adds a scope inside another one. The answer is its number. -/
def child (t : ScopeTree) (parent : ScopeId) : ScopeId × ScopeTree :=
  (t.scopes.size, ⟨t.scopes.push ⟨parent :: (t.get parent).enclosing, [], none⟩⟩)

/-- Declares a name without a value, unless the scope declares it already. -/
def declare (t : ScopeTree) (id : ScopeId) (name : String) : Except BindingError ScopeTree :=
  if (t.get id).declares name then .error (.redefinition name)
  else .ok (t.modify id (Scope.declare · name))

/-- The innermost scope around a place in which a name is declared, with its binding. -/
def owner (t : ScopeTree) (id : ScopeId) (name : String) :
    Except BindingError (ScopeId × Binding) :=
  match (id :: (t.get id).enclosing).findSome? fun scope =>
      ((t.get scope).binding? name).map fun b => (scope, b) with
  | some found => .ok found
  | none => .error (.notDeclared name)

/-- Gives a value to a name that has none. -/
def define (t : ScopeTree) (id : ScopeId) (name : String) (value : Value) :
    Except BindingError ScopeTree := do
  let (scope, b) ← t.owner id name
  if b.value?.isSome then .error (.redefinition name)
  else .ok (t.modify scope (Scope.set · name value))

/-- Declares a name with a value at once, unless the scope declares it already. -/
def bind (t : ScopeTree) (id : ScopeId) (name : String) (value : Value) :
    Except BindingError ScopeTree := do
  (← t.declare id name).define id name value

/-- The innermost scope in which a name is declared, with its value. -/
def defined (t : ScopeTree) (id : ScopeId) (name : String) :
    Except BindingError (ScopeId × Value) := do
  let (scope, b) ← t.owner id name
  match b.value? with
  | some value => .ok (scope, value)
  | none => .error (.usedBeforeDefinition name)

/-- The value of a name, from the innermost scope that declares it. -/
def lookup (t : ScopeTree) (id : ScopeId) (name : String) : Except BindingError Value :=
  Prod.snd <$> t.defined id name

/-- Changes the value of a name, in the innermost scope that declares it. -/
def update (t : ScopeTree) (id : ScopeId) (name : String) (f : Value → Value) :
    Except BindingError ScopeTree := do
  let (scope, value) ← t.defined id name
  return t.modify scope (Scope.set · name (f value))

/-- The result of a scope, once its declaration is finished. -/
def result? (t : ScopeTree) (id : ScopeId) : Option Automaton := (t.get id).result?

/-- Gives a scope a result, which ends its declaration. -/
def setResult (t : ScopeTree) (id : ScopeId) (result : Automaton) : ScopeTree :=
  t.modify id fun s => { s with result? := some result }

/-- What the names of a scope declare, in the order of their declaration. -/
def automata (t : ScopeTree) (id : ScopeId) : List (String × Automaton) :=
  (t.get id).bindings.filterMap fun b =>
    match b.value? with
    | some (.declaration scope) => (t.result? scope).map fun a => (b.name, a)
    | _ => none

end ScopeTree

end MachineLang
