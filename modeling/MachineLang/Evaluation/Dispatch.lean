import MachineLang.Tree.Node

/-!
# Handlers by node kind

A `HandlerTable` assigns handlers to the kinds of nodes. A handler is registered for one kind or for
any; the latest one for the kind of a node is in charge of it, and without one the latest one for
any kind.
-/

namespace MachineLang

/-- What a handler is registered for. -/
inductive HandlerTarget
  /-- Nodes of one kind. -/
  | kind (kind : NodeKind)
  /-- Nodes of all kinds without a handler of their own. -/
  | any
deriving DecidableEq, Repr

/-- Why a node cannot be handled. -/
inductive DispatchError
  /-- There is no handler for nodes of this kind. -/
  | unhandled (kind : NodeKind)
  /-- A handler for one kind of nodes was given a node of another. -/
  | mismatch (expected found : NodeKind)
deriving DecidableEq, Repr

/-- The error in words, by the tags of the kinds of node that it is about. -/
def DispatchError.message : DispatchError → String
  | unhandled kind => "No handler registered for " ++ kind.tag ++ " nodes"
  | mismatch expected found =>
    "Handler for " ++ expected.tag ++ " nodes received a " ++ found.tag ++ " node"

/-- Handlers and what they are registered for, the latest first. -/
structure HandlerTable (α : Type) where
  /-- The handlers. -/
  registered : List (HandlerTarget × α)

namespace HandlerTable

variable {α : Type}

/-- The table of some handlers, given in the order of their registration. -/
def ofList (handlers : List (HandlerTarget × α)) : HandlerTable α := ⟨handlers.reverse⟩

/-- Registers a handler, which takes precedence over those that are there. -/
def register (table : HandlerTable α) (target : HandlerTarget) (handler : α) : HandlerTable α :=
  ⟨(target, handler) :: table.registered⟩

/-- The latest handler for a target, since a later registration replaces an earlier one. -/
def latest? (table : HandlerTable α) (target : HandlerTarget) : Option α :=
  table.registered.lookup target

/-- The handler in charge of the nodes of a kind. -/
def resolve (table : HandlerTable α) (kind : NodeKind) : Except DispatchError α :=
  match table.latest? (.kind kind) <|> table.latest? .any with
  | some handler => .ok handler
  | none => .error (.unhandled kind)

end HandlerTable

end MachineLang
