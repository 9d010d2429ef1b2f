import MachineLang.Proofs.Scopes

/-!
# What evaluators do

The computations that the standard handlers are made of, as equations on sessions. Declarations with
a body, of machines and of grammars, are two instances of one evaluator: it opens a scope with the
names under which the statements of the body collect, and makes the result from what was collected
(`Evaluator.declareBody`).
-/

namespace MachineLang

/-! ## Computations on sessions -/

namespace Evaluator

variable {α β : Type}

/-- A computation and one that goes on with what it gives. -/
theorem bind_apply (x : Evaluator α) (f : α → Evaluator β) (s : Session) :
    (x >>= f) s = match x s with
      | (.ok a, t) => f a t
      | (.error e, t) => (.error e, t) := by
  show ExceptT.bind x f s = _
  unfold ExceptT.bind
  show (match x s with | (a, t) => ExceptT.bindCont f a t) = _
  rcases x s with ⟨_ | a, t⟩
  · rfl
  · rfl

/-- Where both computations succeed, the first one does, and the second one behind it. -/
theorem of_bind_eq_ok {x : Evaluator α} {f : α → Evaluator β} {s t : Session} {b : β}
    (h : (x >>= f) s = (.ok b, t)) : ∃ a u, x s = (.ok a, u) ∧ f a u = (.ok b, t) := by
  rw [bind_apply] at h
  generalize x s = result at *
  obtain ⟨e | a, u⟩ := result
  · cases h
  · exact ⟨a, u, rfl, h⟩

/-- A computation whose value is dropped. -/
theorem discard_apply (x : Evaluator α) (s : Session) :
    (discard x : Evaluator Unit) s = match x s with
      | (.ok _, t) => (.ok (), t)
      | (.error e, t) => (.error e, t) := bind_apply x (fun _ => pure ()) s

/-- A function of what a computation gives. -/
theorem map_apply (f : α → β) (x : Evaluator α) (s : Session) :
    (f <$> x) s = match x s with
      | (.ok a, t) => (.ok (f a), t)
      | (.error e, t) => (.error e, t) := bind_apply x (fun a => pure (f a)) s

/-- A failure that is independent of the session leaves it as it is. -/
theorem ofExcept_apply (x : Except EvaluationError α) (s : Session) : ofExcept x s = (x, s) := by
  cases x with
  | error e => rfl
  | ok a => rfl

/-- Where a computation goes on and succeeds, there is a value that it goes on with, in the same
session. -/
theorem of_ofExcept_bind_eq_ok {x : Except EvaluationError α} {f : α → Evaluator β}
    {s t : Session} {b : β} (h : (ofExcept x >>= f) s = (.ok b, t)) :
    ∃ a, x = .ok a ∧ f a s = (.ok b, t) := by
  obtain ⟨a, u, hx, hf⟩ := of_bind_eq_ok h
  rw [ofExcept_apply] at hx
  obtain ⟨rfl, rfl⟩ := Prod.mk.inj hx
  exact ⟨a, rfl, hf⟩

/-- Changing the scopes: the session keeps everything else, and all of it if the change fails. -/
theorem changeScopes_apply (error : BindingError → EvaluationError)
    (change : ScopeTree → Except BindingError ScopeTree) (s : Session) :
    changeScopes error change s = match change s.scopes with
      | .ok scopes => (.ok (), { s with scopes })
      | .error e => (.error (error e), s) := by
  unfold changeScopes
  rw [bind_apply]
  show (match change s.scopes with
    | .ok scopes => modify fun s => { s with scopes }
    | .error e => throw (error e) : Evaluator Unit) s = _
  cases change s.scopes with
  | error e => rfl
  | ok scopes => rfl

/-- Adding a scope gives it the next number, which is the number of scopes so far. -/
theorem enterScope_apply (parent : ScopeId) (s : Session) :
    enterScope parent s = (.ok s.scopes.size,
      { s with scopes := s.scopes.push ⟨parent :: (s.scopes.get parent).enclosing, [], none⟩ }) :=
        rfl

/-- Giving a declaration its result stores it in the scope of the body, and sets the name in the
scope around it, provided that the name is declared there and has no value yet. -/
theorem finish_apply {outer inner : ScopeId} {name : Identifier} {s : Session}
    (h : (s.scopes.get outer).binding? name.name = some ⟨name.name, none⟩) (hne : outer ≠ inner)
    (result : Automaton) :
    finish outer inner name result s = (.ok (),
      { s with
        scopes := (s.scopes.setResult inner result).modify outer
          (Scope.set · name.name (.declaration inner)) }) := by
  -- Storing the result does not touch the binding: the two scopes are different.
  have hbound : ((s.scopes.setResult inner result).get outer).binding? name.name = some
      ⟨name.name, none⟩ := by
    unfold ScopeTree.setResult
    rw [ScopeTree.get_modify_ne hne]
    exact h
  unfold finish
  rw [bind_apply]
  show changeScopes _ _ { s with scopes := s.scopes.setResult inner result } = _
  rw [changeScopes_apply]
  dsimp only
  rw [ScopeTree.define_eq hbound]

/-- Evaluates statements in turn, and stops at the first one that fails. -/
def statements (visit : Visit) (nodes : List Node) (scope : ScopeId) : Evaluator Unit :=
  nodes.forM fun node => discard (visit node scope)

variable {visit : Visit} {node : Node} {nodes nodes' : List Node} {scope : ScopeId} {s : Session}

/-- A statement and those behind it. -/
theorem statements_cons : statements visit (node :: nodes) scope s = match visit node scope s with
    | (.ok _, t) => statements visit nodes scope t
    | (.error e, t) => (.error e, t) := by
  show (discard (visit node scope) >>= fun _ => statements visit nodes scope : Evaluator Unit) s = _
  rw [bind_apply, discard_apply]
  rcases visit node scope s with ⟨_ | a, t⟩
  · rfl
  · rfl

/-- Where statements in a row succeed, the first one succeeds and the others after it. -/
theorem of_statements_cons_eq_ok {t : Session}
    (h : statements visit (node :: nodes) scope s = (.ok (), t)) :
    ∃ value? u, visit node scope s = (.ok value?, u) ∧
      statements visit nodes scope u = (.ok (), t) := by
  rw [statements_cons] at h
  generalize visit node scope s = result at *
  obtain ⟨e | value?, u⟩ := result
  · cases h
  · exact ⟨value?, u, rfl, h⟩

/-- Statements and others behind them: those are evaluated in the session that the first ones
leave. -/
theorem statements_append :
    statements visit (nodes ++ nodes') scope s = match statements visit nodes scope s with
    | (.ok _, t) => statements visit nodes' scope t
    | (.error e, t) => (.error e, t) := by
  induction nodes generalizing s with
  | nil => rfl
  | cons node nodes ih =>
    rw [List.cons_append, statements_cons, statements_cons]
    rcases visit node scope s with ⟨_ | a, t⟩
    · rfl
    · exact ih

end Evaluator

/-! ## Declarations with a body -/

/-- The scopes in which the body of a declaration is evaluated: its name is declared, and a scope
with some bindings is opened for its body. -/
def ScopeTree.opened (t : ScopeTree) (scope : ScopeId) (name : String) (bindings : List Binding) :
    ScopeTree :=
  (t.modify scope (Scope.declare · name)).push ⟨scope :: (t.get scope).enclosing, bindings, none⟩

/-- The scopes behind a declaration: the scope of its body has the result, and its name stands for
it. -/
def ScopeTree.closed (t : ScopeTree) (scope inner : ScopeId) (name : String) (result : Automaton) :
    ScopeTree :=
  (t.setResult inner result).modify scope (Scope.set · name (.declaration inner))

/-- What the scope of the body of a machine binds at first. -/
def machineBindings : List Binding :=
  [⟨initialStateName, none⟩, ⟨finalStatesName, some (.states [])⟩,
    ⟨transitionsName, some (.transitions [])⟩]

/-- What the scope of the body of a grammar binds at first. -/
def grammarBindings : List Binding := [⟨productionsName, some (.productions [])⟩]

/-- The machine whose parts were collected in a scope. -/
def collectedMachine (kind : MachineKind) (name : String) (tapes : List String) (span : Span)
    (t : ScopeTree) (inner : ScopeId) : Except EvaluationError Automaton :=
  match Evaluator.collectedInitial? t inner with
  | none => .error (.missingInitialState name span)
  | some initial =>
    .machine <$> Declaration.machine ⟨name, tapes, initial, Evaluator.collectedStates t inner,
      Evaluator.collectedTransitions t inner⟩ kind

/-- The grammar whose parts were collected in a scope. -/
def collectedGrammar (name : String) (start : Option Identifier) (span : Span) (t : ScopeTree)
    (inner : ScopeId) : Except EvaluationError Automaton :=
  match start.map Identifier.name <|> (Evaluator.collectedProductions t inner).head?.map
    Production.head with
  | none => .error (.missingStartSymbol name span)
  | some start => .ok (.grammar ⟨start, Evaluator.collectedProductions t inner⟩)

namespace Evaluator

/-- Evaluates a declaration whose body collects what `build` makes its result from. -/
def declareBody (visit : Visit) (name : Identifier) (bindings : List Binding) (body : Node)
    (build : ScopeTree → ScopeId → Except EvaluationError Automaton) (scope : ScopeId) :
    Evaluator Unit :=
  fun s =>
  if (s.scopes.get scope).declares name.name then (.error (.redefinition name.name name.span), s)
  else
    match visit body s.scopes.size { s with scopes := s.scopes.opened scope name.name bindings }
      with
    | (.error e, t) => (.error e, t)
    | (.ok _, t) =>
      match build t.scopes s.scopes.size with
      | .error e => (.error e, t)
      | .ok result => finish scope s.scopes.size name result t

variable {visit : Visit} {name : Identifier} {body : Node} {span : Span} {scope : ScopeId}

/-- A declared name cannot be declared again. -/
theorem changeScopes_declare_of_declares {s : Session}
    (h : (s.scopes.get scope).declares name.name = true) :
    changeScopes (·.at name.span) (fun t => t.declare scope name.name) s =
      (.error (.redefinition name.name name.span), s) := by
  rw [changeScopes_apply, ScopeTree.declare, if_pos h]
  rfl

/-- A name that the scope does not declare yet is declared, and nothing else changes. -/
theorem changeScopes_declare {s : Session} (h : ¬ (s.scopes.get scope).declares name.name = true) :
    changeScopes (·.at name.span) (fun t => t.declare scope name.name) s =
      (.ok (), { s with scopes := s.scopes.modify scope (Scope.declare · name.name) }) := by
  rw [changeScopes_apply, ScopeTree.declare, if_neg h]

/-- The scopes around a scope are the same when a name is declared in it. -/
theorem enclosing_modify_declare (t : ScopeTree) (scope : ScopeId) (name : String) :
    ((t.modify scope (Scope.declare · name)).get scope).enclosing = (t.get scope).enclosing := by
  by_cases h : scope < t.size
  · rw [ScopeTree.get_modify h]
    rfl
  · have hmodify : t.modify scope (Scope.declare · name) = t := by
      refine congrArg ScopeTree.mk (Array.ext_getElem? fun i => ?_)
      rw [Array.getElem?_modify]
      split_ifs with heq
      · rw [Array.getElem?_eq_none (heq ▸ Nat.not_lt.1 h)]
        rfl
      · rfl
    rw [hmodify]

/-- A name is declared and a scope opened, for what comes next. -/
theorem open_apply {s : Session} (h : ¬ (s.scopes.get scope).declares name.name = true)
    (next : ScopeId → Evaluator Unit) :
    (do
      changeScopes (·.at name.span) fun t => t.declare scope name.name
      next (← enterScope scope) : Evaluator Unit) s =
      next s.scopes.size { s with scopes := s.scopes.opened scope name.name [] } := by
  rw [bind_apply, changeScopes_declare h]
  dsimp only
  rw [bind_apply, enterScope_apply, enclosing_modify_declare, ScopeTree.size_modify]
  rfl

/-- A scope does not declare a name that none of its bindings has. -/
theorem declares_of_all_ne {enclosing : List ScopeId} {bindings : List Binding}
    {reserved : String} (h : bindings.all (·.name != reserved) = true) :
    (Scope.mk enclosing bindings none).declares reserved = false :=
  Bool.eq_false_iff.2 fun hdeclares => by
    obtain ⟨b, hb, hname⟩ := List.mem_map.1 (Scope.declares_iff.1 hdeclares)
    exact bne_iff_ne.1 (List.all_eq_true.1 h b hb) hname

/-- A name is declared in the scope that was opened last. -/
theorem declare_opened {t : ScopeTree} {bindings : List Binding} {reserved : String} {s : Session}
    (h : bindings.all (·.name != reserved) = true) {next : Evaluator Unit} :
    (do
      changeScopes (·.at span) fun t' => t'.declare t.size reserved
      next : Evaluator Unit) { s with scopes := t.opened scope name.name bindings } =
      next { s with scopes := t.opened scope name.name (bindings ++ [⟨reserved, none⟩]) } := by
  have hsize : t.size = (t.modify scope (Scope.declare · name.name)).size :=
    ScopeTree.size_modify.symm
  rw [bind_apply, changeScopes_apply]
  unfold ScopeTree.opened
  dsimp only
  rw [hsize, ScopeTree.declare_push (declares_of_all_ne h)]
  rfl

/-- A name is bound in the scope that was opened last. -/
theorem bind_opened {t : ScopeTree} {bindings : List Binding} {reserved : String} {value : Value}
    {s : Session} (h : bindings.all (·.name != reserved) = true) {next : Evaluator Unit} :
    (do
      changeScopes (·.at span) fun t' => t'.bind t.size reserved value
      next : Evaluator Unit) { s with scopes := t.opened scope name.name bindings } =
      next
        { s with scopes := t.opened scope name.name (bindings ++ [⟨reserved, some value⟩]) } := by
  have hsize : t.size = (t.modify scope (Scope.declare · name.name)).size :=
    ScopeTree.size_modify.symm
  rw [bind_apply, changeScopes_apply]
  unfold ScopeTree.opened
  dsimp only
  rw [hsize, ScopeTree.bind_push (declares_of_all_ne h)]

/-- The declaration of a machine is one whose body collects its parts in a scope of its own: initial
state, final states and transitions, of which the machine is built in the end. -/
theorem declareMachine_eq (kind : MachineKind) (tapes : List String) :
    declareMachine visit kind name tapes body span scope =
      declareBody visit name machineBindings body (collectedMachine kind name.name tapes span)
        scope := by
  funext s
  unfold declareMachine declareBody
  split_ifs with hdeclares
  · rw [bind_apply, changeScopes_declare_of_declares hdeclares]
  · rw [open_apply hdeclares, declare_opened (by decide), bind_opened (by decide),
      bind_opened (by decide), bind_apply]
    rw [show [] ++ [(⟨initialStateName, none⟩ : Binding)] ++ [⟨finalStatesName,
      some (.states [])⟩] ++ [⟨transitionsName, some (.transitions [])⟩] = machineBindings from rfl]
    generalize visit body s.scopes.size _ = result
    obtain ⟨e | a, t⟩ := result
    · rfl
    · -- What is left is the machine made of what the body collected, or the error that there is no
      -- initial state.
      show (match collectedInitial? t.scopes s.scopes.size with
        | none => throw _
        | some initial => _ : Evaluator Unit) t = _
      unfold collectedMachine
      dsimp only
      cases collectedInitial? t.scopes s.scopes.size with
      | none => rfl
      | some initial =>
        dsimp only
        rw [bind_apply, ofExcept_apply]
        cases Declaration.machine _ kind with
        | error e => rfl
        | ok m => rfl

/-- The declaration of a grammar is one whose body collects its productions in a scope of its own.
If no start symbol is declared, the first head serves as one. -/
theorem declareGrammar_eq (start : Option Identifier) :
    declareGrammar visit name start body span scope =
      declareBody visit name grammarBindings body (collectedGrammar name.name start span)
        scope := by
  funext s
  unfold declareGrammar declareBody
  split_ifs with hdeclares
  · rw [bind_apply, changeScopes_declare_of_declares hdeclares]
  · rw [open_apply hdeclares, bind_opened (by decide), bind_apply]
    rw [show [] ++ [(⟨productionsName, some (.productions [])⟩ : Binding)] = grammarBindings
      from rfl]
    generalize visit body s.scopes.size _ = result
    obtain ⟨e | a, t⟩ := result
    · rfl
    · -- The start symbol is the one that is named, or the head of the first production.
      show (match start.map Identifier.name <|>
          (collectedProductions t.scopes s.scopes.size).head?.map Production.head with
        | none => throw _
        | some start => _ : Evaluator Unit) t = _
      unfold collectedGrammar
      dsimp only
      cases start.map Identifier.name <|>
          (collectedProductions t.scopes s.scopes.size).head?.map Production.head with
      | none => rfl
      | some start => rfl

/-- The declaration by an expression: the name is declared first, so the expression may not use
it. -/
theorem assign_apply (kind : MachineKind) (value : Node) (s : Session) :
    assign visit kind name value scope s =
      if (s.scopes.get scope).declares name.name
        then (.error (.redefinition name.name name.span), s)
      else
        match expression visit value scope
          { s with scopes := s.scopes.modify scope (Scope.declare · name.name) } with
        | (.error e, t) => (.error e, t)
        | (.ok a, t) =>
          if a.kind? ≠ some kind then (.error (.kindMismatch kind.name a.kindName value.span), t)
          else finish scope t.scopes.size name a
            { t with
              scopes := t.scopes.push ⟨scope :: (t.scopes.get scope).enclosing, [], none⟩ } := by
  unfold assign
  rw [bind_apply]
  split_ifs with hdeclares
  · rw [changeScopes_declare_of_declares hdeclares]
  · rw [changeScopes_declare hdeclares]
    dsimp only
    rw [bind_apply]
    generalize expression visit value scope
      { s with scopes := s.scopes.modify scope (Scope.declare · name.name) } = result
    rcases result with ⟨e | a, t⟩
    · rfl
    · dsimp only
      -- An automaton of another kind is refused; otherwise the name is set to it.
      by_cases hkind : a.kind? ≠ some kind
      · rw [if_pos hkind, if_pos hkind]
        rfl
      · rw [if_neg hkind, if_neg hkind]
        rfl

end Evaluator

end MachineLang
