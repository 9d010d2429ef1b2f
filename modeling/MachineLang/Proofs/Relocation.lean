import MachineLang.Proofs.Frames
import MachineLang.Tree.Relocated

/-!
# Evaluation and places

Evaluation never looks at a place: places are kept with the transitions that a body collects, and
told in errors. So the tree of the same program read at another place does the same in a session
whose places are moved likewise (`Evaluator.Moves`, `Visit.standard_relocated`). What a session
shows has no places: its names, its automata, its lines and its outcomes are those of the session
with its places moved.
-/

namespace MachineLang

/-! ## Moving what a session keeps -/

section

variable (f : Location → Location)

/-- The value for a tape with the place of the tape's name moved. -/
def TapeValue.relocated {α : Type} (v : TapeValue α) : TapeValue α :=
  ⟨v.tape.map (Identifier.relocated f), v.value⟩

/-- What a transition is written with, with its places moved. -/
def TransitionForm.relocated : TransitionForm → TransitionForm
  | .finite read => .finite read
  | .pushdown read pop push =>
    .pushdown read (pop.map (TapeValue.relocated f)) (push.map (TapeValue.relocated f))
  | .turing read write shift =>
    .turing (read.map (TapeValue.relocated f)) (write.map (TapeValue.relocated f))
      (shift.map (TapeValue.relocated f))

/-- The transition as written at the moved place. -/
def DeclaredTransition.relocated (t : DeclaredTransition) : DeclaredTransition :=
  ⟨t.source, t.target, t.form.relocated f, t.span.relocated f⟩

/-- The value with its places moved. -/
def Value.relocated : Value → Value
  | .transitions written => .transitions (written.map (DeclaredTransition.relocated f))
  | value => value

/-- The name with the places of its value moved. -/
def Binding.relocated (b : Binding) : Binding := ⟨b.name, b.value?.map (Value.relocated f)⟩

/-- The scope with its places moved. -/
def Scope.relocated (s : Scope) : Scope :=
  ⟨s.enclosing, s.bindings.map (Binding.relocated f), s.result?⟩

/-- The scopes with their places moved. -/
def ScopeTree.relocated (t : ScopeTree) : ScopeTree := ⟨t.scopes.map (Scope.relocated f)⟩

/-- The session with its places moved. -/
def Session.relocated (s : Session) : Session := { s with scopes := s.scopes.relocated f }

/-- The error at the moved place; errors about machines have none. -/
def EvaluationError.relocated : EvaluationError → EvaluationError
  | .redefinition name span => .redefinition name (span.relocated f)
  | .usedBeforeDefinition name span => .usedBeforeDefinition name (span.relocated f)
  | .notDeclared name span => .notDeclared name (span.relocated f)
  | .missingInitialState automaton span => .missingInitialState automaton (span.relocated f)
  | .missingStartSymbol grammar span => .missingStartSymbol grammar (span.relocated f)
  | .unsupported feature span => .unsupported feature (span.relocated f)
  | .kindMismatch expected found span => .kindMismatch expected found (span.relocated f)
  | .unknownTape tape automaton span => .unknownTape tape automaton (span.relocated f)
  | .tooManyTapes automaton expected found span =>
    .tooManyTapes automaton expected found (span.relocated f)
  | .outsideAutomaton statement span => .outsideAutomaton statement (span.relocated f)
  | .machine error => .machine error
  | .dispatch error => .dispatch error
  | .endless span => .endless (span.relocated f)
  | .overflow span => .overflow (span.relocated f)

end

variable {f : Location → Location} {α β : Type}

/-! ## Scopes -/

namespace Scope

variable {s : Scope} {name : String}

/-- The same names are bound, to values that differ in their places only. -/
theorem binding?_relocated :
    (s.relocated f).binding? name = (s.binding? name).map (Binding.relocated f) :=
  List.find?_map

/-- The same names are declared, wherever they were written. -/
theorem declares_relocated : (s.relocated f).declares name = s.declares name := by
  unfold declares
  rw [binding?_relocated, Option.isSome_map]

/-- The names are the same, and stand in the same order. -/
theorem names_relocated : (s.relocated f).names = s.names := List.map_map

/-- A name is declared alike in the moved scope, since a name has no place there. -/
theorem declare_relocated (s : Scope) :
    (s.relocated f).declare name = (s.declare name).relocated f := by
  refine congrArg (fun bindings => Scope.mk s.enclosing bindings s.result?) ?_
  show s.bindings.map (Binding.relocated f) ++ [Binding.mk name none] =
    (s.bindings ++ [Binding.mk name none]).map _
  rw [List.map_append]
  rfl

/-- A name gets a value alike in the moved scope, where the value is moved as well. -/
theorem set_relocated (s : Scope) (value : Value) :
    (s.relocated f).set name (value.relocated f) = (s.set name value).relocated f := by
  refine congrArg (fun bindings => Scope.mk s.enclosing bindings s.result?) ?_
  show (s.bindings.map _).map _ = (s.bindings.map _).map _
  rw [List.map_map, List.map_map]
  refine List.map_congr_left fun b _ => ?_
  show (if b.name == name then _ else _) = Binding.relocated f (if b.name == name then _ else _)
  split_ifs <;> rfl

end Scope

namespace ScopeTree

variable {t : ScopeTree} {id : ScopeId} {name : String}

/-- Each scope is moved: looking a scope up and moving it may change places. -/
theorem get_relocated : (t.relocated f).get id = (t.get id).relocated f := by
  unfold get relocated
  rw [Array.getD_eq_getD_getElem?, Array.getD_eq_getD_getElem?, Array.getElem?_map]
  cases t.scopes[id]? <;> rfl

/-- There are as many scopes, with the same numbers. -/
theorem size_relocated : (t.relocated f).size = t.size := Array.size_map

/-- A scope is added alike, as the next one of the tree. -/
theorem push_relocated (s : Scope) :
    (t.relocated f).push (s.relocated f) = (t.push s).relocated f :=
  congrArg ScopeTree.mk Array.map_push.symm

/-- A change of a scope that moves with its places. -/
theorem modify_relocated {g g' : Scope → Scope} (h : ∀ s, g' (s.relocated f) = (g s).relocated f) :
    (t.relocated f).modify id g' = (t.modify id g).relocated f := by
  refine congrArg ScopeTree.mk (Array.ext_getElem? fun i => ?_)
  show ((t.scopes.map (Scope.relocated f)).modify id g')[i]? =
    ((t.scopes.modify id g).map (Scope.relocated f))[i]?
  rw [Array.getElem?_map, Array.getElem?_modify, Array.getElem?_modify, Array.getElem?_map]
  split_ifs
  · cases t.scopes[i]? with
    | none => rfl
    | some s => exact congrArg some (h s)
  · rfl

/-- A name is declared in a scope of the moved tree, or refused there for the same reason. -/
theorem declare_relocated :
    (t.relocated f).declare id name = (t.declare id name).map (ScopeTree.relocated f) := by
  unfold declare
  rw [get_relocated, Scope.declares_relocated, apply_ite (Except.map (ScopeTree.relocated f))]
  refine ite_congr rfl (fun _ => rfl) fun _ =>
    congrArg Except.ok (modify_relocated Scope.declare_relocated)

/-- The scope in which a name is declared is the same for the moved scopes, and so is the binding
that is found there, up to the places in its value. -/
theorem owner_relocated : (t.relocated f).owner id name =
    (t.owner id name).map fun found => (found.1, found.2.relocated f) := by
  -- Looking up through the scopes from within, the first one that has the name is the owner.
  have howner : ∀ t : ScopeTree,
      t.owner id name =
        ((id :: (t.get id).enclosing).findSome? fun scope =>
          ((t.get scope).binding? name).map fun b => (scope, b)).elim
            (.error (.notDeclared name)) .ok := by
    intro t
    unfold owner
    cases (id :: (t.get id).enclosing).findSome? fun scope =>
      ((t.get scope).binding? name).map fun b => (scope, b) <;>
      rfl
  have hfound : ∀ ids : List ScopeId,
      ids.findSome? (fun scope => (((t.relocated f).get scope).binding? name).map fun b =>
        (scope, b)) =
        (ids.findSome? fun scope => ((t.get scope).binding? name).map fun b => (scope, b)).map
          fun found => (found.1, found.2.relocated f) := by
    intro ids
    induction ids with
    | nil => rfl
    | cons scope ids ih =>
      rw [List.findSome?_cons, List.findSome?_cons, get_relocated, Scope.binding?_relocated, ih]
      cases (t.get scope).binding? name <;> rfl
  rw [howner, howner, hfound, get_relocated]
  show (Option.map _ (List.findSome? _ (id :: (t.get id).enclosing))).elim _ _ = _
  cases List.findSome? (fun scope => ((t.get scope).binding? name).map fun b => (scope, b))
    (id :: (t.get id).enclosing) <;> rfl

/-- A name gets a value in a scope of the moved tree, or is refused there for the same reason. -/
theorem define_relocated (value : Value) : (t.relocated f).define id name (value.relocated f) =
    (t.define id name value).map (ScopeTree.relocated f) := by
  unfold define
  rw [owner_relocated]
  rcases t.owner id name with e | ⟨scope, b⟩
  · rfl
  · show (if (b.value?.map _).isSome then _ else _) = Except.map _
      (if b.value?.isSome then _ else _)
    rw [Option.isSome_map, apply_ite (Except.map (ScopeTree.relocated f))]
    exact ite_congr rfl (fun _ => rfl) fun _ =>
      congrArg Except.ok (modify_relocated fun s => s.set_relocated value)

/-- The scope in which a name is declared, and its value. -/
theorem defined_relocated : (t.relocated f).defined id name =
    (t.defined id name).map fun found => (found.1, found.2.relocated f) := by
  unfold defined
  rw [owner_relocated]
  rcases t.owner id name with e | ⟨scope, b⟩
  · rfl
  · obtain ⟨_, _ | value⟩ := b <;> rfl

/-- The value of a name is found in the same scope, and differs in its places only. -/
theorem lookup_relocated :
    (t.relocated f).lookup id name = (t.lookup id name).map (Value.relocated f) := by
  unfold lookup
  rw [defined_relocated]
  rcases t.defined id name with e | found <;> rfl

/-- The value of a name changes. -/
theorem update_relocated {g g' : Value → Value}
    (h : ∀ value, g' (value.relocated f) = (g value).relocated f) :
    (t.relocated f).update id name g' = (t.update id name g).map (ScopeTree.relocated f) := by
  unfold update
  rw [defined_relocated]
  rcases t.defined id name with e | ⟨scope, value⟩
  · rfl
  · refine congrArg Except.ok (modify_relocated fun s => ?_)
    dsimp only
    rw [h]
    exact s.set_relocated (g value)

/-- A declaration is opened alike, if the bindings of its scope have no places. -/
theorem opened_relocated {bindings : List Binding}
    (h : bindings.map (Binding.relocated f) = bindings) :
    (t.relocated f).opened id name bindings = (t.opened id name bindings).relocated f := by
  have hdeclare : (t.relocated f).modify id (Scope.declare · name) =
      (t.modify id (Scope.declare · name)).relocated f :=
    modify_relocated Scope.declare_relocated
  unfold opened
  rw [hdeclare, get_relocated, ← push_relocated]
  exact congrArg (fun bindings => push _ ⟨_, bindings, none⟩) h.symm

/-- A scope gets a result alike: automata have no places. -/
theorem setResult_relocated (result : Automaton) :
    (t.relocated f).setResult id result = (t.setResult id result).relocated f :=
      modify_relocated fun _ => rfl

/-- The result of a scope is the same. -/
theorem result?_relocated : (t.relocated f).result? id = t.result? id := by
  unfold result?
  rw [get_relocated]
  rfl

/-- What the names of a scope declare is the same. -/
theorem automata_relocated : (t.relocated f).automata id = t.automata id := by
  unfold automata
  rw [get_relocated]
  show ((t.get id).bindings.map (Binding.relocated f)).filterMap _ = _
  rw [List.filterMap_map]
  refine List.filterMap_congr fun b _ => ?_
  obtain ⟨name, _ | value⟩ := b
  · rfl
  · cases value with
    | declaration scope => exact congrArg (Option.map _) result?_relocated
    | _ => rfl

end ScopeTree

/-! ## Computations -/

/-- What a computation gave, with its places moved. -/
def Evaluator.relocatedResult (f : Location → Location)
    (result : Except EvaluationError α × Session) :
    Except EvaluationError α × Session :=
  (result.1.mapError (EvaluationError.relocated f), result.2.relocated f)

/-- Where the places of a session are moved, the second computation does what the first one does in
the session. -/
def Evaluator.Moves (f : Location → Location) (p p' : Evaluator α) : Prop :=
  ∀ s : Session, p' (s.relocated f) = relocatedResult f (p s)

namespace Evaluator.Moves

variable {p p' : Evaluator α}

/-- A value without places is given in both sessions. -/
theorem pure (a : α) : Moves f (Pure.pure a) (Pure.pure a) := fun _ => rfl

/-- An error is moved: it tells the place where the text was read. -/
theorem throw (e : EvaluationError) : Moves f (throw e : Evaluator α) (throw (e.relocated f)) :=
  fun _ => rfl

/-- One computation after the other is moved if both are. -/
theorem bind {g g' : α → Evaluator β} (h : Moves f p p') (hg : ∀ a, Moves f (g a) (g' a)) :
    Moves f (p >>= g) (p' >>= g') := by
  intro s
  rw [bind_apply, bind_apply, h s]
  rcases p s with ⟨e | a, t⟩
  · rfl
  · exact hg a t

/-- A function of what a computation gives. -/
theorem map (g : α → β) (h : Moves f p p') : Moves f (g <$> p) (g <$> p') :=
  h.bind fun a => pure (g a)

/-- A change of the session is moved if it does the same to moved sessions. -/
theorem changeSession {g g' : Session → Session} (h : ∀ s, g' (s.relocated f) = (g s).relocated f) :
    Moves f (modify g : Evaluator Unit) (modify g') := fun s => Prod.ext rfl (h s)

/-- A change of the scopes is moved if the change and its errors are. -/
theorem changeScopes {error error' : BindingError → EvaluationError}
    {change change' : ScopeTree → Except BindingError ScopeTree}
    (herror : ∀ e, error' e = (error e).relocated f)
    (hchange : ∀ t : ScopeTree, change' (t.relocated f) = (change t).map (ScopeTree.relocated f)) :
    Moves f (Evaluator.changeScopes error change) (Evaluator.changeScopes error' change') := by
  intro s
  rw [changeScopes_apply, changeScopes_apply, show (s.relocated f).scopes = s.scopes.relocated f
    from rfl, hchange]
  cases change s.scopes with
  | error e => exact Prod.ext (congrArg Except.error (herror e)) rfl
  | ok scopes => rfl

/-- A scope is added under the same number in both sessions. -/
theorem enterScope (parent : ScopeId) :
    Moves f (Evaluator.enterScope parent) (Evaluator.enterScope parent) := by
  intro s
  rw [enterScope_apply, enterScope_apply]
  refine Prod.ext (congrArg Except.ok ScopeTree.size_relocated) ?_
  refine congrArg (fun scopes => Session.mk scopes s.output s.tests) ?_
  rw [show (s.relocated f).scopes = s.scopes.relocated f from rfl, ScopeTree.get_relocated]
  exact ScopeTree.push_relocated ⟨parent :: (s.scopes.get parent).enclosing, [], none⟩

end Evaluator.Moves

/-! ## Statements of bodies -/

/-- The error at a place where a name is used. -/
theorem BindingError.at_relocated (span : Span) (e : BindingError) :
    e.at (span.relocated f) = (e.at span).relocated f := by cases e <;> rfl

/-- The error of a statement that adds to the declaration around it. -/
theorem BindingError.inStatement_relocated (statement : String) (span : Span) (e : BindingError) :
    e.inStatement statement (span.relocated f) = (e.inStatement statement span).relocated f := by
      cases e <;> rfl

/-- What a step of evaluation gives, with its places moved. -/
def relocatedStep (f : Location → Location) (move : α → β) (x : Except EvaluationError α) :
    Except EvaluationError β :=
  (x.map move).mapError (EvaluationError.relocated f)

/-- Steps that move with their arguments do so in turn: the first one that fails gives the moved
error, and otherwise all results are moved. -/
theorem mapM_relocated {γ δ : Type} {move : α → γ} {result : β → δ}
    {act : α → Except EvaluationError β} {act' : γ → Except EvaluationError δ}
    (h : ∀ a, act' (move a) = relocatedStep f result (act a)) (items : List α) :
    (items.map move).mapM act' = relocatedStep f (List.map result) (items.mapM act) := by
  induction items with
  | nil => rfl
  | cons a items ih =>
    rw [List.map_cons, List.mapM_cons, List.mapM_cons, h, ih]
    cases act a with
    | error e => rfl
    | ok b => cases items.mapM act <;> rfl

namespace Node

/-- A moved node is of the same kind. -/
theorem kind_relocated (n : Node) : (n.relocated f).kind = n.kind := by
  cases n <;> rw [relocated] <;> rfl

/-- The symbol that a moved node stands for. -/
theorem symbolOf_relocated (n : Node) :
    symbolOf (n.relocated f) = relocatedStep f id (symbolOf n) := by
  cases n <;> rw [relocated] <;> rfl

/-- The symbol for a tape that a moved node stands for. -/
theorem tapeSymbolOf_relocated (n : Node) :
    tapeSymbolOf (n.relocated f) = relocatedStep f (TapeValue.relocated f) (tapeSymbolOf n) := by
  cases n with
  | qualified tape value span =>
    rw [relocated]
    unfold tapeSymbolOf
    dsimp only
    rw [symbolOf_relocated]
    cases symbolOf value <;> rfl
  | _ => rw [relocated]; rfl

/-- The direction that a moved node stands for. -/
theorem directionOf_relocated (n : Node) :
    directionOf (n.relocated f) = relocatedStep f id (directionOf n) := by
  cases n <;> rw [relocated] <;> rfl

/-- The move of a head that a moved node stands for. -/
theorem tapeShiftOf_relocated (n : Node) :
    tapeShiftOf (n.relocated f) = relocatedStep f (TapeValue.relocated f) (tapeShiftOf n) := by
  cases n with
  | qualified tape value span =>
    rw [relocated]
    unfold tapeShiftOf
    dsimp only
    rw [directionOf_relocated]
    cases directionOf value <;> rfl
  | _ => rw [relocated]; rfl

/-- The transition that a moved node stands for is the moved transition. Where the node stands for
none, the error is the same with its place moved. -/
theorem declaredTransitionOf_relocated (n : Node) :
    declaredTransitionOf (n.relocated f) = relocatedStep f (DeclaredTransition.relocated f)
      (declaredTransitionOf n) := by
  -- The parts are evaluated in one order before and after the move, and the first that fails gives
  -- its moved error.
  cases n with
  | finiteTransition source condition target span =>
    rw [relocated]
    unfold declaredTransitionOf
    dsimp only
    rw [symbolOf_relocated]
    cases symbolOf condition <;> rfl
  | pushdownTransition source condition pop target push span =>
    rw [relocated, relocatedList_eq_map, relocatedList_eq_map]
    unfold declaredTransitionOf
    dsimp only
    rw [symbolOf_relocated, mapM_relocated tapeSymbolOf_relocated,
      mapM_relocated tapeSymbolOf_relocated]
    cases symbolOf condition with
    | error e => rfl
    | ok read =>
      cases pop.mapM tapeSymbolOf with
      | error e => rfl
      | ok pop => cases push.mapM tapeSymbolOf <;> rfl
  | turingTransition source read target write moves span =>
    rw [relocated, relocatedList_eq_map, relocatedList_eq_map, relocatedList_eq_map]
    unfold declaredTransitionOf
    dsimp only
    rw [mapM_relocated tapeSymbolOf_relocated, mapM_relocated tapeSymbolOf_relocated,
      mapM_relocated tapeShiftOf_relocated]
    cases read.mapM tapeSymbolOf with
    | error e => rfl
    | ok read =>
      cases write.mapM tapeSymbolOf with
      | error e => rfl
      | ok write => cases moves.mapM tapeShiftOf <;> rfl
  | _ => rw [relocated]; rfl

/-- The symbols of a moved alternative are the same, since no symbol of a grammar has a place in it;
only errors do, and they are moved. -/
theorem productionBody_relocated (nodes : List Node) :
    productionBody (nodes.map (Node.relocated f)) = relocatedStep f id (productionBody nodes) := by
  induction nodes with
  | nil => rfl
  | cons node nodes ih =>
    rw [List.map_cons]
    -- Only a text or the name of a production stands in an alternative, and anything else is an
    -- error with or without the move.
    cases node with
    | string value span =>
      rw [relocated]
      unfold productionBody
      rw [ih]
      cases productionBody nodes <;> rfl
    | nonTerminal name span =>
      rw [relocated]
      unfold productionBody
      rw [ih]
      cases productionBody nodes <;> rfl
    | _ => rw [relocated]; rfl

end Node

/-! ## Declarations -/

/-- Values whose tapes are named elsewhere are put on the same tapes. An error about them points to
the moved name or to the moved transition. -/
theorem arrangeFrom_relocated {automaton : String} {tapes : List String} {found : Nat}
    {span : Span} {position : Nat} (values : List (TapeValue α)) (arranged : List α) :
    arrangeFrom automaton tapes found (span.relocated f) position
      (values.map (TapeValue.relocated f)) arranged =
      relocatedStep f id (arrangeFrom automaton tapes found span position values arranged) := by
  induction values generalizing position arranged with
  | nil => rfl
  | cons v values ih =>
    -- A value without a tape goes to the next place; one with a tape is found by its name, which
    -- has no place in it.
    obtain ⟨_ | tape, value⟩ := v
    · show arrangeFrom automaton tapes found _ position (⟨none, value⟩ :: _) arranged = _
      unfold arrangeFrom
      split_ifs
      · exact ih _
      · rfl
    · show arrangeFrom automaton tapes found _ position (⟨some (tape.relocated f), value⟩ :: _)
        arranged = _
      unfold arrangeFrom
      rw [show (tape.relocated f).name = tape.name from rfl]
      cases tapes.findIdx? (· == tape.name) with
      | none => rfl
      | some index => exact ih _

/-- Values whose tapes are named elsewhere are arranged alike. -/
theorem arrange_relocated {automaton : String} {tapes : List String} {span : Span} {neutral : α}
    (values : List (TapeValue α)) :
    arrange automaton tapes (span.relocated f) neutral (values.map (TapeValue.relocated f)) =
      relocatedStep f id (arrange automaton tapes span neutral values) := by
  unfold arrange
  rw [List.length_map]
  exact arrangeFrom_relocated values _

namespace Declaration

variable {d : Declaration}

/-- The declaration with its places moved. -/
def relocated (f : Location → Location) (d : Declaration) : Declaration :=
  { d with transitions := d.transitions.map (DeclaredTransition.relocated f) }

/-- A transition that is written elsewhere is the same transition of the automaton. Places occur
only in what is declared and in errors, not in what is built. -/
theorem transition_relocated (k : MachineKind) (t : DeclaredTransition) :
    (d.relocated f).transition k (t.relocated f) = relocatedStep f id (d.transition k t) := by
  obtain ⟨source, target, form, span⟩ := t
  -- A form of another kind of machine is a mismatch at the span of the transition, which is moved
  -- as well.
  cases k with
  | finite => cases form <;> rfl
  | pushdown =>
    cases form with
    | pushdown read pop push =>
      show (do
        let pop ← arrange d.name (d.tapes.drop 1) (span.relocated f) epsilon
          (pop.map (TapeValue.relocated f))
        let push ← arrange d.name (d.tapes.drop 1) (span.relocated f) epsilon
          (push.map (TapeValue.relocated f))
        return ⟨source, read :: pop, target, StackAction.mk push⟩ :
          Except EvaluationError (Transition .pushdown)) = _
      rw [arrange_relocated, arrange_relocated]
      unfold transition
      dsimp only
      cases arrange d.name (d.tapes.drop 1) span epsilon pop with
      | error e => rfl
      | ok pop => cases arrange d.name (d.tapes.drop 1) span epsilon push <;> rfl
    | _ => rfl
  | turing =>
    cases form with
    | turing read write shift =>
      show (do
        let read ← arrange d.name d.tapes (span.relocated f) epsilon
          (read.map (TapeValue.relocated f))
        let write ← arrange d.name d.tapes (span.relocated f) epsilon
          (write.map (TapeValue.relocated f))
        let shift ← arrange d.name d.tapes (span.relocated f) .stay
          (shift.map (TapeValue.relocated f))
        return ⟨source, read, target, TapeAction.mk write shift⟩ :
          Except EvaluationError (Transition .turing)) = _
      rw [arrange_relocated, arrange_relocated, arrange_relocated]
      unfold transition
      dsimp only
      cases arrange d.name d.tapes span epsilon read with
      | error e => rfl
      | ok read =>
        cases arrange d.name d.tapes span epsilon write with
        | error e => rfl
        | ok write => cases arrange d.name d.tapes span .stay shift <;> rfl
    | _ => rfl

/-- A declaration that is written elsewhere declares the same machine, since its places occur only
in errors. -/
theorem machine_relocated (k : MachineKind) :
    (d.relocated f).machine k = relocatedStep f id (d.machine k) := by
  unfold machine
  rw [show (d.relocated f).transitions = d.transitions.map (DeclaredTransition.relocated f)
    from rfl, mapM_relocated (transition_relocated k)]
  cases d.transitions.mapM (d.transition k) with
  | error e => rfl
  | ok transitions =>
    -- The transitions that were moved are the same ones: a machine does not remember where it was
    -- written.
    show (Machine.new ⟨transitions.map id, d.initial, .ofList d.finals, d.tapes, .empty, .empty,
      k.bounded⟩).mapError EvaluationError.machine = relocatedStep f id ((Machine.new
      ⟨transitions, d.initial, .ofList d.finals, d.tapes, .empty, .empty, k.bounded⟩).mapError
      EvaluationError.machine)
    rw [List.map_id]
    cases Machine.new (⟨transitions, d.initial, .ofList d.finals, d.tapes, .empty, .empty,
      k.bounded⟩ : Definition k) <;> rfl

end Declaration

/-! ## What a body collected -/

namespace Evaluator

variable {t : ScopeTree} {scope : ScopeId}

/-- The initial state that was set is the same. -/
theorem collectedInitial?_relocated :
    collectedInitial? (t.relocated f) scope = collectedInitial? t scope := by
  unfold collectedInitial?
  rw [ScopeTree.lookup_relocated]
  rcases t.lookup scope initialStateName with e | value
  · rfl
  · cases value <;> rfl

/-- The final states that were collected are the same. -/
theorem collectedStates_relocated :
    collectedStates (t.relocated f) scope = collectedStates t scope := by
  unfold collectedStates
  rw [ScopeTree.lookup_relocated]
  rcases t.lookup scope finalStatesName with e | value
  · rfl
  · cases value <;> rfl

/-- The transitions that were collected are moved. -/
theorem collectedTransitions_relocated : collectedTransitions (t.relocated f) scope =
    (collectedTransitions t scope).map (DeclaredTransition.relocated f) := by
  unfold collectedTransitions
  rw [ScopeTree.lookup_relocated]
  rcases t.lookup scope transitionsName with e | value
  · rfl
  · cases value <;> rfl

/-- The productions that were collected are the same. -/
theorem collectedProductions_relocated :
    collectedProductions (t.relocated f) scope = collectedProductions t scope := by
  unfold collectedProductions
  rw [ScopeTree.lookup_relocated]
  rcases t.lookup scope productionsName with e | value
  · rfl
  · cases value <;> rfl

end Evaluator

/-- The machine whose parts were collected elsewhere is the same one, or the error about it is
moved. -/
theorem collectedMachine_relocated {kind : MachineKind} {name : String} {tapes : List String}
    {span : Span} (t : ScopeTree) (inner : ScopeId) :
    collectedMachine kind name tapes (span.relocated f) (t.relocated f) inner =
      relocatedStep f id (collectedMachine kind name tapes span t inner) := by
  unfold collectedMachine
  rw [Evaluator.collectedInitial?_relocated, Evaluator.collectedStates_relocated,
    Evaluator.collectedTransitions_relocated]
  cases Evaluator.collectedInitial? t inner with
  | none => rfl
  | some initial =>
    have hmachine := Declaration.machine_relocated (f := f)
      (d := ⟨name, tapes, initial, Evaluator.collectedStates t inner,
        Evaluator.collectedTransitions t inner⟩) kind
    unfold Declaration.relocated at hmachine
    dsimp only at hmachine ⊢
    rw [hmachine]
    cases Declaration.machine _ kind <;> rfl

/-- The grammar whose productions were collected elsewhere. -/
theorem collectedGrammar_relocated {name : String} {start : Option Identifier} {span : Span}
    (t : ScopeTree) (inner : ScopeId) :
    collectedGrammar name (start.map (Identifier.relocated f)) (span.relocated f)
      (t.relocated f) inner =
      relocatedStep f id (collectedGrammar name start span t inner) := by
  unfold collectedGrammar
  rw [Evaluator.collectedProductions_relocated, Option.map_map,
    show Identifier.name ∘ Identifier.relocated f = Identifier.name from rfl]
  cases start.map Identifier.name <|> (Evaluator.collectedProductions t inner).head?.map
    Production.head <;> rfl

/-! ## Handlers -/

namespace Evaluator.Moves

variable {visit : Visit} {scope : ScopeId}

/-- For each element of a list in turn. -/
theorem forM {p p' : α → Evaluator Unit} {move : α → α} (h : ∀ a, Moves f (p a) (p' (move a)))
    (items : List α) :
    Moves f (items.forM p) ((items.map move).forM p') := by
  induction items with
  | nil => exact pure ()
  | cons a items ih => exact (h a).bind fun _ => ih

/-- A step that is independent of the session. -/
theorem ofExcept {x x' : Except EvaluationError α} (h : x' = relocatedStep f id x) :
    Moves f (Evaluator.ofExcept x) (Evaluator.ofExcept x') := by
  subst h
  cases x with
  | error e => exact throw e
  | ok a => exact pure a

/-- A declaration gets its result in both sessions, under a name that only differs in its place. -/
theorem finish (outer inner : ScopeId) (name : Identifier) (result : Automaton) :
    Moves f (Evaluator.finish outer inner name result)
      (Evaluator.finish outer inner (name.relocated f) result) := by
  refine (changeSession fun s => ?_).bind fun _ =>
    changeScopes (BindingError.at_relocated name.span) fun t => ?_
  · exact congrArg (fun scopes => Session.mk scopes s.output s.tests)
      (ScopeTree.setResult_relocated result)
  · exact ScopeTree.define_relocated (.declaration inner)

/-- The automaton of a name is the same one, and the errors differ in their place. -/
theorem automatonOf (name : Identifier) :
    Moves f (Evaluator.automatonOf name scope)
      (Evaluator.automatonOf (name.relocated f) scope) := by
  intro s
  rw [automatonOf_apply, automatonOf_apply]
  refine Prod.ext ?_ rfl
  show automatonAt (s.scopes.relocated f) (name.relocated f) scope =
    (automatonAt s.scopes name scope).mapError _
  unfold automatonAt
  simp only [ScopeTree.result?_relocated]
  rw [show (name.relocated f).name = name.name from rfl, ScopeTree.lookup_relocated]
  rcases s.scopes.lookup scope name.name with e | value
  · exact congrArg Except.error (BindingError.at_relocated name.span e)
  · cases value with
    | declaration declared =>
      dsimp only [Except.map, Value.relocated]
      cases s.scopes.result? declared <;> rfl
    | _ => rfl

/-- A test on an input has the same outcome, which has no place. -/
theorem testOn (maxLayers : Nat) (name : String) (automaton : Automaton) (span : Span)
    (input : String) :
    Moves f (Evaluator.testOn maxLayers name automaton span input)
      (Evaluator.testOn maxLayers name automaton (span.relocated f) input) := by
  unfold Evaluator.testOn
  rcases automaton.testWithin [input.toList] maxLayers with _ | e | accepted
  · exact throw _
  · exact throw _
  · exact changeSession fun _ => rfl

/-- Two automata are combined to the same one; an error tells the moved place. -/
theorem combine (op : BinaryOp) (left right : Automaton) (span : Span) :
    Moves f (Evaluator.combine op left right span)
      (Evaluator.combine op left right (span.relocated f)) := by
  unfold Evaluator.combine
  by_cases hkind : left.kind? ≠ right.kind?
  · rw [if_pos hkind, if_pos hkind]
    exact fun _ => rfl
  · rw [if_neg hkind, if_neg hkind]
    rcases Automaton.combine op left right with _ | e | a
    · exact throw _
    · exact throw _
    · cases Automaton.canCombine op left right
      · exact throw _
      · exact pure a

/-- An automaton is changed to the same one; an error tells the moved place. -/
theorem change (op : UnaryOp) (operand : Automaton) (span : Span) :
    Moves f (Evaluator.change op operand span)
      (Evaluator.change op operand (span.relocated f)) := by
  unfold Evaluator.change
  split
  · split
    · exact pure _
    · exact throw _
  · exact throw _

variable (hvisit : ∀ node scope, Moves f (visit node scope) (visit (node.relocated f) scope))
include hvisit

/-- An expression is visited alike if the visits of its operands are moved. -/
theorem expression (node : Node) :
    Moves f (Evaluator.expression visit node scope)
      (Evaluator.expression visit (node.relocated f) scope) := by
  refine (hvisit node scope).bind fun a => ?_
  cases a with
  | some a => exact pure a
  | none =>
    rw [node.kind_relocated, node.span_relocated]
    exact throw _

/-- Statements are evaluated in turn, each as the moved one is. -/
theorem statements (nodes : List Node) :
    Moves f (Evaluator.statements visit nodes scope)
      (Evaluator.statements visit (nodes.map (Node.relocated f)) scope) :=
  forM (fun node => (hvisit node scope).map fun _ => ()) nodes

/-- A declaration with a body is moved if its body and the building of its result are. -/
theorem declareBody {name : Identifier} {bindings : List Binding} {body : Node}
    {build build' : ScopeTree → ScopeId → Except EvaluationError Automaton}
    (hbindings : bindings.map (Binding.relocated f) = bindings)
    (hbuild : ∀ t inner, build' (t.relocated f) inner = relocatedStep f id (build t inner)) :
    Moves f (Evaluator.declareBody visit name bindings body build scope)
      (Evaluator.declareBody visit (name.relocated f) bindings (body.relocated f) build'
        scope) := by
  intro s
  have hscopes : (s.relocated f).scopes = s.scopes.relocated f := rfl
  unfold Evaluator.declareBody
  rw [hscopes, ScopeTree.get_relocated, show (name.relocated f).name = name.name from rfl,
    Scope.declares_relocated, ScopeTree.size_relocated, ScopeTree.opened_relocated hbindings]
  split_ifs
  · rfl
  · -- The body is evaluated in the same new scope, of the moved session.
    have hbody : visit (body.relocated f) s.scopes.size
        ⟨(s.scopes.opened scope name.name bindings).relocated f, (s.relocated f).output,
          (s.relocated f).tests⟩ =
          relocatedResult f (visit body s.scopes.size ⟨s.scopes.opened scope name.name bindings,
            s.output, s.tests⟩) :=
      hvisit body s.scopes.size ⟨s.scopes.opened scope name.name bindings, s.output, s.tests⟩
    rw [hbody]
    rcases visit body s.scopes.size ⟨s.scopes.opened scope name.name bindings, s.output, s.tests⟩
      with ⟨e | a, t⟩
    · rfl
    · dsimp only [relocatedResult, Except.mapError]
      rw [show (t.relocated f).scopes = t.scopes.relocated f from rfl, hbuild]
      cases build t.scopes s.scopes.size with
      | error e => rfl
      | ok result => exact finish scope s.scopes.size name result t

/-- A declaration by an expression is moved if the visit of its expression is. -/
theorem assign (kind : MachineKind) (name : Identifier) (value : Node) :
    Moves f (Evaluator.assign visit kind name value scope)
      (Evaluator.assign visit kind (name.relocated f) (value.relocated f) scope) := by
  unfold Evaluator.assign
  refine (changeScopes (BindingError.at_relocated name.span) fun t =>
    ScopeTree.declare_relocated).bind fun _ => ?_
  refine (expression hvisit value).bind fun a => ?_
  split_ifs
  · rw [value.span_relocated]
    exact fun _ => rfl
  · exact (enterScope scope).bind fun inner => finish scope inner name a

end Evaluator.Moves

/-! ## Trees -/

variable {visit : Visit} {maxLayers : Nat}

/-- A statement gives nothing, so it is moved if what it does is. -/
theorem Evaluator.Moves.statement {p p' : Evaluator Unit} (h : Moves f p p') :
    Moves f (Handler.statement p) (Handler.statement p') := h.bind fun _ => pure none

/-- A transition is added in both sessions, with the places of its own. Each of them holds the
transitions that were added to it before, with their places as well. -/
theorem Evaluator.Moves.transition (node : Node) (scope : ScopeId) :
    Moves f (Handler.transition visit node scope)
      (Handler.transition visit (node.relocated f) scope) := by
  refine statement ?_
  rw [node.declaredTransitionOf_relocated]
  cases declaredTransitionOf node with
  | error e => exact fun _ => rfl
  | ok t =>
    refine (pure ()).bind fun _ => changeScopes (BindingError.inStatement_relocated _ t.span)
      fun scopes =>
      ScopeTree.update_relocated fun value => ?_
    -- Only a list of transitions is added to, whose places are moved along with it.
    cases value with
    | transitions before =>
      show Value.transitions (before.map _ ++ [t.relocated f]) = .transitions
        ((before ++ [t]).map _)
      rw [List.map_append]
      rfl
    | _ => rfl

/-- The names of tapes are the same. -/
theorem tapeNames_relocated (declared : List Identifier) (default : String) :
    tapeNames (declared.map (Identifier.relocated f)) default = tapeNames declared default := by
  unfold tapeNames
  rw [List.isEmpty_map, List.map_map]
  rfl

/-- What handles a moved node does what handles the node, if visiting the nodes within does. Every
handler looks at names, kinds and values only, and passes places on to errors and scopes. -/
theorem Handler.standard_relocated
    (hvisit : ∀ node scope, Evaluator.Moves f (visit node scope) (visit (node.relocated f) scope))
    (node : Node) (scope : ScopeId) :
    Evaluator.Moves f (Handler.standard maxLayers node.kind visit node scope)
      (Handler.standard maxLayers (node.relocated f).kind visit (node.relocated f) scope) := by
  have htransition : Evaluator.Moves f (Handler.transition visit node scope)
    (Handler.transition visit (node.relocated f) scope) := .transition node scope
  -- One case for each kind of node: its handler is made of computations that move, and calls for
  -- the nodes within.
  cases node with
  | root statements span =>
    rw [Node.relocated, Node.relocatedList_eq_map]
    exact .statement (.statements hvisit statements)
  | finite name body span =>
    rw [Node.relocated]
    refine .statement ?_
    rw [Evaluator.declareMachine_eq, Evaluator.declareMachine_eq]
    exact .declareBody hvisit rfl collectedMachine_relocated
  | pushdown name stackNames body span =>
    rw [Node.relocated]
    refine .statement ?_
    rw [Evaluator.declareMachine_eq, Evaluator.declareMachine_eq, tapeNames_relocated]
    exact .declareBody hvisit rfl collectedMachine_relocated
  | turing name tapes body span =>
    rw [Node.relocated]
    refine .statement ?_
    rw [Evaluator.declareMachine_eq, Evaluator.declareMachine_eq, tapeNames_relocated]
    exact .declareBody hvisit rfl collectedMachine_relocated
  | grammar name start body span =>
    rw [Node.relocated]
    refine .statement ?_
    rw [Evaluator.declareGrammar_eq, Evaluator.declareGrammar_eq]
    exact .declareBody hvisit rfl collectedGrammar_relocated
  | assignment kind name value span =>
    rw [Node.relocated]
    exact .statement (.assign hvisit kind name value)
  | initial state span =>
    rw [Node.relocated]
    exact .statement (.changeScopes (BindingError.inStatement_relocated _ span) fun t =>
      ScopeTree.define_relocated (.state state.name))
  | final states span =>
    rw [Node.relocated]
    refine .statement (.changeScopes (BindingError.inStatement_relocated _ span) fun t =>
      ScopeTree.update_relocated fun value => ?_)
    rw [List.map_map, show Identifier.name ∘ Identifier.relocated f = Identifier.name from rfl]
    cases value <;> rfl
  | print message span =>
    rw [Node.relocated]
    exact .statement (.changeSession fun _ => rfl)
  | test name inputs span =>
    rw [Node.relocated]
    refine .statement ((Evaluator.Moves.automatonOf name).bind fun a => ?_)
    have htests : Evaluator.Moves f (inputs.forM (Evaluator.testOn maxLayers name.name a span))
        ((inputs.map id).forM (Evaluator.testOn maxLayers name.name a (span.relocated f))) :=
      .forM (.testOn maxLayers name.name a span) inputs
    rw [List.map_id] at htests
    exact htests
  | production head alternatives span =>
    rw [Node.relocated, Node.relocatedLists_eq_map]
    refine .statement ((Evaluator.Moves.ofExcept ?_).bind fun bodies => ?_)
    · rw [mapM_relocated Node.productionBody_relocated]
      exact congrArg (relocatedStep f · _) List.map_id_fun
    · refine .changeScopes (BindingError.inStatement_relocated _ span) fun t =>
        ScopeTree.update_relocated fun value => ?_
      cases value <;> rfl
  | finiteTransition | pushdownTransition | turingTransition =>
    rw [Node.relocated] at htransition ⊢
    exact htransition
  | identifier name =>
    rw [Node.relocated]
    exact (Evaluator.Moves.automatonOf name).map some
  | binary op left right span =>
    rw [Node.relocated]
    exact (Evaluator.Moves.expression hvisit left).bind fun a =>
      (Evaluator.Moves.expression hvisit right).bind fun b =>
      (Evaluator.Moves.combine op a b span).map some
  | unary op operand span =>
    rw [Node.relocated]
    exact (Evaluator.Moves.expression hvisit operand).bind fun a =>
      (Evaluator.Moves.change op a span).map some
  | _ => rw [Node.relocated]; exact .throw _

/-- Visiting a moved node does what visiting the node does, in the moved session: with the same
output and outcomes, and with the same value or the moved error. -/
theorem Visit.standard_relocated (maxLayers : Nat) (node : Node) (scope : ScopeId) :
    Evaluator.Moves f (standard maxLayers node scope)
      (standard maxLayers (node.relocated f) scope) := by
  have hwithin : ∀ depth node scope,
      Evaluator.Moves f ((HandlerTable.standard maxLayers).visitWithin depth node scope)
      ((HandlerTable.standard maxLayers).visitWithin depth (node.relocated f) scope) := by
    intro depth
    induction depth with
    | zero =>
      intro node scope
      unfold HandlerTable.visitWithin
      rw [node.span_relocated]
      exact .throw _
    | succ depth ih =>
      intro node scope
      unfold HandlerTable.visitWithin
      rw [HandlerTable.standard_resolve, HandlerTable.standard_resolve]
      exact Handler.standard_relocated ih node scope
  -- Both trees are visited deep enough if the visits nest as deep as both of them are high
  -- together.
  have hstandard : ∀ {n : Node}, n.height ≤ node.height + (node.relocated f).height →
      standard maxLayers n = (HandlerTable.standard maxLayers).visitWithin
        (node.height + (node.relocated f).height) n :=
    fun h => HandlerTable.visitWithin_eq (Nat.le_add_right _ _) h
  rw [hstandard (Nat.le_add_right _ _), hstandard (Nat.le_add_left _ _)]
  exact hwithin _ node scope

/-! ## Up to places -/

namespace Session

/-- The sessions are the same once their places are forgotten. -/
def SameButPlaces (s t : Session) : Prop :=
  s.relocated (fun _ => .invalid) = t.relocated fun _ => .invalid

variable {s t : Session}

/-- Sessions that are the same but for their places have the same names. -/
theorem SameButPlaces.names_eq (h : SameButPlaces s t) (id : ScopeId) :
    (s.scopes.get id).names = (t.scopes.get id).names := by
  have hscopes := congrArg (fun r => (r.scopes.get id).names) h
  rwa [relocated, relocated, ScopeTree.get_relocated, ScopeTree.get_relocated,
    Scope.names_relocated, Scope.names_relocated] at hscopes

/-- Sessions that are the same but for their places declare the same automata. -/
theorem SameButPlaces.automata_eq (h : SameButPlaces s t) (id : ScopeId) :
    s.scopes.automata id = t.scopes.automata id := by
  have hscopes := congrArg (fun r => r.scopes.automata id) h
  rwa [relocated, relocated, ScopeTree.automata_relocated, ScopeTree.automata_relocated] at hscopes

/-- Sessions that are the same but for their places have printed the same lines. -/
theorem SameButPlaces.output_eq (h : SameButPlaces s t) : s.output = t.output :=
  show (s.relocated _).output = (t.relocated _).output from congrArg Session.output h

/-- Sessions that are the same but for their places have had the same outcomes. -/
theorem SameButPlaces.tests_eq (h : SameButPlaces s t) : s.tests = t.tests :=
  show (s.relocated _).tests = (t.relocated _).tests from congrArg Session.tests h

end Session

/-- Statements that are read at another place do the same, but for the places that the session
keeps. -/
theorem Evaluator.exists_statements_relocated {nodes : List Node} {scope : ScopeId}
    {s t : Session} (h : statements (Visit.standard maxLayers) nodes scope s = (.ok (), t))
    (f : Location → Location) :
    ∃ t', statements (Visit.standard maxLayers) (nodes.map (Node.relocated f)) scope s =
      (.ok (), t') ∧ Session.SameButPlaces t' t := by
  have hmoves : ∀ nodes : List Node,
      Moves (fun _ => .invalid) (statements (Visit.standard maxLayers) nodes scope)
        (statements (Visit.standard maxLayers) (nodes.map (Node.relocated fun _ => .invalid))
          scope) :=
    Moves.statements (Visit.standard_relocated maxLayers)
  -- Both runs are compared with the one whose places are all forgotten, and that is the same one.
  have hmoved := hmoves (nodes.map (Node.relocated f)) s
  have htwice : (nodes.map (Node.relocated f)).map (Node.relocated fun _ => .invalid) =
      nodes.map (Node.relocated fun _ => .invalid) := by
    rw [List.map_map]
    exact List.map_congr_left fun n _ => n.relocated_relocated
  rw [htwice, hmoves nodes s, h] at hmoved
  rcases hresult : statements (Visit.standard maxLayers) (nodes.map (Node.relocated f)) scope s
    with ⟨e | ⟨⟩, t'⟩
  · rw [hresult] at hmoved
    cases congrArg Prod.fst hmoved
  · rw [hresult] at hmoved
    exact ⟨t', rfl, (congrArg Prod.snd hmoved).symm⟩

end MachineLang
