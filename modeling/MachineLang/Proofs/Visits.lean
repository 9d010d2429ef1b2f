import MachineLang.Proofs.Evaluators
import MachineLang.Tree.Parts

/-!
# Visits

Evaluation is a recursion over the tree. What a handler does depends only on what visits of the
children of its node do (`Handler.standard_congr`), and children are less high than their parents,
so a bound on how deep visits nest does not matter once it is at least the height of the tree
(`HandlerTable.visitWithin_eq`). So a visit is what the handler of the node does with visits of its
children (`Visit.standard_eq`), which is spelled out for each form of nodes.
-/

namespace MachineLang

/-! ## Heights -/

namespace Node

variable {node child : Node} {nodes : List Node}

/-- Every node has a height, which counts the node itself. -/
theorem height_pos (node : Node) : 0 < node.height := by
  cases node <;> exact Nat.succ_pos _

/-- The nodes of a list are not higher than it. -/
theorem height_le_heightOfList (h : node ∈ nodes) : node.height ≤ heightOfList nodes := by
  induction nodes with
  | nil => exact absurd h List.not_mem_nil
  | cons first nodes ih =>
    rw [heightOfList]
    rcases List.mem_cons.1 h with rfl | h
    · exact Nat.le_max_left _ _
    · exact Nat.le_trans (ih h) (Nat.le_max_right _ _)

/-- The nodes of some lists are not higher than them. -/
theorem height_le_heightOfLists {lists : List (List Node)} (h : node ∈ lists.flatten) :
    node.height ≤ heightOfLists lists := by
  induction lists with
  | nil => exact absurd h List.not_mem_nil
  | cons first lists ih =>
    rw [heightOfLists]
    rw [List.flatten_cons] at h
    rcases List.mem_append.1 h with h | h
    · exact Nat.le_trans (height_le_heightOfList h) (Nat.le_max_left _ _)
    · exact Nat.le_trans (ih h) (Nat.le_max_right _ _)

/-- Children are less high than their parents, so visiting nodes as deep as the tree is high reaches
all of them. -/
theorem height_lt_of_mem_children (h : child ∈ node.children) : child.height < node.height := by
  -- Children are among the lists that the height is taken over.
  cases node with
  | root statements _ => exact Nat.lt_succ_of_le (height_le_heightOfList h)
  | list items _ => exact Nat.lt_succ_of_le (height_le_heightOfList h)
  | production _ alternatives _ => exact Nat.lt_succ_of_le (height_le_heightOfLists h)
  | pushdownTransition source condition pop target push =>
    have h : child ∈ condition :: (pop ++ push) := h
    rw [height]
    rcases List.mem_cons.1 h with rfl | h
    · omega
    · rcases List.mem_append.1 h with h | h
      · have := height_le_heightOfList h
        omega
      · have := height_le_heightOfList h
        omega
  | turingTransition source read target write moves =>
    have h : child ∈ read ++ (write ++ moves) := h
    rw [height]
    rcases List.mem_append.1 h with h | h
    · have := height_le_heightOfList h
      omega
    · rcases List.mem_append.1 h with h | h
      · have := height_le_heightOfList h
        omega
      · have := height_le_heightOfList h
        omega
  | binary op left right =>
    have h : child ∈ [left, right] := h
    rw [height]
    rcases List.mem_pair.1 h with rfl | rfl
    · omega
    · omega
  | finite | pushdown | turing | grammar | assignment | qualified | finiteTransition | unary =>
    obtain rfl := List.mem_singleton.1 h
    exact Nat.lt_succ_self _
  | _ => exact absurd h List.not_mem_nil

end Node

/-! ## Handlers -/

/-- The standard handler of each kind of nodes. -/
def Handler.standard (maxLayers : Nat) : NodeKind → Handler
  | .root => Handler.root
  | .finite => Handler.declaration
  | .pushdown => Handler.declaration
  | .turing => Handler.declaration
  | .grammar => Handler.grammar
  | .assignment => Handler.assignment
  | .initial => Handler.initial
  | .final => Handler.final
  | .print => Handler.print
  | .test => Handler.test maxLayers
  | .production => Handler.production
  | .finiteTransition => Handler.transition
  | .pushdownTransition => Handler.transition
  | .turingTransition => Handler.transition
  | .identifier => Handler.identifier
  | .binary => Handler.binary
  | .unary => Handler.unary
  | _ => Handler.unsupported

/-- The standard table has a handler for every kind of nodes. -/
theorem HandlerTable.standard_resolve (maxLayers : Nat) (kind : NodeKind) :
    (standard maxLayers).resolve kind = .ok (Handler.standard maxLayers kind) := by
  cases kind <;> rfl

/-- Statements are evaluated alike by functions that visit each of them alike. -/
theorem Evaluator.statements_congr {visit visit' : Visit} {nodes : List Node} {scope : ScopeId}
    (h : ∀ node ∈ nodes, visit node scope = visit' node scope) :
    statements visit nodes scope = statements visit' nodes scope := by
  induction nodes with
  | nil => rfl
  | cons node nodes ih =>
    obtain ⟨hnode, hnodes⟩ := List.forall_mem_cons.1 h
    funext s
    rw [statements_cons, statements_cons, hnode, ih hnodes]

/-- The declaration of a machine depends only on what a visit of its body does. -/
theorem Evaluator.declareMachine_congr {visit visit' : Visit} {body : Node}
    (h : visit body = visit' body) (kind : MachineKind) (name : Identifier) (tapes : List String)
    (span : Span) (scope : ScopeId) :
    declareMachine visit kind name tapes body span scope = declareMachine visit' kind name tapes
      body span scope := by
  unfold declareMachine
  rw [h]

/-- An expression depends only on what a visit of it does. -/
theorem Evaluator.expression_congr {visit visit' : Visit} {node : Node}
    (h : visit node = visit' node) (scope : ScopeId) :
    expression visit node scope = expression visit' node scope := by
  unfold expression
  rw [h]

/-- A handler depends only on what visits of the children do, so visiting a tree deeper than it is
high does nothing else. -/
theorem Handler.standard_congr {visit visit' : Visit} {node : Node} (maxLayers : Nat)
    (h : ∀ child ∈ node.children, visit child = visit' child) (scope : ScopeId) :
    Handler.standard maxLayers node.kind visit node scope = Handler.standard maxLayers node.kind
      visit' node scope := by
  -- Each handler visits children of its node only.
  cases node with
  | root statements span =>
    have hall : Evaluator.statements visit statements scope = Evaluator.statements visit'
        statements scope :=
      Evaluator.statements_congr fun node hnode => congrFun (h node hnode) scope
    exact congrArg statement hall
  | finite name body span | pushdown name _ body span | turing name _ body span =>
    exact congrArg statement
      (Evaluator.declareMachine_congr (h body List.mem_cons_self) _ name _ span scope)
  | grammar name start body span =>
    show statement (Evaluator.declareGrammar visit name start body span scope) =
      statement (Evaluator.declareGrammar visit' name start body span scope)
    unfold Evaluator.declareGrammar
    rw [h body List.mem_cons_self]
  | assignment kind name value span =>
    show statement (Evaluator.assign visit kind name value scope) =
      statement (Evaluator.assign visit' kind name value scope)
    unfold Evaluator.assign
    rw [Evaluator.expression_congr (h value List.mem_cons_self)]
  | binary op left right span =>
    show binary visit (.binary op left right span) scope = binary visit'
      (.binary op left right span) scope
    unfold binary
    dsimp only
    rw [Evaluator.expression_congr (h left List.mem_cons_self),
      Evaluator.expression_congr (h right (List.mem_cons_of_mem _ List.mem_cons_self))]
  | unary op operand span =>
    show unary visit (.unary op operand span) scope = unary visit' (.unary op operand span) scope
    unfold unary
    dsimp only
    rw [Evaluator.expression_congr (h operand List.mem_cons_self)]
  | _ => rfl

/-- How deep visits may nest does not matter once it is at least the height of the tree. -/
theorem HandlerTable.visitWithin_eq {maxLayers depth depth' : Nat} {node : Node}
    (h : node.height ≤ depth) (h' : node.height ≤ depth') :
    (standard maxLayers).visitWithin depth node = (standard maxLayers).visitWithin depth' node := by
  induction depth generalizing depth' node with
  | zero => exact absurd node.height_pos (Nat.not_lt.2 h)
  | succ depth ih =>
    obtain ⟨depth', rfl⟩ :=
      Nat.exists_eq_add_one_of_ne_zero (n := depth') (by have := node.height_pos; omega)
    funext scope
    unfold visitWithin
    rw [standard_resolve]
    refine Handler.standard_congr maxLayers (fun child hchild => ?_) scope
    have hlt := Node.height_lt_of_mem_children hchild
    exact ih (by omega) (by omega)

/-- Evaluates a node with the standard handlers, as deep as the node is high. -/
def Visit.standard (maxLayers : Nat) : Visit := fun node =>
  (HandlerTable.standard maxLayers).visitWithin (node.height + spareDepth) node

/-- A module is evaluated by a visit. -/
theorem HandlerTable.evaluateIn_eq (maxLayers : Nat) (node : Node) (scope : ScopeId) :
    (HandlerTable.standard maxLayers).evaluateIn node scope = discard
      (Visit.standard maxLayers node scope) := rfl

/-- What the declaration of a machine with a body says besides its body. -/
structure MachineHeader where
  /-- The kind of the machine. -/
  kind : MachineKind
  /-- Its name. -/
  name : Identifier
  /-- The names of its tapes. -/
  tapes : List String
  /-- Its body. -/
  body : Node

/-- The declaration of a machine with a body, if the node is one. -/
def Node.machine? : Node → Option MachineHeader
  | .finite name body _ => some ⟨.finite, name, [Machine.defaultTape], body⟩
  | .pushdown name stackNames body _ =>
    some ⟨.pushdown, name, inputTapeName :: tapeNames stackNames defaultStackName, body⟩
  | .turing name tapes body _ => some ⟨.turing, name, tapeNames tapes Machine.defaultTape, body⟩
  | _ => none

namespace Visit

variable {maxLayers : Nat} {node : Node} {scope : ScopeId}

/-- A visit is what the handler of the node does with visits of its children. -/
theorem standard_eq (maxLayers : Nat) (node : Node) (scope : ScopeId) :
    standard maxLayers node scope = Handler.standard maxLayers node.kind (standard maxLayers)
      node scope := by
  have hpos := node.height_pos
  show (HandlerTable.standard maxLayers).visitWithin ((node.height + 999) + 1) node scope = _
  unfold HandlerTable.visitWithin
  rw [HandlerTable.standard_resolve]
  refine Handler.standard_congr maxLayers (fun child hchild => ?_) scope
  have hlt := Node.height_lt_of_mem_children hchild
  exact HandlerTable.visitWithin_eq (by omega) (by omega)

variable {span : Span} {nodes : List Node} {name : Identifier}

/-- Statements are evaluated in turn by the handler for sequences. -/
theorem standard_root : standard maxLayers (.root nodes span) scope =
    Handler.statement (Evaluator.statements (standard maxLayers) nodes scope) := standard_eq _ _ _

/-- A machine is declared by evaluating its body in a scope of its own, and building what was
collected there. -/
theorem standard_machine {kind : MachineKind} {tapes : List String} {body : Node}
    (h : node.machine? = some ⟨kind, name, tapes, body⟩) : standard maxLayers node scope =
      Handler.statement (Evaluator.declareBody (standard maxLayers) name machineBindings body
        (collectedMachine kind name.name tapes node.span) scope) := by
  rw [standard_eq, ← Evaluator.declareMachine_eq]
  cases node with
  | finite | pushdown | turing =>
    cases h
    rfl
  | _ => cases h

/-- A grammar is declared by evaluating its body in a scope of its own, and collecting the
productions. -/
theorem standard_grammar {start : Option Identifier} {body : Node} :
    standard maxLayers (.grammar name start body span) scope =
      Handler.statement (Evaluator.declareBody (standard maxLayers) name grammarBindings body
        (collectedGrammar name.name start span) scope) := by
  rw [standard_eq, ← Evaluator.declareGrammar_eq]
  rfl

/-- An automaton is declared by an expression. -/
theorem standard_assignment {kind : MachineKind} {value : Node} :
    standard maxLayers (.assignment kind name value span) scope =
      Handler.statement (Evaluator.assign (standard maxLayers) kind name value scope) :=
        standard_eq _ _ _

/-- The initial state is chosen once in the declaration around it. -/
theorem standard_initial {state : Identifier} : standard maxLayers (.initial state span) scope =
    Handler.statement (Evaluator.changeScopes (BindingError.inStatement "initial" span) fun t =>
      t.define scope initialStateName (.state state.name)) := standard_eq _ _ _

/-- Final states are added to those of the declaration around it. -/
theorem standard_final {states : List Identifier} : standard maxLayers (.final states span) scope =
    Handler.statement (Evaluator.changeScopes (BindingError.inStatement "final" span) fun t =>
      t.update scope finalStatesName (Value.addStates (states.map Identifier.name))) :=
        standard_eq _ _ _

/-- A line is printed, behind those printed before. -/
theorem standard_print {message : String} :
    standard maxLayers (.print message span) scope = Handler.statement (Evaluator.print message) :=
      standard_eq _ _ _

/-- An automaton is tested on each of the inputs in turn. -/
theorem standard_test {inputs : List String} : standard maxLayers (.test name inputs span) scope =
    Handler.statement (do
      let automaton ← Evaluator.automatonOf name scope
      inputs.forM (Evaluator.testOn maxLayers name.name automaton span)) := standard_eq _ _ _

/-- Productions are added to those of the declaration around them, one for each alternative. -/
theorem standard_production {head : String} {alternatives : List (List Node)} :
    standard maxLayers (.production head alternatives span) scope = Handler.statement (do
      let bodies ← Evaluator.ofExcept (alternatives.mapM productionBody)
      Evaluator.changeScopes (BindingError.inStatement "production" span) fun t =>
        t.update scope productionsName (Value.addProductions (bodies.map (Production.mk head)))) :=
  standard_eq _ _ _

/-- A transition is added to those of the declaration around it. -/
theorem standard_transition (h : node.IsTransition) :
    standard maxLayers node scope = Handler.statement (do
      let t ← Evaluator.ofExcept (declaredTransitionOf node)
      Evaluator.changeScopes (BindingError.inStatement "transition" t.span) fun scopes =>
        scopes.update scope transitionsName (Value.addTransition t)) := by
  rw [standard_eq]
  cases h <;> rfl

/-- An automaton is looked up by its name. -/
theorem standard_identifier : standard maxLayers (.identifier name) scope =
    some <$> Evaluator.automatonOf name scope := standard_eq _ _ _

/-- Two automata are combined, the left one being evaluated first. -/
theorem standard_binary {op : BinaryOp} {left right : Node} :
    standard maxLayers (.binary op left right span) scope = (do
      let left ← Evaluator.expression (standard maxLayers) left scope
      let right ← Evaluator.expression (standard maxLayers) right scope
      some <$> Evaluator.combine op left right span) := standard_eq _ _ _

/-- An automaton is changed once it is evaluated. -/
theorem standard_unary {op : UnaryOp} {operand : Node} :
    standard maxLayers (.unary op operand span) scope = (do
      let operand ← Evaluator.expression (standard maxLayers) operand scope
      some <$> Evaluator.change op operand span) := standard_eq _ _ _

end Visit

end MachineLang
