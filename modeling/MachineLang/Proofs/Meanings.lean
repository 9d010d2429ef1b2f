import MachineLang.Proofs.Sessions
import MachineLang.Proofs.WrittenTransitions

/-!
# What declarations mean

The statements of the body of a declaration contribute to it by changing what the scope of the body
binds to some reserved names. Every body has a scope of its own, which binds these names itself, so
a declaration means what its own statements say: no statement of a declaration inside it or around
it contributes to it. Which transition a statement says is told by `Node.Writes`, apart from how it
is evaluated. This is so at every depth (`ScopeTree.Means`), for every program that is evaluated
(`Session.evaluateIn_means`).
-/

namespace MachineLang

/-! ## What statements contribute -/

namespace Node

/-- The state that a statement chooses as the initial one. -/
def initial? : Node → Option State
  | .initial state _ => some state.name
  | _ => none

/-- The states that a statement makes final. -/
def finals : Node → List State
  | .final states _ => states.map Identifier.name
  | _ => []

/-- Whether a statement adds a transition. -/
def addsTransition : Node → Bool
  | .finiteTransition .. => true
  | .pushdownTransition .. => true
  | .turingTransition .. => true
  | _ => false

/-- The symbol of an item of an alternative; an empty string has none. -/
def symbol? : Node → Option GrammarSymbol
  | .string value _ => if value.isEmpty then none else some (.terminal value)
  | .nonTerminal name _ => some (.nonTerminal name)
  | _ => none

/-- The productions that a statement adds: one for each alternative. -/
def productions : Node → List Production
  | .production head alternatives _ => alternatives.map fun items => ⟨head, items.filterMap symbol?⟩
  | _ => []

end Node

/-- The machine is the one that is described by the statements of a body, without those inside other
bodies: its initial state is that of the only such statement, its final states are all that are
given, and its transitions are those that are written, in their order, with their values put on the
tapes. -/
def MachineHeader.Describes (header : MachineHeader) (nodes : List Node)
    (m : Machine header.kind) : Prop :=
  ∃ (initial : State) (transitions : List (Transition header.kind)),
    nodes.filterMap Node.initial? = [initial] ∧
      List.Forall₂ (Node.Writes header.tapes) (nodes.filter Node.addsTransition) transitions ∧
      Machine.new ⟨transitions, initial, .ofList (nodes.flatMap Node.finals), header.tapes, .empty,
        .empty, header.kind.bounded⟩ = .ok m

/-- The grammar is the one that is described by the productions of a body: these, and the start
symbol that is declared, or else the first head. -/
def Grammar.DescribedBy (start : Option Identifier) (nodes : List Node) (g : Grammar) : Prop :=
  g.productions = nodes.flatMap Node.productions ∧
    (start.map Identifier.name <|> g.productions.head?.map Production.head) = some g.start

namespace ScopeTree

/-- Every declaration with a body in a node that stands in a scope means what its own statements
say: its name stands for a scope whose result is the automaton that they describe, and the
declarations inside it stand in this scope. -/
inductive Means (t : ScopeTree) : ScopeId → Node → Prop
  /-- The declaration of a machine. -/
  | machine {scope inner : ScopeId} {node : Node} {header : MachineHeader} {nodes : List Node}
      {span : Span} {m : Machine header.kind} (hnode : node.machine? = some header)
      (hbody : header.body = .root nodes span)
      (hbound : (t.get scope).binding? header.name.name =
        some ⟨header.name.name, some (.declaration inner)⟩)
      (hresult : t.result? inner = some (.machine m)) (hm : header.Describes nodes m)
      (hnodes : ∀ n ∈ nodes, Means t inner n) :
      Means t scope node
  /-- The declaration of a grammar. -/
  | grammar {scope inner : ScopeId} {name : Identifier} {start : Option Identifier}
      {nodes : List Node} {span span' : Span} {g : Grammar}
      (hbound : (t.get scope).binding? name.name = some ⟨name.name, some (.declaration inner)⟩)
      (hresult : t.result? inner = some (.grammar g)) (hg : g.DescribedBy start nodes) :
      Means t scope (.grammar name start (.root nodes span) span')
  /-- Other statements declare nothing with a body. -/
  | other {scope : ScopeId} {node : Node} (hmachine : node.machine? = none)
      (hgrammar : ∀ name start body span, node ≠ .grammar name start body span) : Means t scope node

/-- What is declared and what has a result is so in another tree, too. -/
structure Keeps (t t' : ScopeTree) : Prop where
  /-- Names that stand for declarations still do. -/
  declaration : ∀ id name inner, (t.get id).binding? name = some ⟨name, some (.declaration inner)⟩ →
    (t'.get id).binding? name = some ⟨name, some (.declaration inner)⟩
  /-- Results are what they were. -/
  result : ∀ id a, t.result? id = some a → t'.result? id = some a

variable {t t' : ScopeTree} {scope inner : ScopeId} {node : Node} {name : String} {a : Automaton}

/-- Declarations go on meaning what they do. -/
theorem Means.of_keeps (h : Means t scope node) (hkeeps : Keeps t t') : Means t' scope node := by
  induction h with
  | machine hnode hbody hbound hresult hm _ ih =>
    exact .machine hnode hbody (hkeeps.declaration _ _ _ hbound) (hkeeps.result _ _ hresult) hm ih
  | grammar hbound hresult hg =>
    exact .grammar (hkeeps.declaration _ _ _ hbound) (hkeeps.result _ _ hresult) hg
  | other hmachine hgrammar => exact .other hmachine hgrammar

/-- Giving a declaration its result keeps what all others mean. The name had no declaration before,
and the scope of the body no result, so nothing is overwritten. -/
theorem Keeps.closed (hscope : scope < t.size) (hinner : inner < t.size) (hne : scope ≠ inner)
    (hname : (t.get scope).binding? name = some ⟨name, none⟩) (hresult : t.result? inner = none) :
    Keeps t (t.closed scope inner name a) where
  declaration id other declared h := by
    -- Closing writes to two scopes: the name in the outer one, which had no declaration, and the
    -- result of the inner one.
    by_cases hid : id = scope
    · subst hid
      have hother : other ≠ name := by
        rintro rfl
        rw [hname] at h
        cases h
      rw [get_closed_scope hscope hne, Scope.binding?_set_ne hother]
      exact h
    · by_cases hid' : id = inner
      · subst hid'
        rw [get_closed_inner hinner hne]
        exact h
      · rw [get_closed_ne hid hid']
        exact h
  result id b h := by
    have hid' : id ≠ inner := by
      rintro rfl
      rw [hresult] at h
      cases h
    unfold result? at *
    by_cases hid : id = scope
    · subst hid
      rw [get_closed_scope hscope hne]
      exact h
    · rw [get_closed_ne hid hid']
      exact h

end ScopeTree

/-- Evaluation keeps what is declared: names that stand for declarations still do, and results are
what they were. So what a declaration means is settled once. -/
theorem Session.Extends.keeps {s t : Session} {scope : ScopeId} (h : Extends scope s t) :
    s.scopes.Keeps t.scopes where
  declaration id name inner hb := by
    by_cases hid : id = scope
    · subst hid
      exact h.scope_extends.declaration name inner hb
    · rw [h.get_eq id (ScopeTree.lt_size_of_binding? hb) hid]
      exact hb
  result id a ha := by
    rw [h.result?_eq (ScopeTree.lt_size_of_result? ha)]
    exact ha

namespace Session.Extends

variable {s t : Session} {scope : ScopeId} {name : String} {bindings : List Binding} {a : Automaton}

/-- Behind its body, the name of a declaration has no value yet. -/
theorem binding?_of_opened (hscope : scope < s.scopes.size)
    (hname : (s.scopes.get scope).declares name = false)
    (h : Extends s.scopes.size { s with scopes := s.scopes.opened scope name bindings } t) :
    (t.scopes.get scope).binding? name = some ⟨name, none⟩ := by
  rw [h.get_of_opened hscope]
  exact Scope.binding?_declare_self hname

/-- Behind a declaration, its name stands for the scope of its body. -/
theorem binding?_closed (hscope : scope < s.scopes.size)
    (hname : (s.scopes.get scope).declares name = false)
    (h : Extends s.scopes.size { s with scopes := s.scopes.opened scope name bindings } t) :
    ((t.scopes.closed scope s.scopes.size name a).get scope).binding? name =
      some ⟨name, some (.declaration s.scopes.size)⟩ := by
  rw [ScopeTree.get_closed_scope (Nat.lt_trans hscope h.size_lt_of_opened) (Nat.ne_of_lt hscope)]
  exact Scope.binding?_set_self (Scope.declares_iff_exists.2 ⟨_, h.binding?_of_opened hscope hname⟩)

/-- Behind a declaration, the scope of its body has its result. -/
theorem result?_closed (hscope : scope < s.scopes.size)
    (h : Extends s.scopes.size { s with scopes := s.scopes.opened scope name bindings } t) :
    (t.scopes.closed scope s.scopes.size name a).result? s.scopes.size = some a := by
  unfold ScopeTree.result?
  rw [ScopeTree.get_closed_inner h.size_lt_of_opened (Nat.ne_of_lt hscope)]

/-- The end of a declaration keeps what was declared in its body. -/
theorem keeps_closed (hscope : scope < s.scopes.size)
    (hname : (s.scopes.get scope).declares name = false)
    (h : Extends s.scopes.size { s with scopes := s.scopes.opened scope name bindings } t) :
    t.scopes.Keeps (t.scopes.closed scope s.scopes.size name a) := by
  refine .closed (Nat.lt_trans hscope h.size_lt_of_opened) h.size_lt_of_opened (Nat.ne_of_lt hscope)
    (h.binding?_of_opened hscope hname) ?_
  rw [h.result?_eq ScopeTree.size_lt_size_opened]
  unfold ScopeTree.result?
  rw [ScopeTree.get_opened_self]

end Session.Extends

/-! ## What bodies collect -/

/-- What the scope of the body of a machine binds to the reserved names, when some statements were
evaluated. -/
structure ScopeTree.HoldsMachine (t : ScopeTree) (scope : ScopeId) (nodes : List Node) : Prop where
  /-- The initial state, if one was chosen. -/
  initial : ∃ chosen? : Option State, nodes.filterMap Node.initial? = chosen?.toList ∧
    (t.get scope).binding? initialStateName = some ⟨initialStateName, chosen?.map Value.state⟩
  /-- The final states. -/
  finals : (t.get scope).binding? finalStatesName =
    some ⟨finalStatesName, some (.states (nodes.flatMap Node.finals))⟩
  /-- The transitions. -/
  transitions : ∃ written, (nodes.filter Node.addsTransition).mapM declaredTransitionOf =
    .ok written ∧
    (t.get scope).binding? transitionsName = some ⟨transitionsName, some (.transitions written)⟩

namespace ScopeTree

variable {t t' : ScopeTree} {scope : ScopeId} {before nodes : List Node} {node : Node}

/-- At first nothing is collected in a scope that was opened for a machine. -/
theorem holdsMachine_opened {name : String} :
    (t.opened scope name machineBindings).HoldsMachine t.size [] where
  initial := ⟨none, rfl, by rw [get_opened_self]; rfl⟩
  finals := by
    rw [get_opened_self]
    rfl
  transitions := ⟨[], rfl, by rw [get_opened_self]; rfl⟩

/-- Where one name is set, the scope binds another name as before. -/
theorem binding?_modify_set_ne {name other : String} {value : Value} (hscope : scope < t.size)
    (h : other ≠ name) :
    ((t.modify scope (Scope.set · name value)).get scope).binding? other =
      (t.get scope).binding? other := by
  rw [get_modify hscope, Scope.binding?_set_ne h]

namespace HoldsMachine

/-- A statement that chooses no initial state leaves the one that was collected. -/
theorem initial_append (h : t.HoldsMachine scope before) (hnode : node.initial? = none)
    (hkept : (t'.get scope).binding? initialStateName = (t.get scope).binding? initialStateName) :
    ∃ chosen? : Option State, (before ++ [node]).filterMap Node.initial? = chosen?.toList ∧
      (t'.get scope).binding? initialStateName = some
        ⟨initialStateName, chosen?.map Value.state⟩ := by
  rw [hkept, List.filterMap_append, List.filterMap_cons_none hnode, List.filterMap_nil,
    List.append_nil]
  exact h.initial

/-- A statement without final states leaves those that were collected. -/
theorem finals_append (h : t.HoldsMachine scope before) (hnode : node.finals = [])
    (hkept : (t'.get scope).binding? finalStatesName = (t.get scope).binding? finalStatesName) :
    (t'.get scope).binding? finalStatesName =
      some ⟨finalStatesName, some (.states ((before ++ [node]).flatMap Node.finals))⟩ := by
  rw [hkept, List.flatMap_append, List.flatMap_singleton, hnode, List.append_nil]
  exact h.finals

/-- A statement that adds no transition leaves those that were collected. -/
theorem transitions_append (h : t.HoldsMachine scope before) (hnode : node.addsTransition = false)
    (hkept : (t'.get scope).binding? transitionsName = (t.get scope).binding? transitionsName) :
    ∃ written, ((before ++ [node]).filter Node.addsTransition).mapM declaredTransitionOf =
      .ok written ∧
      (t'.get scope).binding? transitionsName = some
        ⟨transitionsName, some (.transitions written)⟩ := by
  rw [hkept, List.filter_append, List.filter_singleton, hnode, cond_false, List.append_nil]
  exact h.transitions

/-- A statement that contributes nothing leaves what was collected. -/
theorem unchanged (h : t.HoldsMachine scope before) (hinitial : node.initial? = none)
    (hfinals : node.finals = []) (htransition : node.addsTransition = false)
    (hkept : ∀ name ∈ reservedNames, (t'.get scope).binding? name = (t.get scope).binding? name) :
    t'.HoldsMachine scope (before ++ [node]) where
  initial := h.initial_append hinitial (hkept _ (by decide))
  finals := h.finals_append hfinals (hkept _ (by decide))
  transitions := h.transitions_append htransition (hkept _ (by decide))

/-- A first initial state is collected under its reserved name, and the final states and transitions
stay what they were. -/
theorem of_initial {state : Identifier} {span : Span} (h : t.HoldsMachine scope before)
    (hscope : scope < t.size) (hnone : before.filterMap Node.initial? = []) :
    (t.modify scope (Scope.set · initialStateName (.state state.name))).HoldsMachine scope
      (before ++ [.initial state span]) where
  initial := by
    refine ⟨some state.name, ?_, ?_⟩
    · rw [List.filterMap_append, hnone]
      rfl
    · obtain ⟨chosen?, -, hbound⟩ := h.initial
      rw [get_modify hscope, Scope.binding?_set_self (Scope.declares_iff_exists.2 ⟨_, hbound⟩)]
      rfl
  finals := h.finals_append rfl (binding?_modify_set_ne hscope (by decide))
  transitions := h.transitions_append rfl (binding?_modify_set_ne hscope (by decide))

/-- Final states are collected: those of the statement are added to those before it. -/
theorem of_final {states : List Identifier} {span : Span} (h : t.HoldsMachine scope before)
    (hscope : scope < t.size) :
    (t.modify scope (Scope.set · finalStatesName (Value.addStates (states.map Identifier.name)
      (.states (before.flatMap Node.finals))))).HoldsMachine scope
        (before ++ [.final states span]) where
  initial := h.initial_append rfl (binding?_modify_set_ne hscope (by decide))
  finals := by
    rw [get_modify hscope, Scope.binding?_set_self (Scope.declares_iff_exists.2 ⟨_, h.finals⟩),
      List.flatMap_append, List.flatMap_singleton]
    rfl
  transitions := h.transitions_append rfl (binding?_modify_set_ne hscope (by decide))

/-- A transition is collected: the one that the statement stands for is added behind those that were
collected, and the initial state and the final ones stay. -/
theorem of_transition {written : List DeclaredTransition} {transition : DeclaredTransition}
    (h : t.HoldsMachine scope before) (hscope : scope < t.size) (hnode : node.IsTransition)
    (htransition : declaredTransitionOf node = .ok transition)
    (hwritten : (before.filter Node.addsTransition).mapM declaredTransitionOf = .ok written) :
    (t.modify scope (Scope.set · transitionsName (Value.addTransition transition
      (.transitions written)))).HoldsMachine scope (before ++ [node]) where
  initial := h.initial_append (by cases hnode <;> rfl) (binding?_modify_set_ne hscope (by decide))
  finals := h.finals_append (by cases hnode <;> rfl) (binding?_modify_set_ne hscope (by decide))
  transitions := by
    -- The list under the name for transitions grows at its end, and nothing else that is collected
    -- changes.
    have hadds : node.addsTransition = true := by cases hnode <;> rfl
    obtain ⟨_, -, hbound⟩ := h.transitions
    refine ⟨written ++ [transition], ?_, ?_⟩
    · rw [List.filter_append, List.filter_singleton, hadds, cond_true, List.mapM_append, hwritten]
      show (do
        let rest ← [node].mapM declaredTransitionOf
        pure (written ++ rest) : Except EvaluationError (List DeclaredTransition)) = _
      rw [List.mapM_cons, htransition]
      rfl
    · rw [get_modify hscope, Scope.binding?_set_self (Scope.declares_iff_exists.2 ⟨_, hbound⟩)]
      rfl

end HoldsMachine

/-- The machine that is made from what a scope has collected is the one that the statements
describe. -/
theorem HoldsMachine.describes {header : MachineHeader} {span : Span} {a : Automaton}
    (h : t.HoldsMachine scope nodes)
    (ha : collectedMachine header.kind header.name.name header.tapes span t scope = .ok a) :
    ∃ m, header.Describes nodes m ∧ a = .machine m := by
  obtain ⟨kind, ⟨name, nameSpan⟩, tapes, body⟩ := header
  dsimp only at ha
  obtain ⟨chosen?, hchosen, hinitial⟩ := h.initial
  obtain ⟨written, hwritten, htransitions⟩ := h.transitions
  -- What is collected from the scope is what it holds.
  have hfinals : Evaluator.collectedStates t scope = nodes.flatMap Node.finals := by
    unfold Evaluator.collectedStates
    rw [lookup_of_binding? h.finals]
  have htransitions : Evaluator.collectedTransitions t scope = written := by
    unfold Evaluator.collectedTransitions
    rw [lookup_of_binding? htransitions]
  unfold collectedMachine at ha
  -- Each step of making the machine has been successful, as there is one.
  cases chosen? with
  | none =>
    have hnone : Evaluator.collectedInitial? t scope = none := by
      unfold Evaluator.collectedInitial?
      rw [lookup_of_undefined hinitial]
    rw [hnone] at ha
    cases ha
  | some initial =>
    have hsome : Evaluator.collectedInitial? t scope = some initial := by
      unfold Evaluator.collectedInitial?
      rw [lookup_of_binding? hinitial]
    rw [hsome, hfinals, htransitions] at ha
    unfold Declaration.machine at ha
    dsimp only at ha
    obtain ⟨made, hmade, ha⟩ := exists_of_bind_eq_ok ha
    obtain ⟨transitions, harranged, hmade⟩ := exists_of_bind_eq_ok hmade
    cases hnew : Machine.new ⟨transitions, initial, .ofList (nodes.flatMap Node.finals), tapes,
      .empty, .empty,
        kind.bounded⟩ with
    | error e =>
      rw [hnew] at hmade
      cases hmade
    | ok m =>
      rw [hnew] at hmade
      obtain rfl : m = made := Except.ok.inj hmade
      have hwrites := Node.forall₂_writes hwritten harranged
      exact ⟨m, ⟨initial, transitions, hchosen, hwrites, hnew⟩, (Except.ok.inj ha).symm⟩

end ScopeTree

/-- The body of a production has the symbols of its items, in their order. An item without
characters stands for no symbol, so an empty alternative has none. -/
theorem productionBody_eq {items : List Node} {body : List GrammarSymbol}
    (h : productionBody items = .ok body) :
    body = items.filterMap Node.symbol? := by
  induction items generalizing body with
  | nil => exact (Except.ok.inj h).symm
  | cons item items ih =>
    cases item with
    | string value span =>
      obtain ⟨rest, hrest, hbody⟩ := exists_of_bind_eq_ok h
      obtain rfl := Except.ok.inj hbody
      rw [ih hrest]
      -- An empty string stands for no symbol at all.
      by_cases hvalue : value.isEmpty = true
      · have hnone : (Node.string value span).symbol? = none := if_pos hvalue
        rw [if_pos hvalue, List.filterMap_cons_none hnone]
      · have hsome : (Node.string value span).symbol? = some (.terminal value) := if_neg hvalue
        rw [if_neg hvalue, List.filterMap_cons_some hsome]
    | nonTerminal name span =>
      obtain ⟨rest, hrest, hbody⟩ := exists_of_bind_eq_ok h
      obtain rfl := Except.ok.inj hbody
      rw [ih hrest]
      rfl
    | _ => cases h

/-- The bodies of the alternatives of a production. -/
theorem mapM_productionBody_eq {alternatives : List (List Node)}
    {bodies : List (List GrammarSymbol)} (h : alternatives.mapM productionBody = .ok bodies) :
    bodies = alternatives.map fun items => items.filterMap Node.symbol? := by
  induction alternatives generalizing bodies with
  | nil => exact (Except.ok.inj h).symm
  | cons items alternatives ih =>
    rw [List.mapM_cons] at h
    obtain ⟨body, hfirst, h⟩ := exists_of_bind_eq_ok h
    obtain ⟨rest, hrest, h⟩ := exists_of_bind_eq_ok h
    obtain rfl := Except.ok.inj h
    rw [List.map_cons, productionBody_eq hfirst, ih hrest]

/-- The grammar that is made from what a scope has collected is the one that the productions
describe. -/
theorem describedBy_of_collectedGrammar {t : ScopeTree} {scope : ScopeId} {name : String}
    {start : Option Identifier} {nodes : List Node} {span : Span} {a : Automaton}
    (hbound : (t.get scope).binding? productionsName =
      some ⟨productionsName, some (.productions (nodes.flatMap Node.productions))⟩)
    (ha : collectedGrammar name start span t scope = .ok a) : ∃ g, g.DescribedBy start nodes ∧
      a = .grammar g := by
  have hproductions : Evaluator.collectedProductions t scope = nodes.flatMap Node.productions := by
    unfold Evaluator.collectedProductions
    rw [ScopeTree.lookup_of_binding? hbound]
  unfold collectedGrammar at ha
  rw [hproductions] at ha
  split at ha
  · cases ha
  · next chosen hchosen => exact ⟨_, ⟨rfl, hchosen⟩, (Except.ok.inj ha).symm⟩

namespace ScopeTree

variable {t t' : ScopeTree} {scope : ScopeId} {name : String} {value old : Value} {b : Binding}

/-- A name that a scope binds itself gets its value there. -/
theorem eq_of_define (hb : (t.get scope).binding? name = some b)
    (h : t.define scope name value = .ok t') :
    b = ⟨name, none⟩ ∧ t' = t.modify scope (Scope.set · name value) := by
  obtain ⟨owner, howner, rfl⟩ := of_define h
  rw [owner_of_binding? hb] at howner
  obtain ⟨rfl, rfl⟩ := Prod.mk.inj (Except.ok.inj howner)
  exact ⟨rfl, rfl⟩

/-- The value of a name that a scope binds itself is changed there. -/
theorem eq_of_update {f : Value → Value} (hb : (t.get scope).binding? name = some ⟨name, some old⟩)
    (h : t.update scope name f = .ok t') : t' = t.modify scope (Scope.set · name (f old)) := by
  obtain ⟨owner, found, howner, rfl⟩ := of_update h
  rw [owner_of_binding? hb] at howner
  obtain ⟨rfl, hfound⟩ := Prod.mk.inj (Except.ok.inj howner)
  cases hfound
  rfl

end ScopeTree

/-- A statement that succeeds does what it does without failing. -/
theorem Handler.eq_ok_of_statement {x : Evaluator Unit} {s t : Session} {value? : Option Automaton}
    (h : Handler.statement x s = (.ok value?, t)) : x s = (.ok (), t) := by
  unfold Handler.statement at h
  obtain ⟨⟨⟩, u, hx, h⟩ := Evaluator.of_bind_eq_ok h
  cases h
  exact hx

namespace Evaluator

/-- A change of the scopes that succeeds. -/
theorem of_changeScopes_eq_ok {error : BindingError → EvaluationError}
    {change : ScopeTree → Except BindingError ScopeTree} {s t : Session}
    (h : changeScopes error change s = (.ok (), t)) : change s.scopes = .ok t.scopes := by
  rw [changeScopes_apply] at h
  cases hchange : change s.scopes with
  | error e =>
    rw [hchange] at h
    cases h
  | ok scopes =>
    rw [hchange] at h
    cases h
    rfl

/-- Testing an automaton leaves the scopes as they are. -/
theorem scopes_forM_testOn (maxLayers : Nat) (name : String) (automaton : Automaton) (span : Span)
    (inputs : List String) (s : Session) :
    (inputs.forM (testOn maxLayers name automaton span) s).2.scopes = s.scopes := by
  induction inputs generalizing s with
  | nil => rfl
  | cons input inputs ih =>
    -- A test writes an outcome or a message, and never a binding.
    have hfirst : (testOn maxLayers name automaton span input s).2.scopes = s.scopes := by
      unfold testOn
      rcases automaton.testWithin [input.toList] maxLayers with _ | e | accepted <;> rfl
    show ((testOn maxLayers name automaton span input >>= fun _ =>
      inputs.forM (testOn maxLayers name automaton span) : Evaluator Unit) s).2.scopes = _
    rw [bind_apply]
    generalize testOn maxLayers name automaton span input s = result at *
    obtain ⟨e | _, t⟩ := result
    · exact hfirst
    · exact (ih t).trans hfirst

/-- A test leaves the scopes as they are. -/
theorem scopes_of_test {maxLayers : Nat} {name : Identifier} {scope : ScopeId}
    {inputs : List String} {span : Span} {s t : Session} (h : (do
      let automaton ← automatonOf name scope
      inputs.forM (testOn maxLayers name.name automaton span) : Evaluator Unit) s = (.ok (), t)) :
    t.scopes = s.scopes := by
  obtain ⟨a, u, hautomaton, h⟩ := of_bind_eq_ok h
  rw [automatonOf_apply] at hautomaton
  obtain ⟨-, rfl⟩ := Prod.mk.inj hautomaton
  have hscopes := scopes_forM_testOn maxLayers name.name a span inputs s
  rw [h] at hscopes
  exact hscopes

variable {visit : Visit} {name : Identifier} {scope : ScopeId} {s t : Session}

/-- A declaration with a body that succeeds binds its name only: all other names of the scope around
it stand for what they stood for. -/
theorem DeclaresBody.binding?_of_ok {bindings : List Binding} {body : Node}
    {build : ScopeTree → ScopeId → Except EvaluationError Automaton}
    (h : DeclaresBody visit name bindings body build scope s (.ok (), t))
    (hscope : scope < s.scopes.size)
    (hbody : Session.Extends s.scopes.size
      { s with scopes := s.scopes.opened scope name.name bindings }
      (visit body s.scopes.size { s with scopes := s.scopes.opened scope name.name bindings }).2)
    {other : String} (hother : other ≠ name.name) :
    (t.scopes.get scope).binding? other = (s.scopes.get scope).binding? other := by
  cases h with
  | done hdeclares hvisit =>
    rw [hvisit] at hbody
    rw [ScopeTree.get_closed_scope (Nat.lt_trans hscope hbody.size_lt_of_opened)
      (Nat.ne_of_lt hscope), hbody.get_of_opened hscope, Scope.binding?_set_ne hother,
      Scope.binding?_declare_ne hother]

/-- A declaration by an expression that succeeds binds its name only. -/
theorem Assigns.binding?_of_ok {kind : MachineKind} {value : Node}
    (h : Assigns visit kind name value scope s (.ok (), t)) (hscope : scope < s.scopes.size)
    {other : String} (hother : other ≠ name.name) :
    (t.scopes.get scope).binding? other = (s.scopes.get scope).binding? other := by
  cases h with
  | done hdeclares =>
    rw [ScopeTree.get_closed_scope (ScopeTree.lt_size_opened hscope) (Nat.ne_of_lt hscope),
      ScopeTree.get_opened_scope hscope, Scope.binding?_set_ne hother,
      Scope.binding?_declare_ne hother]

end Evaluator

namespace Visit

variable {maxLayers : Nat} {node : Node} {before nodes : List Node} {scope : ScopeId}
  {s t : Session} {value? : Option Automaton}

/-- A statement that declares a name binds this name only, whichever form the declaration has. So
what is collected under reserved names stays. -/
theorem binding?_of_declared? {name : Identifier} (h : node.IsStatement)
    (hname : node.declared? = some name) (hscope : scope < s.scopes.size)
    (hok : standard maxLayers node scope s = (.ok value?, t)) {other : String}
    (hother : other ≠ name.name) :
    (t.scopes.get scope).binding? other = (s.scopes.get scope).binding? other := by
  obtain ⟨-, ⟨bindings, body, build, hvisit, hbody⟩ | ⟨kind, value, hvisit, hvalue⟩⟩ :=
    @declared?_cases maxLayers node name scope h hname
  · rw [hvisit] at hok
    have hcases := @Evaluator.declareBody_cases _ _ _ _ build _ _ hscope (hbody s)
    rw [Handler.eq_ok_of_statement hok] at hcases
    exact hcases.binding?_of_ok hscope (hbody s) hother
  · rw [hvisit] at hok
    have hcases := @Evaluator.assign_cases _ name _ s kind _ hscope hvalue
    rw [Handler.eq_ok_of_statement hok] at hcases
    exact hcases.binding?_of_ok hscope hother

/-- A statement adds to what the scope of a body has collected what it contributes itself: its
initial state, its final states or its transition. A nested declaration adds nothing. -/
theorem holdsMachine_of_isStatement (h : node.IsStatement) (hscope : scope < s.scopes.size)
    (hholds : s.scopes.HoldsMachine scope before)
    (hok : standard maxLayers node scope s = (.ok value?, t)) :
    t.scopes.HoldsMachine scope (before ++ [node]) := by
  -- No plain name is one that the scope collects in, so declarations change nothing of what is
  -- collected.
  have hdeclares : ∀ {name : Identifier}, PlainName name.name → node.declared? = some name →
      ∀ reserved ∈ reservedNames, (t.scopes.get scope).binding? reserved =
        (s.scopes.get scope).binding? reserved :=
    fun hplain hname reserved hreserved =>
      binding?_of_declared? h hname hscope hok (hplain.ne hreserved).symm
  cases h with
  | finite hplain => exact hholds.unchanged rfl rfl rfl (hdeclares hplain rfl)
  | pushdown hplain => exact hholds.unchanged rfl rfl rfl (hdeclares hplain rfl)
  | turing hplain => exact hholds.unchanged rfl rfl rfl (hdeclares hplain rfl)
  | grammar hplain => exact hholds.unchanged rfl rfl rfl (hdeclares hplain rfl)
  | assignment kind hplain => exact hholds.unchanged rfl rfl rfl (hdeclares hplain rfl)
  | print message span =>
    rw [standard_print] at hok
    cases hok
    exact hholds.unchanged rfl rfl rfl fun _ _ => rfl
  | test hname inputs span =>
    have hscopes : t.scopes = s.scopes := by
      rw [standard_test] at hok
      exact Evaluator.scopes_of_test (Handler.eq_ok_of_statement hok)
    exact hholds.unchanged rfl rfl rfl fun _ _ => by rw [hscopes]
  | initial state span =>
    rw [standard_initial] at hok
    have hdefine := Evaluator.of_changeScopes_eq_ok (Handler.eq_ok_of_statement hok)
    obtain ⟨chosen?, hchosen, hinitial⟩ := hholds.initial
    obtain ⟨hnone, hscopes⟩ := ScopeTree.eq_of_define hinitial hdefine
    -- A second initial state would be a redefinition.
    obtain rfl : chosen? = none := by
      cases chosen? with
      | none => rfl
      | some q => cases hnone
    rw [hscopes]
    exact hholds.of_initial hscope hchosen
  | final states span =>
    rw [standard_final] at hok
    have hupdate := Evaluator.of_changeScopes_eq_ok (Handler.eq_ok_of_statement hok)
    rw [ScopeTree.eq_of_update hholds.finals hupdate]
    exact hholds.of_final hscope
  | transition h =>
    rw [standard_transition h] at hok
    obtain ⟨transition, hwritten, hok⟩ :=
      Evaluator.of_ofExcept_bind_eq_ok (Handler.eq_ok_of_statement hok)
    have hupdate := Evaluator.of_changeScopes_eq_ok hok
    obtain ⟨written, hbefore, hbound⟩ := hholds.transitions
    rw [ScopeTree.eq_of_update hbound hupdate]
    exact hholds.of_transition hscope h hwritten hbefore

/-- The statements of the body of a machine are collected in their order, so the scope holds in the
end what the whole body says. -/
theorem holdsMachine_of_statements (hnodes : ∀ n ∈ nodes, n.IsStatement)
    (hscope : scope < s.scopes.size) (hcollects : s.scopes.Collects scope machineNames)
    (hholds : s.scopes.HoldsMachine scope before)
    (hok : Evaluator.statements (standard maxLayers) nodes scope s = (.ok (), t)) :
    t.scopes.HoldsMachine scope (before ++ nodes) := by
  induction nodes generalizing before s with
  | nil =>
    cases hok
    rw [List.append_nil]
    exact hholds
  | cons node nodes ih =>
    obtain ⟨hnode, hnodes⟩ := List.forall_mem_cons.1 hnodes
    -- The first statement is collected, and the scope still collects when the second one is
    -- reached.
    have hextends := @extends_of_isStatement maxLayers _ _ _ hnode hscope hcollects
    obtain ⟨value?, u, hvisit, hok⟩ := Evaluator.of_statements_cons_eq_ok hok
    rw [hvisit] at hextends
    have hfirst := holdsMachine_of_isStatement hnode hscope hholds hvisit
    rw [List.append_cons]
    exact ih hnodes (Nat.lt_of_lt_of_le hscope hextends.size_le) (hextends.collects hcollects)
      hfirst hok

/-- Statements in a row mean what each of them does, also after those behind it were evaluated. Only
new declarations are made there, and these overwrite nothing. -/
theorem means_of_statements (hnodes : ∀ n ∈ nodes, n.IsStatement) (hscope : scope < s.scopes.size)
    (hcollects : s.scopes.Collects scope machineNames)
    (h : ∀ n ∈ nodes, ∀ (s t : Session) (value? : Option Automaton), scope < s.scopes.size →
      s.scopes.Collects scope machineNames → standard maxLayers n scope s = (.ok value?, t) →
        t.scopes.Means scope n)
    (hok : Evaluator.statements (standard maxLayers) nodes scope s = (.ok (), t)) :
    ∀ n ∈ nodes, t.scopes.Means scope n := by
  induction nodes generalizing s with
  | nil => exact fun n hn => absurd hn List.not_mem_nil
  | cons node nodes ih =>
    obtain ⟨hnode, hnodes⟩ := List.forall_mem_cons.1 hnodes
    obtain ⟨hmeans, hrest⟩ := List.forall_mem_cons.1 h
    have hextends := @extends_of_isStatement maxLayers _ _ _ hnode hscope hcollects
    obtain ⟨value?, u, hvisit, hok⟩ := Evaluator.of_statements_cons_eq_ok hok
    rw [hvisit] at hextends
    have hscope' := Nat.lt_of_lt_of_le hscope hextends.size_le
    have hcollects' := hextends.collects hcollects
    have hlater :=
      @Evaluator.statements_extends _ _ _ nodes _ hscope' hcollects' fun n hn t hlt hc =>
      @extends_of_isStatement maxLayers _ _ _ (hnodes n hn) hlt hc
    rw [hok] at hlater
    -- What the first statement means is kept by those behind it.
    have hfirst := (hmeans s u value? hscope hcollects hvisit).of_keeps hlater.keeps
    exact List.forall_mem_cons.2 ⟨hfirst, ih hnodes hscope' hcollects' hrest hok⟩

/-- The declaration of a machine means what the statements of its body say: its result is built of
what these have collected, and the declarations among them mean what they say themselves. -/
theorem means_of_machine {header : MachineHeader} {span : Span}
    (hnode : node.machine? = some header) (hbody : header.body = .root nodes span)
    (hnodes : ∀ n ∈ nodes, n.IsStatement)
    (h : ∀ n ∈ nodes, ∀ (scope : ScopeId) (s t : Session) (value? : Option Automaton),
      scope < s.scopes.size → s.scopes.Collects scope machineNames →
      standard maxLayers n scope s = (.ok value?, t) → t.scopes.Means scope n)
    (hscope : scope < s.scopes.size) (hok : standard maxLayers node scope s = (.ok value?, t)) :
    t.scopes.Means scope node := by
  have hextends : Session.Extends s.scopes.size
      { s with scopes := s.scopes.opened scope header.name.name machineBindings }
      (standard maxLayers (.root nodes span) s.scopes.size
        { s with scopes := s.scopes.opened scope header.name.name machineBindings }).2 :=
    body_extends (by decide) fun n hn _ _ => extends_of_isStatement (hnodes n hn)
  rw [standard_machine hnode, hbody] at hok
  have hcases := @Evaluator.declareBody_cases _ _ _ _
    (collectedMachine header.kind header.name.name header.tapes node.span) _ _ hscope hextends
  rw [Handler.eq_ok_of_statement hok] at hcases
  cases hcases with
  | @done value? u a hdeclares hvisit hbuild =>
    rw [hvisit] at hextends
    have hopened : s.scopes.size < (s.scopes.opened scope header.name.name machineBindings).size :=
      ScopeTree.size_lt_size_opened
    have hcollects : (s.scopes.opened scope header.name.name machineBindings).Collects s.scopes.size
        machineNames :=
      ScopeTree.collects_opened (by decide)
    -- The scope of the body has collected what its statements say, and the declarations among them
    -- are done.
    rw [standard_root] at hvisit
    have hstatements := Handler.eq_ok_of_statement hvisit
    have hholds := @holdsMachine_of_statements maxLayers [] nodes s.scopes.size
      { s with scopes := s.scopes.opened scope header.name.name machineBindings } u hnodes
        hopened hcollects
      ScopeTree.holdsMachine_opened hstatements
    have hmeans := @means_of_statements maxLayers nodes s.scopes.size
      { s with scopes := s.scopes.opened scope header.name.name machineBindings } u hnodes
        hopened hcollects
      (fun n hn => h n hn _) hstatements
    obtain ⟨m, hm, rfl⟩ := hholds.describes hbuild
    exact .machine hnode hbody (hextends.binding?_closed hscope hdeclares)
      (hextends.result?_closed hscope) hm fun n hn =>
      (hmeans n hn).of_keeps (hextends.keeps_closed hscope hdeclares)

/-- A production adds its alternatives to those that a scope has collected. -/
theorem binding?_of_isProduction {before : List Production} (h : node.IsProduction)
    (hscope : scope < s.scopes.size)
    (hbefore : (s.scopes.get scope).binding? productionsName =
      some ⟨productionsName, some (.productions before)⟩)
    (hok : standard maxLayers node scope s = (.ok value?, t)) :
    (t.scopes.get scope).binding? productionsName =
      some ⟨productionsName, some (.productions (before ++ node.productions))⟩ := by
  obtain ⟨head, hitems, span⟩ := h
  rename_i alternatives
  rw [standard_production] at hok
  obtain ⟨bodies, hbodies, hok⟩ := Evaluator.of_ofExcept_bind_eq_ok (Handler.eq_ok_of_statement hok)
  obtain rfl := mapM_productionBody_eq hbodies
  rw [ScopeTree.eq_of_update hbefore (Evaluator.of_changeScopes_eq_ok hok),
    ScopeTree.get_modify hscope, Scope.binding?_set_self (Scope.declares_iff_exists.2 ⟨_, hbefore⟩)]
  show some (⟨_, some (.productions (before ++ _))⟩ : Binding) = _
  rw [List.map_map]
  rfl

/-- The productions of the body of a grammar are collected in their order: each statement puts its
own behind those that stood there before. -/
theorem binding?_of_productions {before : List Production} (hnodes : ∀ n ∈ nodes, n.IsProduction)
    (hscope : scope < s.scopes.size) (hcollects : s.scopes.Collects scope [productionsName])
    (hbefore : (s.scopes.get scope).binding? productionsName = some ⟨productionsName,
      some (.productions before)⟩)
    (hok : Evaluator.statements (standard maxLayers) nodes scope s = (.ok (), t)) :
    (t.scopes.get scope).binding? productionsName =
      some ⟨productionsName, some (.productions (before ++ nodes.flatMap Node.productions))⟩ := by
  induction nodes generalizing before s with
  | nil =>
    cases hok
    rw [List.flatMap_nil, List.append_nil]
    exact hbefore
  | cons node nodes ih =>
    obtain ⟨hnode, hnodes⟩ := List.forall_mem_cons.1 hnodes
    -- As for the statements of a machine, with one list that grows.
    have hextends := @extends_of_isProduction maxLayers _ _ _ hnode hscope hcollects
    obtain ⟨value?, u, hvisit, hok⟩ := Evaluator.of_statements_cons_eq_ok hok
    rw [hvisit] at hextends
    rw [List.flatMap_cons, ← List.append_assoc]
    exact ih hnodes (Nat.lt_of_lt_of_le hscope hextends.size_le) (hextends.collects hcollects)
      (binding?_of_isProduction hnode hscope hbefore hvisit) hok

/-- The declaration of a grammar means what its productions say: its result has them in their order,
with the start symbol that is declared, or else the first head. -/
theorem means_of_grammar {name : Identifier} {start : Option Identifier} {inner span : Span}
    (hnodes : ∀ n ∈ nodes, n.IsProduction) (hscope : scope < s.scopes.size)
    (hok : standard maxLayers (.grammar name start (.root nodes inner) span) scope s =
      (.ok value?, t)) :
    t.scopes.Means scope (.grammar name start (.root nodes inner) span) := by
  have hnames : [productionsName].all fun name => grammarBindings.any (·.name == name) := by decide
  have hextends : Session.Extends s.scopes.size
      { s with scopes := s.scopes.opened scope name.name grammarBindings }
      (standard maxLayers (.root nodes inner) s.scopes.size
        { s with scopes := s.scopes.opened scope name.name grammarBindings }).2 :=
    body_extends hnames fun n hn _ _ => extends_of_isProduction (hnodes n hn)
  rw [standard_grammar] at hok
  have hcases :=
    @Evaluator.declareBody_cases _ _ _ _ (collectedGrammar name.name start span) _ _ hscope hextends
  rw [Handler.eq_ok_of_statement hok] at hcases
  -- Among the ways to end, only one gives no error.
  cases hcases with
  | @done value? u a hdeclares hvisit hbuild =>
    rw [hvisit] at hextends
    have hopened : s.scopes.size < (s.scopes.opened scope name.name grammarBindings).size :=
      ScopeTree.size_lt_size_opened
    have hnone : ((s.scopes.opened scope name.name grammarBindings).get s.scopes.size).binding?
        productionsName =
        some ⟨productionsName, some (.productions [])⟩ := by
      rw [ScopeTree.get_opened_self]
      rfl
    -- The body collects its productions in the scope that was opened for it.
    rw [standard_root] at hvisit
    have hstatements := Handler.eq_ok_of_statement hvisit
    have hproductions := @binding?_of_productions maxLayers nodes s.scopes.size
      { s with scopes := s.scopes.opened scope name.name grammarBindings } u [] hnodes hopened
      (ScopeTree.collects_opened hnames) hnone hstatements
    obtain ⟨g, hg, rfl⟩ := describedBy_of_collectedGrammar hproductions hbuild
    exact .grammar (hextends.binding?_closed hscope hdeclares) (hextends.result?_closed hscope) hg

/-- A statement that is evaluated means what it says, by induction over nested bodies: a declaration
is built of its own statements, and these mean what they say. -/
theorem means_of_isStatement (h : node.IsStatement) (hscope : scope < s.scopes.size)
    (hcollects : s.scopes.Collects scope machineNames)
    (hok : standard maxLayers node scope s = (.ok value?, t)) :
    t.scopes.Means scope node := by
  induction h generalizing scope s t value? with
  | finite _ hnodes _ _ ih =>
    exact means_of_machine rfl rfl hnodes (fun n hn _ _ _ _ => ih n hn) hscope hok
  | pushdown _ _ hnodes _ _ ih =>
    exact means_of_machine rfl rfl hnodes (fun n hn _ _ _ _ => ih n hn) hscope hok
  | turing _ _ hnodes _ _ ih =>
    exact means_of_machine rfl rfl hnodes (fun n hn _ _ _ _ => ih n hn) hscope hok
  | grammar _ _ hnodes => exact means_of_grammar hnodes hscope hok
  | transition h => cases h <;> exact .other rfl nofun
  | _ => exact .other rfl nofun

end Visit

/-- After a program is evaluated, in a session on which others may have been evaluated, every
declaration with a body in it means what its own statements say. -/
theorem Session.evaluateIn_means (maxLayers : Nat) {modules : List Node} {tree : Node} {t : Session}
    (hmodules : ∀ m ∈ modules, m.Parsed) (htree : tree.Parsed)
    (hok : (HandlerTable.standard maxLayers).evaluateIn tree ScopeTree.root
      (Session.start.afterModules maxLayers modules) = (.ok (), t)) :
    ∃ nodes span, tree = .root nodes span ∧ ∀ n ∈ nodes, t.scopes.Means ScopeTree.root n := by
  have hmodule : ∀ {m : Node}, m.Parsed → m.IsModule :=
    fun ⟨_, _, hparse⟩ => isModule_of_parseProgram hparse
  have hs : Extends ScopeTree.root .start (Session.start.afterModules maxLayers modules) :=
    extends_afterModules (fun m hm => hmodule (hmodules m hm)) (.refl _ _)
  obtain ⟨nodes, span, rfl, hnodes⟩ := hmodule htree
  rw [HandlerTable.evaluateIn_root] at hok
  refine ⟨nodes, span, rfl, ?_⟩
  exact Visit.means_of_statements hnodes (Nat.lt_of_lt_of_le Nat.one_pos hs.size_le)
    (hs.collects (.inl rfl)) (fun n hn _ _ _ => Visit.means_of_isStatement (hnodes n hn)) hok

/-- A machine with two tapes that has a machine and a grammar in its body. Some of the values of its
transition are for a tape by name. -/
def nestedProgram : String := "turing m tapes [x, y] \x7b
  finite n \x7b
    q a -> r
    initial q
    final r
  \x7d
  grammar g \x7b <S> -> \"x\" \"\" \x7d
  p [y: a, b] -> q [y: c] [y: <, >]
  initial p
  final q \x7d"

/-- The machine around the others: the values without a name are for its first tape. -/
def outerMachine : Machine .turing :=
  Machine.build {
    transitions :=
      [⟨"p", [['b'], ['a']], "q", TapeAction.mk [epsilon, ['c']] [.right, .left]⟩]
    initial := "p"
    finals := .single "q"
    tapes := ["x", "y"]
    bounded := false }

/-- The machine inside, written out as a definition to compare with. -/
def innerMachine : Machine .finite :=
  Machine.build {
    transitions := [⟨"q", [['a']], "r", ()⟩]
    initial := "q"
    finals := .single "r"
    tapes := [Machine.defaultTape]
    bounded := true }

/-- The names of the program stand for these machines and this grammar. -/
def NestedResults (t : ScopeTree) : Prop :=
  (t.get ScopeTree.root).binding? "m" = some ⟨"m", some (.declaration 1)⟩ ∧
    t.result? 1 = some (.machine outerMachine) ∧
    (t.get 1).binding? "n" = some ⟨"n", some (.declaration 2)⟩ ∧
    t.result? 2 = some (.machine innerMachine) ∧
    (t.get 1).binding? "g" = some ⟨"g", some (.declaration 3)⟩ ∧
    t.result? 3 = some (.grammar ⟨"S", [⟨"S", [.terminal "x"]⟩]⟩)

instance (t : ScopeTree) : Decidable (NestedResults t) :=
  inferInstanceAs (Decidable (_ ∧ _))

/-- A machine with a machine and a grammar in its body is evaluated, and each means what its own
statements say. -/
theorem Session.evaluateIn_means_nested : ∃ tree t nodes span, tree.Parsed ∧
    (HandlerTable.standard 9).evaluateIn tree ScopeTree.root .start = (.ok (), t) ∧
    tree = .root nodes span ∧ (∀ n ∈ nodes, t.scopes.Means ScopeTree.root n) ∧
    NestedResults t.scopes := by
  -- One run settles that the program is parsed and evaluated and which machines it builds; that
  -- they mean what is written follows from the theorem.
  have hevaluates : (parseProgram nestedProgram).toOption.any (fun result =>
      ((HandlerTable.standard 9).evaluateIn result.1 ScopeTree.root .start).1.isOk &&
        decide (NestedResults
          ((HandlerTable.standard 9).evaluateIn result.1 ScopeTree.root .start).2.scopes)) =
            true := by
    decide +kernel
  obtain ⟨⟨tree, tokens⟩, htree, hevaluates⟩ := (Option.any_eq_true _ _).1 hevaluates
  have htree : tree.Parsed := Node.parsed_of_toOption htree
  generalize hresult :
    (HandlerTable.standard 9).evaluateIn tree ScopeTree.root .start = result at hevaluates
  obtain ⟨e | _, t⟩ := result
  · cases hevaluates
  · obtain ⟨nodes, span, hroot, hmeans⟩ :=
      evaluateIn_means 9 (List.forall_mem_nil Node.Parsed) htree hresult
    have hresults : NestedResults t.scopes :=
      of_decide_eq_true (Bool.and_eq_true_iff.1 hevaluates).2
    exact ⟨tree, t, nodes, span, htree, hresult, hroot, hmeans, hresults⟩

end MachineLang
