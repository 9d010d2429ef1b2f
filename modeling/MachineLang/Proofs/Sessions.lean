import MachineLang.Proofs.Frames
import MachineLang.Proofs.Shapes

/-!
# Sessions

One session may evaluate many modules in the outermost scope, and goes on when one of them fails.
Every module extends the outermost scope (`Session.afterModules_extends`), so whatever fails, the
names only become more, and what they stand for, the lines and the outcomes stay. A name whose
declaration fails stays declared without a value: later uses and declarations of it fail
(`Session.afterModules_grows`).
-/

namespace MachineLang

/-- The name that a declaration declares. -/
def Node.declared? : Node → Option Identifier
  | .finite name _ _ => some name
  | .pushdown name _ _ _ => some name
  | .turing name _ _ _ => some name
  | .grammar name _ _ _ => some name
  | .assignment _ name _ _ => some name
  | _ => none

/-- The tree was read from some source, so it has the shape that the rules give. -/
def Node.Parsed (tree : Node) : Prop := ∃ source tokens, parseProgram source = .ok (tree, tokens)

/-- What a source is read as. -/
theorem parseProgram_of_toOption {source : String} {result : Node × List Token}
    (h : (parseProgram source).toOption = some result) : parseProgram source = .ok result := by
  cases hparse : parseProgram source with
  | error e =>
    rw [hparse] at h
    cases h
  | ok result' =>
    rw [hparse] at h
    cases h
    rfl

/-- The tree of a source that is read. -/
theorem Node.parsed_of_toOption {source : String} {result : Node × List Token}
    (h : (parseProgram source).toOption = some result) : result.1.Parsed :=
  ⟨source, result.2, parseProgram_of_toOption h⟩

/-- The session after some modules were evaluated in turn in the outermost scope, each of which may
fail. -/
def Session.afterModules (maxLayers : Nat) (s : Session) : List Node → Session
  | [] => s
  | m :: modules =>
    afterModules maxLayers ((HandlerTable.standard maxLayers).evaluateIn m ScopeTree.root s).2
      modules

/-! ## Declarations that fail -/

/-- A statement fails if what it does fails. -/
theorem Handler.statement_eq_error_iff {x : Evaluator Unit} {s t : Session} {e : EvaluationError} :
    Handler.statement x s = (.error e, t) ↔ x s = (.error e, t) := by
  unfold Handler.statement
  rw [Evaluator.bind_apply]
  obtain ⟨e' | _, t'⟩ := x s
  · constructor
    · rintro ⟨⟩
      rfl
    · rintro ⟨⟩
      rfl
  · exact iff_of_false nofun nofun

namespace Evaluator

variable {visit : Visit} {name : Identifier} {bindings : List Binding} {body : Node}
  {build : ScopeTree → ScopeId → Except EvaluationError Automaton} {scope : ScopeId} {s t : Session}
  {e : EvaluationError}

/-- A declaration with a body that fails leaves its name without a value, unless it was declared
before. -/
theorem DeclaresBody.binding?_of_error
    (h : DeclaresBody visit name bindings body build scope s (.error e, t))
    (hscope : scope < s.scopes.size) (hdeclares : (s.scopes.get scope).declares name.name = false)
    (hbody : Session.Extends s.scopes.size
      { s with scopes := s.scopes.opened scope name.name bindings }
      (visit body s.scopes.size { s with scopes := s.scopes.opened scope name.name bindings }).2) :
    (t.scopes.get scope).binding? name.name = some ⟨name.name, none⟩ := by
  -- The name is declared before the body runs, and only success gives it a value.
  cases h with
  | redeclared h => exact absurd h (Bool.eq_false_iff.1 hdeclares)
  | bodyFails _ hvisit =>
    rw [hvisit] at hbody
    rw [hbody.get_of_opened hscope]
    exact Scope.binding?_declare_self hdeclares
  | buildFails _ hvisit =>
    rw [hvisit] at hbody
    rw [hbody.get_of_opened hscope]
    exact Scope.binding?_declare_self hdeclares

/-- A declaration by an expression that fails leaves its name without a value, unless it was
declared before. -/
theorem Assigns.binding?_of_error {kind : MachineKind} {value : Node}
    (h : Assigns visit kind name value scope s (.error e, t)) (hscope : scope < s.scopes.size)
    (hdeclares : (s.scopes.get scope).declares name.name = false) :
    (t.scopes.get scope).binding? name.name = some ⟨name.name, none⟩ := by
  have hget : ((s.scopes.modify scope (Scope.declare · name.name)).get scope).binding? name.name =
      some ⟨name.name, none⟩ := by
    rw [ScopeTree.get_modify hscope]
    exact Scope.binding?_declare_self hdeclares
  cases h with
  | redeclared h => exact absurd h (Bool.eq_false_iff.1 hdeclares)
  | valueFails => exact hget
  | kindDiffers => exact hget

end Evaluator

namespace Visit

variable {maxLayers : Nat} {node : Node} {name : Identifier} {scope : ScopeId} {s t : Session}
  {e : EvaluationError}

/-- How a statement that declares a name can do it: as one of the declarations with a body, or by an
expression. -/
theorem declared?_cases (h : node.IsStatement) (hname : node.declared? = some name) :
    PlainName name.name ∧
      ((∃ bindings body build,
          standard maxLayers node scope = Handler.statement
            (Evaluator.declareBody (standard maxLayers) name bindings body build scope) ∧
          ∀ s : Session, Session.Extends s.scopes.size
            { s with scopes := s.scopes.opened scope name.name bindings }
            (standard maxLayers body s.scopes.size
              { s with scopes := s.scopes.opened scope name.name bindings }).2) ∨
        ∃ kind value,
          standard maxLayers node scope = Handler.statement
            (Evaluator.assign (standard maxLayers) kind name value scope) ∧
          ∀ t, (Evaluator.expression (standard maxLayers) value scope t).2 = t) := by
  have hmachine : ∀ nodes inner, (∀ n ∈ nodes, n.IsStatement) → ∀ s : Session,
      Session.Extends s.scopes.size
        { s with scopes := s.scopes.opened scope name.name machineBindings }
        (standard maxLayers (.root nodes inner) s.scopes.size
          { s with scopes := s.scopes.opened scope name.name machineBindings }).2 :=
    fun nodes inner h s => body_extends (by decide) fun node hnode _ _ =>
      extends_of_isStatement (h node hnode)
  -- Statements that declare no name are excluded by the name; each other one is of one of both
  -- forms.
  cases h with
  | finite hplain h inner =>
    cases hname
    exact ⟨hplain, .inl ⟨_, _, _, standard_machine rfl, hmachine _ inner h⟩⟩
  | pushdown hplain _ h inner =>
    cases hname
    exact ⟨hplain, .inl ⟨_, _, _, standard_machine rfl, hmachine _ inner h⟩⟩
  | turing hplain _ h inner =>
    cases hname
    exact ⟨hplain, .inl ⟨_, _, _, standard_machine rfl, hmachine _ inner h⟩⟩
  | grammar hplain _ h inner =>
    cases hname
    have hcollects : [productionsName].all fun name => grammarBindings.any (·.name == name) := by
      decide
    exact ⟨hplain, .inl ⟨_, _, _, standard_grammar, fun s =>
      body_extends hcollects fun node hnode _ _ => extends_of_isProduction (h node hnode)⟩⟩
  | assignment kind hplain hvalue =>
    cases hname
    exact ⟨hplain, .inr ⟨_, _, standard_assignment, fun t =>
      (Evaluator.expression_session _ _ _ _).trans (expression_session hvalue)⟩⟩
  | transition h => cases h <;> cases hname
  | _ => cases hname

/-- A name cannot be declared again. -/
theorem eq_redefinition (h : node.IsStatement) (hname : node.declared? = some name)
    (hdeclares : (s.scopes.get scope).declares name.name = true) :
    standard maxLayers node scope s = (.error (.redefinition name.name name.span), s) := by
  obtain ⟨-, ⟨bindings, body, build, hvisit, -⟩ | ⟨kind, value, hvisit, -⟩⟩ :=
    @declared?_cases maxLayers node name scope h hname
  · rw [hvisit, Handler.statement_eq_error_iff]
    exact if_pos hdeclares
  · rw [hvisit, Handler.statement_eq_error_iff, Evaluator.assign_apply]
    exact if_pos hdeclares

/-- A declaration that fails leaves its name without a value, unless it was declared before. -/
theorem binding?_of_error (h : node.IsStatement) (hname : node.declared? = some name)
    (hscope : scope < s.scopes.size) (hdeclares : (s.scopes.get scope).declares name.name = false)
    (hfails : standard maxLayers node scope s = (.error e, t)) :
    (t.scopes.get scope).binding? name.name = some ⟨name.name, none⟩ := by
  obtain ⟨-, ⟨bindings, body, build, hvisit, hbody⟩ | ⟨kind, value, hvisit, hvalue⟩⟩ :=
    @declared?_cases maxLayers node name scope h hname
  · rw [hvisit, Handler.statement_eq_error_iff] at hfails
    have hcases := @Evaluator.declareBody_cases _ _ _ _ build _ _ hscope (hbody s)
    rw [hfails] at hcases
    exact hcases.binding?_of_error hscope hdeclares (hbody s)
  · rw [hvisit, Handler.statement_eq_error_iff] at hfails
    have hcases := @Evaluator.assign_cases _ name _ s kind _ hscope hvalue
    rw [hfails] at hcases
    exact hcases.binding?_of_error hscope hdeclares

end Visit

/-! ## Modules -/

namespace HandlerTable

variable {maxLayers : Nat} {nodes after : List Node} {node : Node} {span : Span} {s t r : Session}
  {e : EvaluationError}

/-- A module is evaluated by evaluating its statements in turn. -/
theorem evaluateIn_root : (standard maxLayers).evaluateIn (.root nodes span) ScopeTree.root s =
    Evaluator.statements (Visit.standard maxLayers) nodes ScopeTree.root s := by
  rw [evaluateIn_eq, Evaluator.discard_apply, Visit.standard_root]
  unfold Handler.statement
  rw [Evaluator.bind_apply]
  obtain ⟨e | _, t⟩ := Evaluator.statements (Visit.standard maxLayers) nodes ScopeTree.root s
  · rfl
  · rfl

/-- A module ends where one of its statements fails: what those in front of it have done stays, and
those behind it are not evaluated. -/
theorem evaluateIn_of_fails
    (hnodes : (standard maxLayers).evaluateIn (.root nodes span) ScopeTree.root s = (.ok (), t))
    (hnode : (standard maxLayers).evaluateIn node ScopeTree.root t = (.error e, r)) :
    (standard maxLayers).evaluateIn (.root (nodes ++ node :: after) span) ScopeTree.root s =
      (.error e, r) := by
  rw [evaluateIn_root] at hnodes ⊢
  rw [evaluateIn_eq, Evaluator.discard_apply] at hnode
  rw [Evaluator.statements_append, hnodes]
  show Evaluator.statements (Visit.standard maxLayers) (node :: after) ScopeTree.root t = _
  rw [Evaluator.statements_cons]
  generalize Visit.standard maxLayers node ScopeTree.root t = result at *
  obtain ⟨e' | _, t'⟩ := result
  · exact hnode
  · cases hnode

end HandlerTable

namespace Session

variable {maxLayers : Nat} {s t : Session} {m : Node} {modules : List Node}

/-- A module extends the outermost scope. -/
theorem extends_evaluateIn (hm : m.IsModule) (hs : Extends ScopeTree.root .start s) :
    Extends ScopeTree.root s
      ((HandlerTable.standard maxLayers).evaluateIn m ScopeTree.root s).2 := by
  obtain ⟨nodes, span, rfl, hnodes⟩ := hm
  have hscope : ScopeTree.root < s.scopes.size := Nat.lt_of_lt_of_le Nat.one_pos hs.size_le
  have hcollects : s.scopes.Collects ScopeTree.root machineNames := hs.collects (.inl rfl)
  rw [HandlerTable.evaluateIn_root]
  exact Evaluator.statements_extends hscope hcollects fun node hnode t =>
    Visit.extends_of_isStatement (hnodes node hnode)

/-- Modules extend the outermost scope, whether they fail or not. -/
theorem extends_afterModules (hmodules : ∀ m ∈ modules, m.IsModule)
    (hs : Extends ScopeTree.root .start s) :
    Extends ScopeTree.root s (s.afterModules maxLayers modules) := by
  induction modules generalizing s with
  | nil => exact .refl _ _
  | cons m modules ih =>
    obtain ⟨hm, hmodules⟩ := List.forall_mem_cons.1 hmodules
    have hfirst := @extends_evaluateIn maxLayers _ _ hm hs
    exact hfirst.trans (ih hmodules (hs.trans hfirst))

/-- A later state of a session: what it declares, its lines and its outcomes only became more. -/
structure Grows (s t : Session) : Prop where
  /-- Names are only added, behind those that are there. -/
  prefix_names : (s.scopes.get ScopeTree.root).names <+: (t.scopes.get ScopeTree.root).names
  /-- No name is there twice. -/
  nodup : (t.scopes.get ScopeTree.root).names.Nodup
  /-- A name that stands for a declaration goes on standing for the same automaton. -/
  automaton : ∀ name id, s.scopes.lookup ScopeTree.root name = .ok (.declaration id) →
    t.scopes.lookup ScopeTree.root name = .ok (.declaration id) ∧
      ∃ a, s.scopes.result? id = some a ∧ t.scopes.result? id = some a
  /-- Lines are only added. -/
  prefix_output : s.output <+: t.output
  /-- Outcomes are only added. -/
  prefix_tests : s.tests <+: t.tests

/-- A name is declared and stays without a value: it can neither be used nor be declared again. -/
structure Undefines (maxLayers : Nat) (name : String) (s : Session) : Prop where
  /-- It is declared. -/
  mem_names : name ∈ (s.scopes.get ScopeTree.root).names
  /-- It cannot be looked up. -/
  lookup_eq : s.scopes.lookup ScopeTree.root name = .error (.usedBeforeDefinition name)
  /-- It cannot be used. -/
  automatonOf_eq : ∀ span, Evaluator.automatonOf ⟨name, span⟩ ScopeTree.root s =
    (.error (.usedBeforeDefinition name span), s)
  /-- A module that gets as far as to declare it fails. -/
  redeclaration : ∀ nodes node after span id t, (Node.root (nodes ++ node :: after) span).Parsed →
    node.declared? = some ⟨name, id⟩ →
    (HandlerTable.standard maxLayers).evaluateIn (.root nodes span) ScopeTree.root s = (.ok (), t) →
    (HandlerTable.standard maxLayers).evaluateIn (.root (nodes ++ node :: after) span)
      ScopeTree.root s =
      (.error (.redefinition name id), t)

/-- A name that stands for a declaration in the outermost scope stands for an automaton, which
stays. -/
theorem Extends.grows (hs : Extends ScopeTree.root .start s) (h : Extends ScopeTree.root s t) :
    Grows s t where
  prefix_names := h.scope_extends.prefix_names
  nodup := (hs.trans h).scope_extends.nodup .nil
  automaton name id hlookup := by
    -- Names of the outermost scope have no scope around them in which they could be found instead.
    obtain ⟨owner, howner⟩ := ScopeTree.of_lookup hlookup
    have hcollects : s.scopes.Collects ScopeTree.root [name] := hs.collects (.inl rfl)
    obtain rfl := hcollects.owner_eq List.mem_cons_self howner
    have hb := ScopeTree.binding?_of_owner howner
    obtain ⟨a, ha⟩ : ∃ a, s.scopes.result? id = some a := by
      rcases hs.declared name id hb with hb | hresult
      · cases hb
      · exact Option.isSome_iff_exists.1 hresult
    refine ⟨ScopeTree.lookup_of_binding? (h.scope_extends.declaration name id hb), a, ha, ?_⟩
    rw [h.result?_eq (ScopeTree.lt_size_of_result? ha)]
    exact ha
  prefix_output := h.prefix_output
  prefix_tests := h.prefix_tests

/-- A name without a value in the outermost scope stays so, whatever modules come later: it can be
neither declared again nor looked up. -/
theorem undefines_of_binding? {name : String} (hs : Extends ScopeTree.root .start s)
    (hb : (s.scopes.get ScopeTree.root).binding? name = some ⟨name, none⟩) :
    Undefines maxLayers name s where
  mem_names := Scope.declares_iff.1 (Scope.declares_iff_exists.2 ⟨_, hb⟩)
  lookup_eq := ScopeTree.lookup_of_undefined hb
  automatonOf_eq span := by
    rw [Evaluator.automatonOf_apply]
    unfold Evaluator.automatonAt
    rw [ScopeTree.lookup_of_undefined hb]
    rfl
  redeclaration nodes node after span id t hparsed hdeclared hnodes := by
    obtain ⟨source, tokens, hparse⟩ := hparsed
    obtain ⟨nodes', span', hroot, hstatements⟩ := isModule_of_parseProgram hparse
    obtain ⟨rfl, rfl⟩ := Node.root.inj hroot
    obtain ⟨hbefore, hrest⟩ := List.forall_mem_append.1 hstatements
    -- The statements in front of the declaration add to the session only, so the name is still
    -- declared.
    have hextends := @extends_evaluateIn maxLayers _ _ ⟨nodes, span, rfl, hbefore⟩ hs
    rw [hnodes] at hextends
    have hdeclares := hextends.scope_extends.declares (Scope.declares_iff_exists.2 ⟨_, hb⟩)
    refine HandlerTable.evaluateIn_of_fails hnodes ?_
    rw [HandlerTable.evaluateIn_eq, Evaluator.discard_apply,
      Visit.eq_redefinition (hrest node List.mem_cons_self) hdeclared hdeclares]

/-- A session on which modules are evaluated, some of which may fail, only grows. If one of them
fails in the declaration of a name that was not declared before, this name is declared and stays
without a value. -/
theorem afterModules_grows (maxLayers : Nat) {before after : List Node}
    (hbefore : ∀ m ∈ before, m.Parsed) (hafter : ∀ m ∈ after, m.Parsed) :
    let s := Session.start.afterModules maxLayers before
    Grows s (s.afterModules maxLayers after) ∧
      ∀ nodes node rest span name t r e, (Node.root (nodes ++ node :: rest) span).Parsed →
        node.declared? = some name →
        (HandlerTable.standard maxLayers).evaluateIn (.root nodes span) ScopeTree.root s =
          (.ok (), t) →
        name.name ∉ (t.scopes.get ScopeTree.root).names →
        (HandlerTable.standard maxLayers).evaluateIn node ScopeTree.root t = (.error e, r) →
        (HandlerTable.standard maxLayers).evaluateIn (.root (nodes ++ node :: rest) span)
          ScopeTree.root s =
            (.error e, r) ∧
          Undefines maxLayers name.name (r.afterModules maxLayers after) := by
  have hmodule : ∀ {m : Node}, m.Parsed → m.IsModule :=
    fun ⟨_, _, hparse⟩ => isModule_of_parseProgram hparse
  intro s
  have hs : Extends ScopeTree.root .start s :=
    extends_afterModules (fun m hm => hmodule (hbefore m hm)) (.refl _ _)
  refine ⟨hs.grows (extends_afterModules (fun m hm => hmodule (hafter m hm)) hs), ?_⟩
  intro nodes node rest span name t r e hparsed hdeclared hnodes hname hnode
  refine ⟨HandlerTable.evaluateIn_of_fails hnodes hnode, ?_⟩
  obtain ⟨nodes', span', hroot, hstatements⟩ := hmodule hparsed
  obtain ⟨rfl, rfl⟩ := Node.root.inj hroot
  obtain ⟨hfirst, hrest⟩ := List.forall_mem_append.1 hstatements
  have hstatement := hrest node List.mem_cons_self
  -- What stands in front of the declaration only adds to the session.
  have ht := @extends_evaluateIn maxLayers _ _ ⟨nodes, span, rfl, hfirst⟩ hs
  rw [hnodes] at ht
  have ht := hs.trans ht
  have hscope : ScopeTree.root < t.scopes.size := Nat.lt_of_lt_of_le Nat.one_pos ht.size_le
  have hvisit : Visit.standard maxLayers node ScopeTree.root t = (.error e, r) := by
    rw [HandlerTable.evaluateIn_eq, Evaluator.discard_apply] at hnode
    generalize Visit.standard maxLayers node ScopeTree.root t = result at *
    obtain ⟨e' | _, t'⟩ := result
    · cases hnode
      rfl
    · cases hnode
  have hr := @Visit.extends_of_isStatement maxLayers _ _ _ hstatement hscope
    (ht.collects (.inl rfl))
  rw [hvisit] at hr
  -- The declaration has bound its name to nothing before it failed, and later modules keep it so.
  have hb := Visit.binding?_of_error hstatement hdeclared hscope
    (Bool.eq_false_iff.2 fun h => hname (Scope.declares_iff.1 h)) hvisit
  have hplain := (@Visit.declared?_cases maxLayers node name ScopeTree.root hstatement hdeclared).1
  have hlater :=
    @extends_afterModules maxLayers _ _ (fun m hm => hmodule (hafter m hm)) (ht.trans hr)
  refine undefines_of_binding? ((ht.trans hr).trans hlater) ?_
  rw [hlater.scope_extends.binding?_eq name.name hplain.notMem_reservedNames
    (Scope.declares_iff_exists.2 ⟨_, hb⟩)]
  exact hb

/-- Whether a module is a single declaration of a name that fails in a session. -/
def failsToDeclare (maxLayers : Nat) (name : String) (s : Session) : Node → Bool
  | .root [node] _ => node.declared?.any (·.name == name) &&
    !((HandlerTable.standard maxLayers).evaluateIn node ScopeTree.root s).1.isOk
  | _ => false

/-- A module that fails to declare a name is the declaration of that name, which fails. -/
theorem of_failsToDeclare {name : String} (h : failsToDeclare maxLayers name s m = true) :
    ∃ node span id e t, m = .root [node] span ∧ node.declared? = some id ∧ id.name = name ∧
      (HandlerTable.standard maxLayers).evaluateIn node ScopeTree.root s = (.error e, t) := by
  unfold failsToDeclare at h
  split at h
  · next _ node span =>
    obtain ⟨hdeclared, herror⟩ := Bool.and_eq_true_iff.1 h
    obtain ⟨id, hid, hname⟩ := (Option.any_eq_true _ _).1 hdeclared
    generalize hresult : (HandlerTable.standard maxLayers).evaluateIn node ScopeTree.root s =
      result at herror
    obtain ⟨e | _, t⟩ := result
    · exact ⟨node, span, id, e, t, rfl, hid, beq_iff_eq.1 hname, hresult⟩
    · cases herror
  · cases h

/-- A machine without an initial state fails, and its name stays without a value when another
machine is declared behind it. -/
theorem afterModules_grows_withoutInitialState :
    ∃ tree other r, tree.Parsed ∧ other.Parsed ∧
      ((HandlerTable.standard 9).evaluateIn tree ScopeTree.root .start).2 = r ∧
      Grows .start (Session.start.afterModules 9 [other]) ∧
        Undefines 9 "b" (r.afterModules 9 [other]) := by
  -- Two programs are parsed and the first is run; the rest follows from the theorem.
  have hfails : (parseProgram "finite b \x7b final q \x7d").toOption.any
      (fun result => failsToDeclare 9 "b" .start result.1) = true := by decide +kernel
  have hother : (parseProgram "finite c \x7b initial q \x7d").toOption.isSome = true := by
    decide +kernel
  obtain ⟨⟨tree, tokens⟩, htree, hfails⟩ := (Option.any_eq_true _ _).1 hfails
  obtain ⟨⟨other, tokens'⟩, hother⟩ := Option.isSome_iff_exists.1 hother
  have htree : tree.Parsed := Node.parsed_of_toOption htree
  have hother : other.Parsed := Node.parsed_of_toOption hother
  obtain ⟨node, span, id, e, r, rfl, hid, hname, hresult⟩ := of_failsToDeclare hfails
  obtain ⟨hgrows, hundefines⟩ := afterModules_grows 9 (List.forall_mem_nil Node.Parsed)
    (List.forall_mem_singleton.2 hother)
  obtain ⟨heval, hundefined⟩ :=
    hundefines [] node [] span id .start r e htree hid rfl List.not_mem_nil hresult
  exact ⟨_, other, r, htree, hother, congrArg Prod.snd heval, hgrows, hname ▸ hundefined⟩

end Session

end MachineLang
