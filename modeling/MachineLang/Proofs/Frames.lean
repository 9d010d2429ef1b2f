import MachineLang.Proofs.Visits

/-!
# What evaluation leaves as it is

Evaluating the statements of a scope that collects the reserved names changes no other scope that
was there before, and extends this one (`Visit.extends`); evaluating an expression changes nothing
(`Visit.expression_session`). The body of a declaration is evaluated in a scope of its own, which
collects the names that its statements use, so nothing but the name of the declaration reaches the
scope around it. All of this holds whether evaluation succeeds or fails.
-/

namespace MachineLang

/-- The names under which the statements of a program or of the body of a machine are collected. -/
def machineNames : List String := [initialStateName, finalStatesName, transitionsName]

/-- A later session, when evaluation stood in a scope: only this scope was extended, others were
added, and lines and outcomes were added behind those that were there. -/
structure Session.Extends (scope : ScopeId) (s t : Session) : Prop where
  /-- Scopes are only added. -/
  size_le : s.scopes.size ≤ t.scopes.size
  /-- The other scopes are what they were. -/
  get_eq : ∀ id < s.scopes.size, id ≠ scope → t.scopes.get id = s.scopes.get id
  /-- The scope is extended. -/
  scope_extends : Scope.Extends (s.scopes.get scope) (t.scopes.get scope)
  /-- What its names stand for now, if they did not before, was declared. -/
  declared : ∀ name id, (t.scopes.get scope).binding? name = some ⟨name, some (.declaration id)⟩ →
    (s.scopes.get scope).binding? name = some ⟨name, some (.declaration id)⟩ ∨
      (t.scopes.result? id).isSome = true
  /-- Lines are only added. -/
  prefix_output : s.output <+: t.output
  /-- Outcomes are only added. -/
  prefix_tests : s.tests <+: t.tests

namespace Session.Extends

variable {scope id : ScopeId} {s t r : Session} {name : String} {bindings : List Binding}
  {names : List String}

/-- Nothing was done: every session extends itself. -/
theorem refl (scope : ScopeId) (s : Session) : Extends scope s s :=
  ⟨Nat.le_refl _, fun _ _ _ => rfl, .refl _, fun _ _ => .inl, List.prefix_rfl, List.prefix_rfl⟩

/-- The results of the scopes stay. -/
theorem result?_eq (h : Extends scope s t) (hid : id < s.scopes.size) :
    t.scopes.result? id = s.scopes.result? id := by
  unfold ScopeTree.result?
  by_cases heq : id = scope
  · rw [heq]
    exact h.scope_extends.result?_eq
  · rw [h.get_eq id hid heq]

/-- One thing was done after another, and what both have added is added behind each other. So a run
over many statements extends the session that it began with. -/
theorem trans (h : Extends scope s t) (h' : Extends scope t r) : Extends scope s r where
  size_le := Nat.le_trans h.size_le h'.size_le
  get_eq id hid hne :=
    (h'.get_eq id (Nat.lt_of_lt_of_le hid h.size_le) hne).trans (h.get_eq id hid hne)
  scope_extends := h.scope_extends.trans h'.scope_extends
  declared name id hb := by
    rcases h'.declared name id hb with hb | hresult
    · -- What the first part has declared either existed before or has its result by now, and the
      -- second part keeps results.
      refine (h.declared name id hb).imp_right fun hresult => ?_
      obtain ⟨a, ha⟩ := Option.isSome_iff_exists.1 hresult
      rw [h'.result?_eq (ScopeTree.lt_size_of_result? ha)]
      exact hresult
    · exact .inr hresult
  prefix_output := h.prefix_output.trans h'.prefix_output
  prefix_tests := h.prefix_tests.trans h'.prefix_tests

/-- A scope goes on collecting names. -/
theorem collects (h : Extends scope s t) (hcollects : s.scopes.Collects scope names) :
    t.scopes.Collects scope names := by
  rcases hcollects with henclosing | hdeclares
  · exact .inl (h.scope_extends.enclosing_eq.trans henclosing)
  · exact .inr fun name hname => h.scope_extends.declares (hdeclares name hname)

/-- A session in which only one scope was changed extends the one before, as long as that scope was
extended and no new declaration is bound in it. -/
theorem of_modify {f : Scope → Scope} (hscope : scope < s.scopes.size)
    (h : Scope.Extends (s.scopes.get scope) (f (s.scopes.get scope)))
    (hdeclared : ∀ name id, (f (s.scopes.get scope)).binding? name = some
      ⟨name, some (.declaration id)⟩ →
      (s.scopes.get scope).binding? name = some ⟨name, some (.declaration id)⟩) :
    Extends scope s { s with scopes := s.scopes.modify scope f } where
  size_le := Nat.le_of_eq ScopeTree.size_modify.symm
  get_eq _ _ hne := ScopeTree.get_modify_ne hne
  scope_extends := by
    show Scope.Extends _ ((s.scopes.modify scope f).get scope)
    rw [ScopeTree.get_modify hscope]
    exact h
  declared name id hb := by
    have hb : ((s.scopes.modify scope f).get scope).binding? name = some
        ⟨name, some (.declaration id)⟩ := hb
    rw [ScopeTree.get_modify hscope] at hb
    exact .inl (hdeclared name id hb)
  prefix_output := List.prefix_rfl
  prefix_tests := List.prefix_rfl

/-- A name was declared in the scope, and nothing else changed. -/
theorem of_declare (hscope : scope < s.scopes.size)
    (h : (s.scopes.get scope).declares name = false) :
    Extends scope s { s with scopes := s.scopes.modify scope (Scope.declare · name) } :=
  .of_modify hscope (.declare h) fun _ _ => Scope.binding?_of_declare h

/-- A reserved name got another value in the scope where the evaluation stands, which extends the
session unless the name stands for a declaration. -/
theorem of_set_reserved {value : Value} (hscope : scope < s.scopes.size)
    (hname : name ∈ reservedNames)
    (hvalue : ∀ id, (s.scopes.get scope).binding? name = some ⟨name, some (.declaration id)⟩ ↔
      value = .declaration id) :
    Extends scope s { s with scopes := s.scopes.modify scope (Scope.set · name value) } := by
  refine .of_modify hscope (.set_reserved hname fun id => (hvalue id).1) fun other id hb => ?_
  by_cases heq : other = name
  · subst heq
    rw [Scope.binding?_set, if_pos rfl, Option.map_eq_some_iff] at hb
    obtain ⟨-, -, hb⟩ := hb
    exact (hvalue id).2 (by cases hb; rfl)
  · rw [Scope.binding?_set_ne heq] at hb
    exact hb

end Session.Extends

/-! ## The scopes of declarations -/

namespace ScopeTree

variable {t : ScopeTree} {scope id : ScopeId} {name : String} {bindings : List Binding}

/-- The number of scopes when a declaration begins. -/
@[simp] theorem size_opened : (t.opened scope name bindings).size = t.size + 1 := by
  unfold opened
  rw [size_push, size_modify]

/-- The scope of the body is one of the scopes. -/
theorem size_lt_size_opened : t.size < (t.opened scope name bindings).size := by
  rw [size_opened]
  exact Nat.lt_succ_self _

/-- The scopes that were there before are scopes still. -/
theorem lt_size_opened (h : id < t.size) : id < (t.opened scope name bindings).size :=
  Nat.lt_trans h size_lt_size_opened

/-- The scope of the body of a declaration at first. -/
theorem get_opened_self : (t.opened scope name bindings).get t.size =
    ⟨scope :: (t.get scope).enclosing, bindings, none⟩ := by
  have hget := get_push_self (t := t.modify scope (Scope.declare · name))
    (s := ⟨scope :: (t.get scope).enclosing, bindings, none⟩)
  rw [size_modify] at hget
  exact hget

/-- The scope of the body of a declaration collects the names that it binds. -/
theorem collects_opened {names : List String}
    (h : names.all fun name => bindings.any (·.name == name)) :
    (t.opened scope name bindings).Collects t.size names := by
  refine .inr fun reserved hreserved => ?_
  rw [get_opened_self, Scope.declares_iff]
  obtain ⟨b, hb, heq⟩ := List.any_eq_true.1 (List.all_eq_true.1 h reserved hreserved)
  exact List.mem_map.2 ⟨b, hb, beq_iff_eq.1 heq⟩

/-- The scope around a declaration when it begins. -/
theorem get_opened_scope (h : scope < t.size) :
    (t.opened scope name bindings).get scope = (t.get scope).declare name := by
  unfold opened
  rw [get_push_ne (by rw [size_modify]; exact Nat.ne_of_lt h), get_modify h]

/-- The other scopes when a declaration begins. -/
theorem get_opened_ne (h : id < t.size) (hne : id ≠ scope) :
    (t.opened scope name bindings).get id = t.get id := by
  unfold opened
  rw [get_push_ne (by rw [size_modify]; exact Nat.ne_of_lt h), get_modify_ne hne]

variable {inner : ScopeId} {result : Automaton}

/-- The number of scopes behind a declaration. -/
@[simp] theorem size_closed : (t.closed scope inner name result).size = t.size := by
  unfold closed setResult
  rw [size_modify, size_modify]

/-- The scope around a declaration behind it. -/
theorem get_closed_scope (hscope : scope < t.size) (hne : scope ≠ inner) :
    (t.closed scope inner name result).get scope = (t.get scope).set name (.declaration inner) := by
  unfold closed setResult
  rw [get_modify (by rw [size_modify]; exact hscope), get_modify_ne hne]

/-- The scope of a declaration behind it. -/
theorem get_closed_inner (hinner : inner < t.size) (hne : scope ≠ inner) :
    (t.closed scope inner name result).get inner = { t.get inner with result? := some result } := by
  unfold closed setResult
  rw [get_modify_ne hne.symm, get_modify hinner]

/-- The other scopes behind a declaration. -/
theorem get_closed_ne (hne : id ≠ scope) (hne' : id ≠ inner) :
    (t.closed scope inner name result).get id = t.get id := by
  unfold closed setResult
  rw [get_modify_ne hne, get_modify_ne hne']

end ScopeTree

namespace Session.Extends

variable {scope : ScopeId} {s t : Session} {name : String} {bindings : List Binding}
  {result : Automaton}

/-- Evaluating the body of a declaration leaves the scope around it as it is. -/
theorem get_of_opened (hscope : scope < s.scopes.size)
    (h : Extends s.scopes.size { s with scopes := s.scopes.opened scope name bindings } t) :
    t.scopes.get scope = (s.scopes.get scope).declare name := by
  have hget : (s.scopes.opened scope name bindings).get scope = (s.scopes.get scope).declare name :=
    ScopeTree.get_opened_scope hscope
  rw [← hget]
  exact h.get_eq scope (ScopeTree.lt_size_opened hscope) (Nat.ne_of_lt hscope)

/-- There are more scopes behind the body of a declaration. -/
theorem size_lt_of_opened
    (h : Extends s.scopes.size { s with scopes := s.scopes.opened scope name bindings } t) :
    s.scopes.size < t.scopes.size := by
  have hle := h.size_le
  rw [ScopeTree.size_opened] at hle
  exact hle

/-- Evaluating the body of a declaration only declares its name in the scope around it. Everything
else that the body does happens in the scope that was opened for it. -/
theorem of_opened (hscope : scope < s.scopes.size)
    (hname : (s.scopes.get scope).declares name = false)
    (h : Extends s.scopes.size { s with scopes := s.scopes.opened scope name bindings } t) :
    Extends scope s t where
  size_le := Nat.le_of_lt h.size_lt_of_opened
  get_eq id hid hne := by
    -- The scopes that existed before are untouched by the opening, and then by the body.
    have hget : (s.scopes.opened scope name bindings).get id = s.scopes.get id :=
      ScopeTree.get_opened_ne hid hne
    rw [← hget]
    exact h.get_eq id (ScopeTree.lt_size_opened hid) (Nat.ne_of_lt hid)
  scope_extends := by
    rw [h.get_of_opened hscope]
    exact .declare hname
  declared other id hb := by
    rw [h.get_of_opened hscope] at hb
    exact .inl (Scope.binding?_of_declare hname hb)
  prefix_output := h.prefix_output
  prefix_tests := h.prefix_tests

/-- A declaration that is done only adds its name and what it stands for to the scope around it. -/
theorem of_closed (hscope : scope < s.scopes.size)
    (hname : (s.scopes.get scope).declares name = false)
    (h : Extends s.scopes.size { s with scopes := s.scopes.opened scope name bindings } t) :
    Extends scope s { t with scopes := t.scopes.closed scope s.scopes.size name result } where
  size_le := by
    show _ ≤ (t.scopes.closed scope s.scopes.size name result).size
    rw [ScopeTree.size_closed]
    exact Nat.le_of_lt h.size_lt_of_opened
  get_eq id hid hne := by
    show (t.scopes.closed scope s.scopes.size name result).get id = _
    rw [ScopeTree.get_closed_ne hne (Nat.ne_of_lt hid)]
    exact (of_opened hscope hname h).get_eq id hid hne
  scope_extends := by
    show Scope.Extends _ ((t.scopes.closed scope s.scopes.size name result).get scope)
    rw [ScopeTree.get_closed_scope (Nat.lt_trans hscope h.size_lt_of_opened) (Nat.ne_of_lt hscope),
      h.get_of_opened hscope]
    exact .declare_set hname
  declared other id hb := by
    have hb : ((t.scopes.closed scope s.scopes.size name result).get scope).binding? other =
      some ⟨other, some (.declaration id)⟩ := hb
    rw [ScopeTree.get_closed_scope (Nat.lt_trans hscope h.size_lt_of_opened) (Nat.ne_of_lt hscope),
      h.get_of_opened hscope] at hb
    -- The only name that is newly declared is the statement's own, and its scope has a result by
    -- now.
    by_cases heq : other = name
    · subst heq
      rw [Scope.binding?_set_self
        (Scope.declares_iff_exists.2 ⟨_, Scope.binding?_declare_self hname⟩)] at hb
      obtain rfl : s.scopes.size = id := by cases hb; rfl
      refine .inr ?_
      show
        ((t.scopes.closed scope s.scopes.size other result).get s.scopes.size).result?.isSome = true
      rw [ScopeTree.get_closed_inner h.size_lt_of_opened (Nat.ne_of_lt hscope)]
      rfl
    · rw [Scope.binding?_set_ne heq] at hb
      exact .inl (Scope.binding?_of_declare hname hb)
  prefix_output := h.prefix_output
  prefix_tests := h.prefix_tests

end Session.Extends

/-! ## Declarations -/

namespace Evaluator

/-- How a declaration with a body can end: with what result, and in which session. -/
inductive DeclaresBody (visit : Visit) (name : Identifier) (bindings : List Binding) (body : Node)
    (build : ScopeTree → ScopeId → Except EvaluationError Automaton) (scope : ScopeId)
    (s : Session) :
    Except EvaluationError Unit × Session → Prop
  /-- The name is declared already. -/
  | redeclared (hdeclares : (s.scopes.get scope).declares name.name = true) :
      DeclaresBody visit name bindings body build scope s
        (.error (.redefinition name.name name.span), s)
  /-- The body fails. -/
  | bodyFails {e : EvaluationError} {t : Session}
      (hdeclares : (s.scopes.get scope).declares name.name = false)
      (hbody : visit body s.scopes.size
        { s with scopes := s.scopes.opened scope name.name bindings } = (.error e, t)) :
      DeclaresBody visit name bindings body build scope s (.error e, t)
  /-- Nothing can be made from what the body collected. -/
  | buildFails {value? : Option Automaton} {e : EvaluationError} {t : Session}
      (hdeclares : (s.scopes.get scope).declares name.name = false)
      (hbody : visit body s.scopes.size
        { s with scopes := s.scopes.opened scope name.name bindings } = (.ok value?, t))
      (hbuild : build t.scopes s.scopes.size = .error e) :
      DeclaresBody visit name bindings body build scope s (.error e, t)
  /-- The declaration gets its result. -/
  | done {value? : Option Automaton} {t : Session} {result : Automaton}
      (hdeclares : (s.scopes.get scope).declares name.name = false)
      (hbody : visit body s.scopes.size
        { s with scopes := s.scopes.opened scope name.name bindings } = (.ok value?, t))
      (hbuild : build t.scopes s.scopes.size = .ok result) :
      DeclaresBody visit name bindings body build scope s
        (.ok (), { t with scopes := t.scopes.closed scope s.scopes.size name.name result })

variable {visit : Visit} {name : Identifier} {bindings : List Binding} {body : Node}
  {build : ScopeTree → ScopeId → Except EvaluationError Automaton} {scope : ScopeId} {s : Session}

/-- A declaration ends in one of these ways if its body is evaluated in its own scope. -/
theorem declareBody_cases (hscope : scope < s.scopes.size)
    (hbody : Session.Extends s.scopes.size
      { s with scopes := s.scopes.opened scope name.name bindings }
      (visit body s.scopes.size { s with scopes := s.scopes.opened scope name.name bindings }).2) :
    DeclaresBody visit name bindings body build scope s
      (declareBody visit name bindings body build scope s) := by
  unfold declareBody
  split_ifs with hdeclares
  · exact .redeclared hdeclares
  · have hdeclares := Bool.eq_false_iff.2 hdeclares
    -- The name is declared in a new scope; what follows depends on how the body ends there.
    generalize hvisit : visit body s.scopes.size _ = result at hbody
    obtain ⟨e | value?, t⟩ := result
    · exact .bodyFails hdeclares hvisit
    · dsimp only
      cases hbuild : build t.scopes s.scopes.size with
      | error e => exact .buildFails hdeclares hvisit hbuild
      | ok result =>
        dsimp only
        -- The name is still without a value in the outer scope, since the body changed only its
        -- own.
        rw [finish_apply ?_ (Nat.ne_of_lt hscope)]
        · exact .done hdeclares hvisit hbuild
        · rw [hbody.get_of_opened hscope]
          exact Scope.binding?_declare_self hdeclares

/-- A declaration only adds its name to the scope that it stands in, in whichever way it ends:
refused, failed in its body, or finished with a result. -/
theorem DeclaresBody.extends {result : Except EvaluationError Unit × Session}
    (h : DeclaresBody visit name bindings body build scope s result)
    (hscope : scope < s.scopes.size)
    (hbody : Session.Extends s.scopes.size
      { s with scopes := s.scopes.opened scope name.name bindings }
      (visit body s.scopes.size { s with scopes := s.scopes.opened scope name.name bindings }).2) :
    Session.Extends scope s result.2 := by
  -- In whichever way the declaration ends, the body has run in its own scope or nothing has
  -- happened.
  cases h with
  | redeclared => exact .refl _ _
  | bodyFails hdeclares hvisit =>
    rw [hvisit] at hbody
    exact .of_opened hscope hdeclares hbody
  | buildFails hdeclares hvisit =>
    rw [hvisit] at hbody
    exact .of_opened hscope hdeclares hbody
  | done hdeclares hvisit =>
    rw [hvisit] at hbody
    exact .of_closed hscope hdeclares hbody

/-- How a declaration by an expression can end: with what result, and in which session. -/
inductive Assigns (visit : Visit) (kind : MachineKind) (name : Identifier) (value : Node)
    (scope : ScopeId) (s : Session) : Except EvaluationError Unit × Session → Prop
  /-- The name is declared already. -/
  | redeclared (hdeclares : (s.scopes.get scope).declares name.name = true) :
    Assigns visit kind name value scope s (.error (.redefinition name.name name.span), s)
  /-- The expression fails. -/
  | valueFails {e : EvaluationError} (hdeclares : (s.scopes.get scope).declares name.name = false)
      (hvalue : (expression visit value scope
        { s with scopes := s.scopes.modify scope (Scope.declare · name.name) }).1 = .error e) :
    Assigns visit kind name value scope s
      (.error e, { s with scopes := s.scopes.modify scope (Scope.declare · name.name) })
  /-- The expression stands for an automaton of another kind. -/
  | kindDiffers {a : Automaton} (hdeclares : (s.scopes.get scope).declares name.name = false)
      (hvalue : (expression visit value scope
        { s with scopes := s.scopes.modify scope (Scope.declare · name.name) }).1 = .ok a)
      (hkind : a.kind? ≠ some kind) :
    Assigns visit kind name value scope s (.error (.kindMismatch kind.name a.kindName value.span),
      { s with scopes := s.scopes.modify scope (Scope.declare · name.name) })
  /-- The declaration gets the automaton that the expression stands for. -/
  | done {a : Automaton} (hdeclares : (s.scopes.get scope).declares name.name = false)
      (hvalue : (expression visit value scope
        { s with scopes := s.scopes.modify scope (Scope.declare · name.name) }).1 = .ok a)
      (hkind : a.kind? = some kind) :
      Assigns visit kind name value scope s (.ok (),
        { s with
          scopes := (s.scopes.opened scope name.name []).closed scope s.scopes.size name.name a })

variable {kind : MachineKind} {value : Node}

/-- A declaration by an expression ends in one of these ways if the expression changes nothing. -/
theorem assign_cases (hscope : scope < s.scopes.size)
    (hvalue : ∀ t, (expression visit value scope t).2 = t) :
    Assigns visit kind name value scope s (assign visit kind name value scope s) := by
  rw [assign_apply]
  split_ifs with hdeclares
  · exact .redeclared hdeclares
  · have hdeclares := Bool.eq_false_iff.2 hdeclares
    -- Evaluating the expression changes nothing, so the session behind it is the one with the name
    -- declared.
    have hkept := hvalue { s with scopes := s.scopes.modify scope (Scope.declare · name.name) }
    generalize hresult : expression visit value scope _ = result at hkept
    have hfirst := congrArg Prod.fst hresult
    obtain ⟨e | a, t⟩ := result
    · obtain rfl := hkept
      exact .valueFails hdeclares hfirst
    · obtain rfl := hkept
      dsimp only
      split_ifs with hkind
      · exact .kindDiffers hdeclares hfirst hkind
      · rw [enclosing_modify_declare, ScopeTree.size_modify, finish_apply ?_ (Nat.ne_of_lt hscope)]
        · exact .done hdeclares hfirst (not_not.1 hkind)
        · show ((s.scopes.opened scope name.name []).get scope).binding? name.name = _
          rw [ScopeTree.get_opened_scope hscope]
          exact Scope.binding?_declare_self hdeclares

/-- A declaration by an expression only adds its name to the scope that it stands in. -/
theorem Assigns.extends {result : Except EvaluationError Unit × Session}
    (h : Assigns visit kind name value scope s result) (hscope : scope < s.scopes.size) :
    Session.Extends scope s result.2 := by
  cases h with
  | redeclared => exact .refl _ _
  | valueFails hdeclares => exact .of_declare hscope hdeclares
  | kindDiffers hdeclares => exact .of_declare hscope hdeclares
  | @done a hdeclares =>
    have hopened : Session.Extends s.scopes.size
        { s with scopes := s.scopes.opened scope name.name [] }
        { s with scopes := s.scopes.opened scope name.name [] } := .refl _ _
    have hclosed := @Session.Extends.of_closed scope s _ name.name [] a hscope hdeclares hopened
    exact hclosed

/-! ## Other computations -/

/-- The automaton of a name, as a function of the scopes alone. -/
def automatonAt (t : ScopeTree) (name : Identifier) (scope : ScopeId) :
    Except EvaluationError Automaton :=
  match t.lookup scope name.name with
  | .error e => .error (e.at name.span)
  | .ok (.declaration declared) =>
    match t.result? declared with
    | some a => .ok a
    | none => .error (.usedBeforeDefinition name.name name.span)
  | .ok value => .error (.kindMismatch "automaton" value.sort name.span)

/-- Looking up an automaton depends only on the scopes and changes nothing. So it can be exchanged
for a pure function of the scopes (`automatonAt`) wherever sessions are compared. -/
theorem automatonOf_apply (name : Identifier) (scope : ScopeId) (s : Session) :
    automatonOf name scope s = (automatonAt s.scopes name scope, s) := by
  unfold automatonOf automatonAt
  rw [bind_apply]
  show (match s.scopes.lookup scope name.name with
    | .error e => throw (e.at name.span)
    | .ok (.declaration declared) => _
    | .ok value => _ : Evaluator Automaton) s = _
  -- Every branch returns or fails without writing to the session.
  cases s.scopes.lookup scope name.name with
  | error e => rfl
  | ok value =>
    cases value with
    | declaration declared =>
      dsimp only
      cases s.scopes.result? declared with
      | none => rfl
      | some a => rfl
    | _ => rfl

/-- Combining automata changes nothing in the session, whether it succeeds or fails. -/
theorem combine_session (op : BinaryOp) (left right : Automaton) (span : Span) (s : Session) :
    (combine op left right span s).2 = s := by
  unfold combine
  by_cases hkind : left.kind? ≠ right.kind?
  · rw [if_pos hkind]
    rfl
  · rw [if_neg hkind]
    rcases Automaton.combine op left right with _ | e | a
    · rfl
    · rfl
    · cases Automaton.canCombine op left right <;> rfl

/-- Changing an automaton changes nothing else. -/
theorem change_session (op : UnaryOp) (operand : Automaton) (span : Span) (s : Session) :
    (change op operand span s).2 = s := by
  unfold change
  split
  · split <;> rfl
  · rfl

/-- A function of what a computation gives changes nothing else. -/
theorem map_session {α β : Type} (f : α → β) (x : Evaluator α) (s : Session) :
    ((f <$> x) s).2 = (x s).2 := by
  rw [map_apply]
  rcases x s with ⟨e | a, t⟩ <;> rfl

/-- An expression is visited, and has to stand for an automaton. -/
theorem expression_apply (visit : Visit) (node : Node) (scope : ScopeId) (s : Session) :
    expression visit node scope s = match visit node scope s with
      | (.ok (some a), t) => (.ok a, t)
      | (.ok none, t) =>
        (.error (.unsupported (node.kind.tag ++ " is not an automaton expression") node.span), t)
      | (.error e, t) => (.error e, t) := by
  unfold expression
  rw [bind_apply]
  rcases visit node scope s with ⟨e | _ | a, t⟩ <;> rfl

/-- An expression changes in the session what visiting it changes, since taking its value out of
what the visit gives reads and writes nothing. -/
theorem expression_session (visit : Visit) (node : Node) (scope : ScopeId) (s : Session) :
    (expression visit node scope s).2 = (visit node scope s).2 := by
  rw [expression_apply]
  rcases visit node scope s with ⟨e | _ | a, t⟩ <;> rfl

/-- Testing an automaton on an input only adds an outcome. -/
theorem testOn_extends (maxLayers : Nat) (name : String) (automaton : Automaton) (span : Span)
    (input : String) (scope : ScopeId) (s : Session) :
    Session.Extends scope s (testOn maxLayers name automaton span input s).2 := by
  unfold testOn
  rcases automaton.testWithin [input.toList] maxLayers with _ | e | accepted
  · exact .refl _ _
  · exact .refl _ _
  · exact ⟨Nat.le_refl _, fun _ _ _ => rfl, .refl _, fun _ _ => .inl, List.prefix_rfl,
      List.prefix_append _ _⟩

/-- Testing an automaton only adds outcomes. -/
theorem forM_testOn_extends (maxLayers : Nat) (name : String) (automaton : Automaton) (span : Span)
    (inputs : List String) (scope : ScopeId) (s : Session) :
    Session.Extends scope s (inputs.forM (testOn maxLayers name automaton span) s).2 := by
  induction inputs generalizing s with
  | nil => exact .refl _ _
  | cons input inputs ih =>
    have hfirst := testOn_extends maxLayers name automaton span input scope s
    show Session.Extends scope s ((testOn maxLayers name automaton span input >>= fun _ =>
      inputs.forM (testOn maxLayers name automaton span) : Evaluator Unit) s).2
    rw [bind_apply]
    generalize testOn maxLayers name automaton span input s = result at *
    obtain ⟨e | _, t⟩ := result
    · exact hfirst
    · exact hfirst.trans (ih t)

/-- A reserved name gets a value in the scope itself: the scope collects under this name, so it is
found there and in no scope around it. -/
theorem define_extends {error : BindingError → EvaluationError} {names : List String}
    {reserved : String} {value : Value} (hvalue : ∀ declared, value ≠ .declaration declared)
    (hscope : scope < s.scopes.size) (hcollects : s.scopes.Collects scope names)
    (hname : reserved ∈ names) (hreserved : reserved ∈ reservedNames) :
    Session.Extends scope s (changeScopes error (fun t => t.define scope reserved value) s).2 := by
  rw [changeScopes_apply]
  cases hdefine : s.scopes.define scope reserved value with
  | error e => exact .refl _ _
  | ok scopes =>
    obtain ⟨owner, howner, rfl⟩ := ScopeTree.of_define hdefine
    obtain rfl := hcollects.owner_eq hname howner
    refine .of_set_reserved hscope hreserved fun declared => ?_
    rw [ScopeTree.binding?_of_owner howner]
    exact iff_of_false (by simp) (hvalue declared)

/-- The value of a reserved name is changed in the scope itself, which collects under this name, and
in no scope around it. -/
theorem update_extends {error : BindingError → EvaluationError} {names : List String}
    {reserved : String} {f : Value → Value}
    (hf : ∀ value declared, f value = .declaration declared ↔ value = .declaration declared)
    (hscope : scope < s.scopes.size) (hcollects : s.scopes.Collects scope names)
    (hname : reserved ∈ names) (hreserved : reserved ∈ reservedNames) :
    Session.Extends scope s (changeScopes error (fun t => t.update scope reserved f) s).2 := by
  rw [changeScopes_apply]
  cases hupdate : s.scopes.update scope reserved f with
  | error e => exact .refl _ _
  | ok scopes =>
    obtain ⟨owner, old, howner, rfl⟩ := ScopeTree.of_update hupdate
    obtain rfl := hcollects.owner_eq hname howner
    refine .of_set_reserved hscope hreserved fun declared => ?_
    rw [ScopeTree.binding?_of_owner howner, hf]
    simp

/-- Statements that each extend the scope extend it together, also if one of them fails and those
behind it are not evaluated. -/
theorem statements_extends {nodes : List Node} {names : List String}
    (hscope : scope < s.scopes.size) (hcollects : s.scopes.Collects scope names)
    (h : ∀ node ∈ nodes, ∀ t : Session, scope < t.scopes.size → t.scopes.Collects scope names →
      Session.Extends scope t (visit node scope t).2) :
    Session.Extends scope s (statements visit nodes scope s).2 := by
  induction nodes generalizing s with
  | nil => exact .refl _ _
  | cons node nodes ih =>
    obtain ⟨hnode, hnodes⟩ := List.forall_mem_cons.1 h
    have hfirst := hnode s hscope hcollects
    rw [statements_cons]
    generalize visit node scope s = result at *
    obtain ⟨e | _, t⟩ := result
    · exact hfirst
    · exact hfirst.trans
        (ih (Nat.lt_of_lt_of_le hscope hfirst.size_le) (hfirst.collects hcollects) hnodes)

end Evaluator

/-- A statement changes what it does. -/
theorem Handler.statement_session (x : Evaluator Unit) (s : Session) :
    (Handler.statement x s).2 = (x s).2 := by
  unfold Handler.statement
  rw [Evaluator.bind_apply]
  rcases x s with ⟨e | _, t⟩ <;> rfl

/-! ## Visits -/

namespace Visit

variable {maxLayers : Nat} {node : Node} {scope : ScopeId} {s : Session}

/-- An expression changes nothing in the session, by induction over its operands: it looks automata
up and combines them, and what it makes is stored by the statement around it. -/
theorem expression_session (h : node.IsExpression) : (standard maxLayers node scope s).2 = s := by
  -- An operand that fails ends the expression; one that succeeds leaves the session as it was, so
  -- the next starts there.
  induction h generalizing s with
  | identifier =>
    rw [standard_identifier, Evaluator.map_apply, Evaluator.automatonOf_apply]
    cases Evaluator.automatonAt s.scopes _ scope with
    | error e => rfl
    | ok a => rfl
  | @binary op left right _ _ span ihleft ihright =>
    have hleft := (Evaluator.expression_session (standard maxLayers) left scope s).trans ihleft
    have hright := (Evaluator.expression_session (standard maxLayers) right scope s).trans ihright
    rw [standard_binary, Evaluator.bind_apply]
    generalize Evaluator.expression (standard maxLayers) left scope s = result at *
    obtain ⟨e | a, t⟩ := result
    · exact hleft
    · obtain rfl : t = s := hleft
      dsimp only
      rw [Evaluator.bind_apply]
      generalize Evaluator.expression (standard maxLayers) right scope t = result at *
      obtain ⟨e | b, t'⟩ := result
      · exact hright
      · obtain rfl : t' = t := hright
        exact (Evaluator.map_session _ _ _).trans (Evaluator.combine_session op a b span t')
  | @unary op operand _ span ih =>
    have hoperand := (Evaluator.expression_session (standard maxLayers) operand scope s).trans ih
    rw [standard_unary, Evaluator.bind_apply]
    generalize Evaluator.expression (standard maxLayers) operand scope s = result at *
    obtain ⟨e | a, t⟩ := result
    · exact hoperand
    · obtain rfl : t = s := hoperand
      exact (Evaluator.map_session _ _ _).trans (Evaluator.change_session op a span t)

/-- The productions of a grammar extend the scope that collects them: they are added to its list,
and nothing else is touched. -/
theorem extends_of_isProduction (h : node.IsProduction) (hscope : scope < s.scopes.size)
    (hcollects : s.scopes.Collects scope [productionsName]) :
    Session.Extends scope s (standard maxLayers node scope s).2 := by
  obtain ⟨head, hitems, span⟩ := h
  rw [standard_production, Handler.statement_session, Evaluator.bind_apply,
    Evaluator.ofExcept_apply]
  cases List.mapM productionBody _ with
  | error e => exact .refl _ _
  | ok bodies =>
    exact Evaluator.update_extends (fun value _ => by cases value <;> simp [Value.addProductions])
      hscope hcollects List.mem_cons_self (by decide)

/-- The body of a machine extends the scope of the declaration, if its statements do. -/
theorem body_extends {nodes : List Node} {inner : Span} {name : String} {bindings : List Binding}
    {names : List String} (hnames : names.all fun name => bindings.any (·.name == name))
    (h : ∀ node ∈ nodes, ∀ (scope : ScopeId) (s : Session), scope < s.scopes.size →
      s.scopes.Collects scope names →
      Session.Extends scope s (standard maxLayers node scope s).2) :
    Session.Extends s.scopes.size { s with scopes := s.scopes.opened scope name bindings }
      (standard maxLayers (.root nodes inner) s.scopes.size
        { s with scopes := s.scopes.opened scope name bindings }).2 := by
  rw [standard_root, Handler.statement_session]
  exact Evaluator.statements_extends ScopeTree.size_lt_size_opened
    (ScopeTree.collects_opened hnames) fun node hnode t => h node hnode _ t

/-- A declaration of a machine extends the scope that it stands in, if its statements extend
theirs. -/
theorem machine_extends {header : MachineHeader} {nodes : List Node} {inner : Span}
    (hnode : node.machine? = some header) (hbody : header.body = .root nodes inner)
    (h : ∀ node ∈ nodes, ∀ (scope : ScopeId) (s : Session), scope < s.scopes.size →
      s.scopes.Collects scope machineNames →
        Session.Extends scope s (standard maxLayers node scope s).2)
    (hscope : scope < s.scopes.size) :
      Session.Extends scope s (standard maxLayers node scope s).2 := by
  obtain ⟨kind, name, tapes, body⟩ := header
  obtain rfl : body = .root nodes inner := hbody
  rw [standard_machine hnode, Handler.statement_session]
  have hextends : Session.Extends s.scopes.size
      { s with scopes := s.scopes.opened scope name.name machineBindings }
      (standard maxLayers (.root nodes inner) s.scopes.size
        { s with scopes := s.scopes.opened scope name.name machineBindings }).2 :=
    body_extends (by decide) h
  exact (Evaluator.declareBody_cases hscope hextends).extends hscope hextends

/-- A statement extends the scope that it is evaluated in, and leaves all others that existed before
as they were. The induction is over nested declarations, whose bodies run in scopes of their own. -/
theorem extends_of_isStatement (h : node.IsStatement) (hscope : scope < s.scopes.size)
    (hcollects : s.scopes.Collects scope machineNames) :
    Session.Extends scope s (standard maxLayers node scope s).2 := by
  -- The statements of a body run in the scope that the declaration opens, so the hypotheses are for
  -- any scope and session.
  induction h generalizing scope s with
  | finite _ _ _ _ ih => exact machine_extends rfl rfl (fun node hnode _ _ => ih node hnode) hscope
  | pushdown _ _ _ _ _ ih =>
    exact machine_extends rfl rfl (fun node hnode _ _ => ih node hnode) hscope
  | turing _ _ _ _ _ ih =>
    exact machine_extends rfl rfl (fun node hnode _ _ => ih node hnode) hscope
  | @grammar name _ start nodes hnodes inner span =>
    rw [standard_grammar, Handler.statement_session]
    have hcollects : [productionsName].all fun name => grammarBindings.any (·.name == name) := by
      decide
    have hextends : Session.Extends s.scopes.size
        { s with scopes := s.scopes.opened scope name.name grammarBindings }
        (standard maxLayers (.root nodes inner) s.scopes.size
          { s with scopes := s.scopes.opened scope name.name grammarBindings }).2 :=
      body_extends hcollects fun node hnode _ _ => extends_of_isProduction (hnodes node hnode)
    exact (Evaluator.declareBody_cases hscope hextends).extends hscope hextends
  | assignment kind _ hvalue =>
    rw [standard_assignment, Handler.statement_session]
    refine (Evaluator.assign_cases hscope fun t => ?_).extends hscope
    rw [Evaluator.expression_session]
    exact expression_session hvalue
  | initial =>
    rw [standard_initial, Handler.statement_session]
    exact Evaluator.define_extends (fun _ => Value.noConfusion) hscope hcollects
      (by decide) (by decide)
  | final =>
    rw [standard_final, Handler.statement_session]
    exact Evaluator.update_extends (fun value _ => by cases value <;> simp [Value.addStates]) hscope
      hcollects (by decide) (by decide)
  | print =>
    rw [standard_print, Handler.statement_session]
    exact ⟨Nat.le_refl _, fun _ _ _ => rfl, .refl _, fun _ _ => .inl, List.prefix_append _ _,
      List.prefix_rfl⟩
  | test =>
    rw [standard_test, Handler.statement_session, Evaluator.bind_apply, Evaluator.automatonOf_apply]
    cases Evaluator.automatonAt s.scopes _ scope with
    | error e => exact .refl _ _
    | ok a => exact Evaluator.forM_testOn_extends _ _ _ _ _ _ _
  | transition h =>
    rw [standard_transition h, Handler.statement_session, Evaluator.bind_apply,
      Evaluator.ofExcept_apply]
    cases declaredTransitionOf _ with
    | error e => exact .refl _ _
    | ok t =>
      exact Evaluator.update_extends (fun value _ => by cases value <;> simp [Value.addTransition])
        hscope hcollects (by decide) (by decide)

end Visit

end MachineLang
