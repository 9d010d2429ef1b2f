import MachineLang.Proofs.Arrangement
import MachineLang.Proofs.Concatenation
import MachineLang.Proofs.Intersection
import MachineLang.Proofs.Sessions
import MachineLang.Proofs.Union
import MachineLang.Proofs.Verdict

/-!
# Programs do not go wrong

The trees of programs have the shapes that the handlers are made for, and the machines that are
evaluated have the tapes that the operations on machines ask for. So the evaluation of a program
fails only where the program is to blame (`EvaluationError.OfProgram`), or where it unites two
machines with different numbers of tapes (`Visit.ends_of_isStatement`). Finite automata have one
tape, so these are pushdown automata or Turing machines.
-/

namespace MachineLang

/-- A machine has a number of tapes that its kind can have. -/
def Automaton.Fit : Automaton → Prop
  | @machine kind m => FitsKind kind m.tapeCount
  | grammar _ => True

/-- The results of all scopes are fit, so every automaton that a name stands for is. -/
def Session.Fit (s : Session) : Prop := ∀ id a, s.scopes.result? id = some a → a.Fit

/-- How an evaluation ends: in a fit session, with one of some errors or with a value as
described. -/
def Ends {α : Type} (E : EvaluationError → Prop) (P : α → Prop) :
    Except EvaluationError α × Session → Prop
  | (.ok a, t) => P a ∧ t.Fit
  | (.error e, t) => E e ∧ t.Fit

/-! ## Fit sessions -/

namespace Session

variable {s t : Session} {scope inner : ScopeId} {name : String} {bindings : List Binding}
  {result : Automaton}

/-- Nothing has a result at first. -/
theorem fit_start : Session.start.Fit := by
  intro id a h
  obtain rfl : id = 0 := Nat.lt_one_iff.1 (ScopeTree.lt_size_of_result? h)
  cases h

/-- A session whose results are results of a fit one is fit. -/
theorem Fit.of_result? (hs : s.Fit)
    (h : ∀ id a, t.scopes.result? id = some a → s.scopes.result? id = some a) : t.Fit :=
  fun id a ha => hs id a (h id a ha)

/-- Changing what a scope binds keeps a session fit. -/
theorem Fit.modify (hs : s.Fit) {f : Scope → Scope}
    (hf : ∀ scope, (f scope).result? = scope.result?) :
    Session.Fit { s with scopes := s.scopes.modify scope f } := by
  refine hs.of_result? fun id a h => ?_
  have hid : id < (s.scopes.modify scope f).size := ScopeTree.lt_size_of_result? h
  rw [ScopeTree.size_modify] at hid
  have h : ((s.scopes.modify scope f).get id).result? = some a := h
  by_cases heq : id = scope
  · subst heq
    rw [ScopeTree.get_modify hid, hf] at h
    exact h
  · rw [ScopeTree.get_modify_ne heq] at h
    exact h

/-- A new scope has no result. -/
theorem Fit.opened (hs : s.Fit) :
    Session.Fit { s with scopes := s.scopes.opened scope name bindings } := by
  have hdeclared : Session.Fit { s with scopes := s.scopes.modify scope (Scope.declare · name) } :=
    hs.modify fun _ => Scope.result?_declare
  refine hdeclared.of_result? fun id a h => ?_
  have h : ((s.scopes.opened scope name bindings).get id).result? = some a := h
  show ((s.scopes.modify scope (Scope.declare · name)).get id).result? = some a
  unfold ScopeTree.opened at h
  by_cases heq : id = (s.scopes.modify scope (Scope.declare · name)).size
  · rw [heq, ScopeTree.get_push_self] at h
    cases h
  · rw [ScopeTree.get_push_ne heq] at h
    exact h

/-- A fit result keeps a session fit. -/
theorem Fit.closed (hs : s.Fit) (hresult : result.Fit) :
    Session.Fit { s with scopes := s.scopes.closed scope inner name result } := by
  have hset : Session.Fit { s with scopes := s.scopes.setResult inner result } := by
    intro id a h
    have hid : id < (s.scopes.setResult inner result).size := ScopeTree.lt_size_of_result? h
    have h : ((s.scopes.setResult inner result).get id).result? = some a := h
    unfold ScopeTree.setResult at h hid
    rw [ScopeTree.size_modify] at hid
    -- The result is stored in one scope, and all others keep theirs.
    by_cases heq : id = inner
    · subst heq
      rw [ScopeTree.get_modify hid] at h
      cases h
      exact hresult
    · rw [ScopeTree.get_modify_ne heq] at h
      exact hs id a h
  exact hset.modify fun _ => Scope.result?_set

end Session

namespace Ends

variable {α β : Type} {E E' : EvaluationError → Prop} {P : α → Prop} {Q : β → Prop}
  {x : Evaluator α} {s : Session}

/-- More errors may be allowed: what ends with fewer ends with these. -/
theorem mono {result : Except EvaluationError α × Session} (h : Ends E P result)
    (hE : ∀ e, E e → E' e) :
    Ends E' P result := by
  obtain ⟨e | a, t⟩ := result
  · exact ⟨hE e h.1, h.2⟩
  · exact h

/-- The session is fit in the end. -/
theorem fit {result : Except EvaluationError α × Session} (h : Ends E P result) : result.2.Fit := by
  obtain ⟨e | a, t⟩ := result
  · exact h.2
  · exact h.2

/-- One computation behind another ends well if the second one does in every session that the first
one leaves. -/
theorem bind {f : α → Evaluator β} (h : Ends E P (x s))
    (hf : ∀ a t, x s = (.ok a, t) → P a → t.Fit → Ends E Q (f a t)) : Ends E Q ((x >>= f) s) := by
  rw [Evaluator.bind_apply]
  generalize x s = result at *
  obtain ⟨e | a, t⟩ := result
  · exact h
  · exact hf a t rfl h.1 h.2

/-- A function of what is computed. -/
theorem map {f : α → β} (h : Ends E P (x s)) (hf : ∀ a, P a → Q (f a)) :
    Ends E Q ((f <$> x) s) := by
  rw [Evaluator.map_apply]
  generalize x s = result at *
  obtain ⟨e | a, t⟩ := result
  · exact h
  · exact ⟨hf a h.1, h.2⟩

/-- What is independent of the session. -/
theorem ofExcept {x : Except EvaluationError α} (hs : s.Fit) (h : Yields P x)
    (hE : ∀ e, e.OfProgram → E e) :
    Ends E P (Evaluator.ofExcept x s) := by
  rw [Evaluator.ofExcept_apply]
  cases x with
  | error e => exact ⟨hE e h, hs⟩
  | ok a => exact ⟨h, hs⟩

/-- A statement stands for no automaton. -/
theorem statement {x : Evaluator Unit} {P : Option Automaton → Prop}
    (h : Ends E (fun _ => True) (x s)) (hnone : P none) : Ends E P (Handler.statement x s) :=
  h.bind fun _ _ _ _ ht => ⟨hnone, ht⟩

end Ends

/-! ## Operations on machines -/

/-- A machine that is built with the tapes of a fit one is fit. -/
theorem Machine.fitsKind_build {k : MachineKind} {m : Machine k} {d : Definition k}
    (h : FitsKind k m.tapeCount) (htapes : d.tapes = m.tapes) : FitsKind k (build d).tapeCount := by
  rw [tapeCount_build, htapes]
  show FitsKind k (max 1 m.tapeCount)
  rw [Nat.max_eq_right h.1]
  exact h

namespace Automaton

/-- The operations on finite automata keep automata fit. -/
theorem fitsKind_change {op : UnaryOp} {m : Machine .finite} (h : FitsKind .finite m.tapeCount) :
    FitsKind .finite (Automaton.change op m).tapeCount := by
  cases op <;> exact Machine.fitsKind_build h rfl

/-- The error of a union of two machines of a kind that may have several tapes. -/
def UnionFails (op : BinaryOp) (left right : Automaton) (e : MachineError) : Prop :=
  ∃ (k : MachineKind) (a b : Machine k), op = .union ∧ k ≠ .finite ∧ left = .machine a ∧
    right = .machine b ∧
    a.tapeCount ≠ b.tapeCount ∧ e = .incompatibleTapes a.tapeCount b.tapeCount

/-- What can come of combining two machines. -/
inductive Combines {k : MachineKind} (op : BinaryOp) (a b : Machine k) :
    Option (Except MachineError Automaton) → Prop
  /-- They cannot be combined so. -/
  | undefined : Combines op a b none
  /-- They are combined. -/
  | done (c : Machine k) (h : FitsKind k c.tapeCount) : Combines op a b (some (.ok (.machine c)))
  /-- They are united and have different numbers of tapes. -/
  | fails {e : MachineError} (h : UnionFails op (.machine a) (.machine b) e) :
    Combines op a b (some (.error e))

/-- Combining two fit machines of one kind gives a fit machine of that kind, or it fails because it
is the union of machines with different numbers of tapes. -/
theorem combine_cases {k : MachineKind} (op : BinaryOp) {a b : Machine k}
    (ha : FitsKind k a.tapeCount) (hb : FitsKind k b.tapeCount) :
    Combines op a b (Automaton.combine op (.machine a) (.machine b)) := by
  -- Finite machines have one tape each, so only the union of other machines can fail.
  have heq : k = .finite → a.tapeCount = b.tapeCount := fun hk => (ha.2 hk).trans (hb.2 hk).symm
  cases op with
  | union =>
    have hcombine : Automaton.combine .union (.machine a) (.machine b) = some
        (.machine <$> a.union b) := dif_pos rfl
    rw [hcombine]
    by_cases ht : a.tapeCount = b.tapeCount
    · rw [Machine.union_eq_ok ht]
      exact .done (a.joined b) (Machine.fitsKind_build ha rfl)
    · have hunion : a.union b = .error (.incompatibleTapes a.tapeCount b.tapeCount) := by
        unfold Machine.union Machine.sameTapes
        rw [if_neg ht]
        rfl
      rw [hunion]
      exact .fails ⟨k, a, b, rfl, fun hk => ht (heq hk), rfl, rfl, ht, rfl⟩
  | intersection =>
    cases k with
    | finite =>
      have hcombine : Automaton.combine .intersection (.machine a) (.machine b) =
        some (.machine <$> a.intersection b) := rfl
      rw [hcombine, Machine.intersection_eq_ok (heq rfl)]
      have hjoined : FitsKind .finite (a.joined b).tapeCount := Machine.fitsKind_build ha rfl
      exact .done _ (Machine.fitsKind_build hjoined rfl)
    | pushdown => exact .undefined
    | turing => exact .undefined
  | concatenate =>
    cases k with
    | finite =>
      have hcombine : Automaton.combine .concatenate (.machine a) (.machine b) =
        some (.machine <$> a.concatenate b) := rfl
      rw [hcombine, Machine.concatenate_eq_ok (heq rfl)]
      exact .done (a.chained b) (Machine.fitsKind_build ha rfl)
    | pushdown => exact .undefined
    | turing => exact .undefined

end Automaton

namespace Evaluator

variable {s : Session} {span : Span}

/-- Changing a fit automaton gives a fit one. -/
theorem ends_change (op : UnaryOp) {a : Automaton} (ha : a.Fit) (hs : s.Fit) :
    Ends EvaluationError.OfProgram Automaton.Fit (change op a span s) := by
  unfold change
  split
  · split
    · exact ⟨Automaton.fitsKind_change ha, hs⟩
    · exact ⟨trivial, hs⟩
  · exact ⟨trivial, hs⟩

/-- Combining fit automata gives a fit one, or two machines with different numbers of tapes are
united. -/
theorem ends_combine (op : BinaryOp) {left right : Automaton} (hleft : left.Fit)
    (hright : right.Fit) (hs : s.Fit) :
    Ends (fun e => e.OfProgram ∨ ∃ error, e = .machine error ∧
      Automaton.UnionFails op left right error) Automaton.Fit (combine op left right span s) := by
  unfold combine
  by_cases hkind : left.kind? = right.kind?
  · rw [if_neg (not_not.2 hkind)]
    cases left with
    | machine a =>
      cases right with
      | machine b =>
        obtain rfl := Option.some.inj hkind
        generalize hresult : Automaton.combine op (.machine a) (.machine b) = result
        have hcases := Automaton.combine_cases op hleft hright
        rw [hresult] at hcases
        cases hcases with
        | undefined => exact ⟨.inl trivial, hs⟩
        | done c hc =>
          -- What is combined is kept only if the numbers in the new names fit.
          show Ends _ _ ((if Automaton.canCombine op (.machine a) (.machine b)
            then pure (.machine c)
            else throw (.overflow span) : Evaluator Automaton) s)
          split
          · exact ⟨hc, hs⟩
          · exact ⟨.inl trivial, hs⟩
        | fails hfails => exact ⟨.inr ⟨_, rfl, hfails⟩, hs⟩
      | grammar g => cases hkind
    | grammar g =>
      cases right with
      | machine b => cases hkind
      | grammar g' => cases op <;> exact ⟨.inl trivial, hs⟩
  · rw [if_pos hkind]
    exact ⟨.inl trivial, hs⟩

/-- Looking up an automaton gives a fit one. -/
theorem ends_automatonOf {name : Identifier} {scope : ScopeId} (hs : s.Fit) :
    Ends EvaluationError.OfProgram Automaton.Fit (automatonOf name scope s) := by
  rw [automatonOf_apply]
  unfold automatonAt
  split
  · next e _ => cases e <;> exact ⟨trivial, hs⟩
  · split
    · next a hresult => exact ⟨hs _ a hresult, hs⟩
    · exact ⟨trivial, hs⟩
  · exact ⟨trivial, hs⟩

/-- A machine with a tape can be started on an input, so testing a fit automaton adds an outcome or
ends with an error that programs may have. -/
theorem ends_testOn {maxLayers : Nat} {name input : String} {a : Automaton} (ha : a.Fit)
    (hs : s.Fit) :
    Ends EvaluationError.OfProgram (fun _ => True) (testOn maxLayers name a span input s) := by
  unfold testOn
  cases a with
  | grammar g => exact ⟨trivial, hs⟩
  | machine m =>
    have htest : Automaton.testWithin (.machine m) [input.toList] maxLayers =
      some (m.testWithin [input.toList] maxLayers) := rfl
    have hpos : [input.toList].length ≤ m.tapeCount := ha.1
    rw [htest, Machine.testWithin_eq hpos]
    exact ⟨trivial, hs⟩

/-- A machine with a tape can be started on all inputs. -/
theorem ends_forM_testOn {maxLayers : Nat} {name : String} {inputs : List String} {a : Automaton}
    (ha : a.Fit) (hs : s.Fit) :
    Ends EvaluationError.OfProgram (fun _ => True)
      (inputs.forM (testOn maxLayers name a span) s) := by
  induction inputs generalizing s with
  | nil => exact ⟨trivial, hs⟩
  | cons input inputs ih => exact (ends_testOn ha hs).bind fun _ t _ _ ht => ih ht

/-- A statement that contributes to the scope around it changes what some scope binds. -/
theorem ends_changeScopes {statement : String} {change : ScopeTree → Except BindingError ScopeTree}
    (hs : s.Fit) (hchange : ∀ t, change s.scopes = .ok t → ∃ owner name value,
      t = s.scopes.modify owner (Scope.set · name value)) :
    Ends EvaluationError.OfProgram (fun _ => True)
      (changeScopes (BindingError.inStatement statement span) change s) := by
  rw [changeScopes_apply]
  cases hresult : change s.scopes with
  | error e => cases e <;> exact ⟨trivial, hs⟩
  | ok t =>
    obtain ⟨owner, name, value, rfl⟩ := hchange t hresult
    exact ⟨trivial, hs.modify fun _ => Scope.result?_set⟩

/-- A statement that changes what is bound to a name. -/
theorem ends_update {statement name : String} {scope : ScopeId} {f : Value → Value} (hs : s.Fit) :
    Ends EvaluationError.OfProgram (fun _ => True)
      (changeScopes (BindingError.inStatement statement span) (fun t => t.update scope name f)
        s) := by
  refine ends_changeScopes hs fun t ht => ?_
  obtain ⟨owner, old, -, rfl⟩ := ScopeTree.of_update ht
  exact ⟨owner, name, f old, rfl⟩

variable {visit : Visit} {node : Node} {scope : ScopeId} {E : EvaluationError → Prop}

/-- An expression stands for an automaton. -/
theorem ends_expression (hE : ∀ e, e.OfProgram → E e)
    (h : Ends E (fun value? => ∀ a ∈ value?, a.Fit) (visit node scope s)) :
    Ends E Automaton.Fit (expression visit node scope s) := by
  rw [expression_apply]
  generalize visit node scope s = result at *
  obtain ⟨e | _ | a, t⟩ := result
  · exact h
  · exact ⟨hE _ trivial, h.2⟩
  · exact ⟨h.1 a rfl, h.2⟩

/-- A declaration with a body ends with a permitted error or in a fit session, if its body does and
if what is built from it is fit. -/
theorem DeclaresBody.ends {name : Identifier} {bindings : List Binding} {body : Node}
    {build : ScopeTree → ScopeId → Except EvaluationError Automaton}
    {result : Except EvaluationError Unit × Session}
    (h : DeclaresBody visit name bindings body build scope s result) (hs : s.Fit)
    (hE : ∀ e, e.OfProgram → E e)
    (hbody : (s.scopes.get scope).declares name.name = false →
      Ends E (fun value? => ∀ a ∈ value?, a.Fit)
        (visit body s.scopes.size { s with scopes := s.scopes.opened scope name.name bindings }))
    (hbuild : ∀ t, Yields Automaton.Fit (build t s.scopes.size)) :
    Ends E (fun _ => True) result := by
  -- One case for each way that the declaration ends: the body must end well, and what is built from
  -- it.
  cases h with
  | redeclared => exact ⟨hE _ trivial, hs⟩
  | bodyFails hdeclares hvisit =>
    have hbody := hbody hdeclares
    rw [hvisit] at hbody
    exact hbody
  -- What could not be built is refused with an error of the program.
  | @buildFails _ e t hdeclares hvisit hbuilt =>
    have hbody := hbody hdeclares
    rw [hvisit] at hbody
    have hyields := hbuild t.scopes
    rw [hbuilt] at hyields
    exact ⟨hE _ hyields, hbody.2⟩
  | @done _ t a hdeclares hvisit hbuilt =>
    have hbody := hbody hdeclares
    rw [hvisit] at hbody
    have hyields := hbuild t.scopes
    rw [hbuilt] at hyields
    exact ⟨trivial, hbody.2.closed hyields⟩

/-- A declaration by an expression ends with a permitted error or in a fit session, if its
expression does: the value that is given to the name is fit. -/
theorem Assigns.ends {kind : MachineKind} {name : Identifier} {value : Node}
    {result : Except EvaluationError Unit × Session}
    (h : Assigns visit kind name value scope s result) (hs : s.Fit) (hE : ∀ e, e.OfProgram → E e)
    (hvalue : (s.scopes.get scope).declares name.name = false → Ends E Automaton.Fit
      (expression visit value scope
        { s with scopes := s.scopes.modify scope (Scope.declare · name.name) })) :
    Ends E (fun _ => True) result := by
  have hdeclared :
      Session.Fit { s with scopes := s.scopes.modify scope (Scope.declare · name.name) } :=
    hs.modify fun _ => Scope.result?_declare
  -- The expression is evaluated once the name is declared, and changes nothing.
  cases h with
  | redeclared => exact ⟨hE _ trivial, hs⟩
  | @valueFails e hdeclares hresult =>
    have hvalue := hvalue hdeclares
    generalize expression visit value scope _ = result at *
    obtain ⟨first, t⟩ := result
    obtain rfl : first = .error e := hresult
    exact ⟨hvalue.1, hdeclared⟩
  | kindDiffers => exact ⟨hE _ trivial, hdeclared⟩
  | @done a hdeclares hresult =>
    have hvalue := hvalue hdeclares
    generalize expression visit value scope _ = result at *
    obtain ⟨first, t⟩ := result
    obtain rfl : first = .ok a := hresult
    exact ⟨trivial, hs.opened.closed hvalue.1⟩

/-- Statements end with a permitted error or in a fit session, if each of them does behind those in
front of it, whose evaluation has succeeded when it is reached. -/
theorem ends_statements {names : List String} (before : List Node) {nodes : List Node}
    {start : Session} (hbefore : statements visit before scope start = (.ok (), s)) (hs : s.Fit)
    (hscope : scope < s.scopes.size) (hcollects : s.scopes.Collects scope names)
    (hextends : ∀ node ∈ nodes, ∀ t : Session, scope < t.scopes.size →
      t.scopes.Collects scope names → Session.Extends scope t (visit node scope t).2)
    (h : ∀ (t : Session) before' node after, before ++ nodes = before' ++ node :: after →
      node ∈ nodes → statements visit before' scope start = (.ok (), t) → t.Fit →
      scope < t.scopes.size → t.scopes.Collects scope names →
      Ends E (fun value? => ∀ a ∈ value?, a.Fit) (visit node scope t)) :
    Ends E (fun _ => True) (statements visit nodes scope s) := by
  -- By induction on the statements; those that were evaluated before are gathered on the way, since
  -- what is known of a statement depends on how far the evaluation has come.
  induction nodes generalizing before s with
  | nil => exact ⟨trivial, hs⟩
  | cons node nodes ih =>
    obtain ⟨hfirst, hrest⟩ := List.forall_mem_cons.1 hextends
    have hfirst := hfirst s hscope hcollects
    have hnode := h s before node nodes rfl List.mem_cons_self hbefore hs hscope hcollects
    rw [statements_cons]
    generalize hvisit : visit node scope s = result at *
    obtain ⟨e | value?, t⟩ := result
    · exact ⟨hnode.1, hnode.2⟩
    · have hbehind : statements visit (before ++ [node]) scope start = (.ok (), t) := by
        rw [statements_append, hbefore]
        show statements visit [node] scope s = _
        rw [statements_cons, hvisit]
        rfl
      refine ih (before ++ [node]) hbehind hnode.2 (Nat.lt_of_lt_of_le hscope hfirst.size_le)
        (hfirst.collects hcollects) hrest fun u before' node' after heq hmem => ?_
      refine h u before' node' after ?_ (List.mem_cons_of_mem _ hmem)
      rw [← heq, List.append_assoc]
      rfl

end Evaluator

/-- There is a tape even if none is named. -/
theorem length_tapeNames_pos {declared : List Identifier} {default : String} :
    0 < (tapeNames declared default).length := by
  unfold tapeNames
  split_ifs with h
  · exact Nat.one_pos
  · rw [List.length_map]
    exact List.length_pos_iff.2 fun hnil => h (List.isEmpty_iff.2 hnil)

/-- The machine that was collected in a scope is fit, if its declaration has as many tapes as its
kind asks for. -/
theorem yields_collectedMachine {kind : MachineKind} {name : String} {tapes : List String}
    {span : Span} {t : ScopeTree} {inner : ScopeId} (h : FitsKind kind tapes.length) :
    Yields Automaton.Fit (collectedMachine kind name tapes span t inner) := by
  unfold collectedMachine
  split
  · trivial
  · next initial _ =>
    have hmachine :=
      @Declaration.yields_machine ⟨name, tapes, initial, Evaluator.collectedStates t inner,
        Evaluator.collectedTransitions t inner⟩ kind h
    generalize Declaration.machine _ kind = result at *
    cases result with
    | error e => exact hmachine
    | ok m => exact hmachine

/-- The grammar that was collected in a scope. -/
theorem yields_collectedGrammar {name : String} {start : Option Identifier} {span : Span}
    {t : ScopeTree} {inner : ScopeId} :
    Yields Automaton.Fit (collectedGrammar name start span t inner) := by
  unfold collectedGrammar
  split
  · trivial
  · trivial

/-! ## What is evaluated on the way -/

namespace Visit

/-- Evaluating a node in a scope and a session evaluates another one on the way. -/
inductive Reaches (maxLayers : Nat) : Node → ScopeId → Session → Node → ScopeId → Session → Prop
  /-- The node itself. -/
  | here {node : Node} {scope : ScopeId} {s : Session} : Reaches maxLayers node scope s node scope s
  /-- A statement, if those in front of it do not fail. -/
  | statement {before after : List Node} {node other : Node} {span : Span} {scope scope' : ScopeId}
      {s t u : Session}
      (hbefore : Evaluator.statements (standard maxLayers) before scope s = (.ok (), t))
      (h : Reaches maxLayers node scope t other scope' u) :
      Reaches maxLayers (.root (before ++ node :: after) span) scope s other scope' u
  /-- The body of the declaration of a machine, in a scope of its own. -/
  | machineBody {node other : Node} {header : MachineHeader} {scope scope' : ScopeId}
      {s u : Session} (hnode : node.machine? = some header)
      (hdeclares : (s.scopes.get scope).declares header.name.name = false)
      (h : Reaches maxLayers header.body s.scopes.size
        { s with scopes := s.scopes.opened scope header.name.name machineBindings }
        other scope' u) :
      Reaches maxLayers node scope s other scope' u
  /-- The body of the declaration of a grammar, in a scope of its own. -/
  | grammarBody {name : Identifier} {start : Option Identifier} {body other : Node} {span : Span}
      {scope scope' : ScopeId} {s u : Session}
      (hdeclares : (s.scopes.get scope).declares name.name = false)
      (h : Reaches maxLayers body s.scopes.size
        { s with scopes := s.scopes.opened scope name.name grammarBindings } other scope' u) :
      Reaches maxLayers (.grammar name start body span) scope s other scope' u
  /-- What a declaration declares its name as, once the name is declared. -/
  | value {kind : MachineKind} {name : Identifier} {value other : Node} {span : Span}
      {scope scope' : ScopeId} {s u : Session}
      (hdeclares : (s.scopes.get scope).declares name.name = false)
      (h : Reaches maxLayers value scope
        { s with scopes := s.scopes.modify scope (Scope.declare · name.name) } other scope' u) :
      Reaches maxLayers (.assignment kind name value span) scope s other scope' u
  /-- The left operand. -/
  | left {op : BinaryOp} {left right other : Node} {span : Span} {scope scope' : ScopeId}
      {s u : Session} (h : Reaches maxLayers left scope s other scope' u) :
      Reaches maxLayers (.binary op left right span) scope s other scope' u
  /-- The right operand, if the left one does not fail. -/
  | right {op : BinaryOp} {left right other : Node} {span : Span} {scope scope' : ScopeId}
      {a : Automaton} {s t u : Session}
      (hleft : Evaluator.expression (standard maxLayers) left scope s = (.ok a, t))
      (h : Reaches maxLayers right scope t other scope' u) :
      Reaches maxLayers (.binary op left right span) scope s other scope' u
  /-- The only operand. -/
  | operand {op : UnaryOp} {operand other : Node} {span : Span} {scope scope' : ScopeId}
      {s u : Session} (h : Reaches maxLayers operand scope s other scope' u) :
      Reaches maxLayers (.unary op operand span) scope s other scope' u

/-- The union of two machines that are no finite automata and have different numbers of tapes is
evaluated on the way. -/
def UnitesUnlike (maxLayers : Nat) (node : Node) (scope : ScopeId) (s : Session) (l r : Nat) :
    Prop :=
  ∃ (kind : MachineKind) (a b : Machine kind) (left right : Node) (span : Span) (inner : ScopeId)
    (t u v : Session),
    Reaches maxLayers node scope s (.binary .union left right span) inner t ∧
      Evaluator.expression (standard maxLayers) left inner t = (.ok (.machine a), u) ∧
      Evaluator.expression (standard maxLayers) right inner u = (.ok (.machine b), v) ∧
      kind ≠ .finite ∧ a.tapeCount = l ∧ b.tapeCount = r ∧ l ≠ r

/-- The errors that an evaluation may end with. -/
def Permits (maxLayers : Nat) (node : Node) (scope : ScopeId) (s : Session) (e : EvaluationError) :
    Prop :=
  e.OfProgram ∨ ∃ l r, e = .machine (.incompatibleTapes l r) ∧
    UnitesUnlike maxLayers node scope s l r

variable {maxLayers : Nat} {node inner : Node} {scope scope' : ScopeId} {s t : Session}
  {e : EvaluationError}

/-- What is permitted for something that is evaluated on the way is permitted. -/
theorem Permits.of_reaches (h : Permits maxLayers inner scope' t e)
    (hreaches : ∀ other id u, Reaches maxLayers inner scope' t other id u →
      Reaches maxLayers node scope s other id u) :
    Permits maxLayers node scope s e := by
  refine h.imp_right fun ⟨l, r, heq, kind, a, b, left, right, span, id, u, v, w, hunion, hrest⟩ =>
    ?_
  exact ⟨l, r, heq, kind, a, b, left, right, span, id, u, v, w, hreaches _ _ _ hunion, hrest⟩

/-! ## Evaluation -/

/-- An expression ends with a fit automaton or a permitted error. That error may be a union of
unlike machines only if the expression has such a union in it. -/
theorem ends_of_isExpression (h : node.IsExpression) (hs : s.Fit) :
    Ends (Permits maxLayers node scope s) (fun value? => ∀ a ∈ value?, a.Fit)
      (standard maxLayers node scope s) := by
  -- By induction on the expression; the session in which an operand is evaluated may be any fit
  -- one.
  induction h generalizing s with
  | identifier =>
    rw [standard_identifier]
    exact ((Evaluator.ends_automatonOf hs).mono fun _ => .inl).map fun a ha b hb =>
      Option.some.inj hb ▸ ha
  | @binary op left right _ _ span ihleft ihright =>
    rw [standard_binary]
    -- Errors of an operand are permitted for the whole expression, since the operand is reached
    -- from it.
    have hleft : Ends (Permits maxLayers (.binary op left right span) scope s) Automaton.Fit
        (Evaluator.expression (standard maxLayers) left scope s) :=
      Evaluator.ends_expression (fun _ => .inl)
        ((ihleft hs).mono fun e he => he.of_reaches fun _ _ _ => .left)
    refine hleft.bind fun a t hleft ha ht => ?_
    have hright : Ends (Permits maxLayers (.binary op left right span) scope s) Automaton.Fit
        (Evaluator.expression (standard maxLayers) right scope t) :=
      Evaluator.ends_expression (fun _ => .inl)
        ((ihright ht).mono fun e he => he.of_reaches fun _ _ _ => .right hleft)
    refine hright.bind fun b u hright hb hu => ?_
    have hcombine : Ends (Permits maxLayers (.binary op left right span) scope s) Automaton.Fit
        (Evaluator.combine op a b span u) := by
      refine (Evaluator.ends_combine op ha hb hu).mono fun e he => he.imp_right ?_
      -- Here, the expression itself is the union that the error tells of.
      rintro ⟨error, rfl, kind, m, other, rfl, hkind, rfl, rfl, hne, rfl⟩
      exact ⟨_, _, rfl, kind, m, other, left, right, span, scope, s, t, u, .here, hleft, hright,
        hkind, rfl, rfl, hne⟩
    exact hcombine.map fun c hc d hd => Option.some.inj hd ▸ hc
  | @unary op operand _ span ih =>
    rw [standard_unary]
    have hoperand : Ends (Permits maxLayers (.unary op operand span) scope s) Automaton.Fit
        (Evaluator.expression (standard maxLayers) operand scope s) :=
      Evaluator.ends_expression (fun _ => .inl)
        ((ih hs).mono fun e he => he.of_reaches fun _ _ _ => .operand)
    refine hoperand.bind fun a t _ ha ht => ?_
    exact ((Evaluator.ends_change op ha ht).mono fun _ => .inl).map fun c hc d hd =>
      Option.some.inj hd ▸ hc

/-- A sequence of statements ends with a permitted error if one of them fails. The statement is
reached from the sequence, so what is permitted for it is permitted here. -/
theorem ends_root {nodes : List Node} {span : Span} {names : List String}
    {E : EvaluationError → Prop} (hs : s.Fit) (hscope : scope < s.scopes.size)
    (hcollects : s.scopes.Collects scope names)
    (hextends : ∀ n ∈ nodes, ∀ (scope : ScopeId) (t : Session), scope < t.scopes.size →
      t.scopes.Collects scope names → Session.Extends scope t (standard maxLayers n scope t).2)
    (hE : ∀ e, Permits maxLayers (.root nodes span) scope s e → E e)
    (h : ∀ n ∈ nodes, ∀ (scope : ScopeId) (t : Session), t.Fit → scope < t.scopes.size →
      t.scopes.Collects scope names →
      Ends (Permits maxLayers n scope t) (fun value? => ∀ a ∈ value?, a.Fit)
        (standard maxLayers n scope t)) :
    Ends E (fun value? => ∀ a ∈ value?, a.Fit) (standard maxLayers (.root nodes span) scope s) := by
  rw [standard_root]
  refine Ends.statement
    (Evaluator.ends_statements [] rfl hs hscope hcollects (fun n hn t => hextends n hn _ t)
      fun t before n after heq hn hbefore ht hscope hcollects => ?_) nofun
  have heq : nodes = before ++ n :: after := heq
  refine (h n hn _ t ht hscope hcollects).mono fun e he =>
    hE e (he.of_reaches fun _ _ _ hreaches => ?_)
  rw [heq]
  exact .statement hbefore hreaches

/-- The body of a declaration ends with a permitted error if one of its statements fails. -/
theorem ends_body {nodes : List Node} {span : Span} {name : String} {bindings : List Binding}
    {names : List String} {E : EvaluationError → Prop} (hs : s.Fit)
    (hnames : names.all fun name => bindings.any (·.name == name))
    (hextends : ∀ n ∈ nodes, ∀ (scope : ScopeId) (t : Session), scope < t.scopes.size →
      t.scopes.Collects scope names → Session.Extends scope t (standard maxLayers n scope t).2)
    (hE : ∀ e, Permits maxLayers (.root nodes span) s.scopes.size
      { s with scopes := s.scopes.opened scope name bindings } e → E e)
    (h : ∀ n ∈ nodes, ∀ (scope : ScopeId) (t : Session), t.Fit → scope < t.scopes.size →
      t.scopes.Collects scope names →
      Ends (Permits maxLayers n scope t) (fun value? => ∀ a ∈ value?, a.Fit)
        (standard maxLayers n scope t)) :
    Ends E (fun value? => ∀ a ∈ value?, a.Fit) (standard maxLayers (.root nodes span) s.scopes.size
      { s with scopes := s.scopes.opened scope name bindings }) := by
  exact ends_root hs.opened ScopeTree.size_lt_size_opened (ScopeTree.collects_opened hnames)
    hextends hE h

/-- The declaration of a machine ends with a permitted error if its statements do. What they have
collected fits the tapes of the machine, so building it is refused only with an error that programs
may have. -/
theorem ends_machine {header : MachineHeader} {nodes : List Node} {span : Span}
    (hnode : node.machine? = some header) (hbody : header.body = .root nodes span)
    (hnodes : ∀ n ∈ nodes, n.IsStatement) (hfits : FitsKind header.kind header.tapes.length)
    (h : ∀ n ∈ nodes, ∀ (scope : ScopeId) (t : Session), t.Fit → scope < t.scopes.size →
      t.scopes.Collects scope machineNames →
      Ends (Permits maxLayers n scope t) (fun value? => ∀ a ∈ value?, a.Fit)
        (standard maxLayers n scope t))
    (hs : s.Fit) (hscope : scope < s.scopes.size) :
    Ends (Permits maxLayers node scope s) (fun value? => ∀ a ∈ value?, a.Fit)
      (standard maxLayers node scope s) := by
  have hextends : ∀ n ∈ nodes, ∀ (scope : ScopeId) (t : Session), scope < t.scopes.size →
      t.scopes.Collects scope machineNames →
        Session.Extends scope t (standard maxLayers n scope t).2 :=
    fun n hn _ _ => extends_of_isStatement (hnodes n hn)
  obtain ⟨kind, name, tapes, body⟩ := header
  obtain rfl : body = .root nodes span := hbody
  rw [standard_machine hnode]
  refine Ends.statement ?_ nofun
  -- Either the name is declared already, or a statement of the body fails, or the machine cannot be
  -- built from them.
  refine (Evaluator.declareBody_cases hscope (body_extends (by decide) hextends)).ends hs
    (fun _ => .inl) ?_ fun t => ?_
  · exact fun hdeclares => ends_body hs (by decide) hextends
      (fun e he => he.of_reaches fun _ _ _ => .machineBody hnode hdeclares) h
  · exact yields_collectedMachine hfits

/-- A production ends with an error of the program at most. -/
theorem ends_of_isProduction (h : node.IsProduction) (hs : s.Fit) :
    Ends (Permits maxLayers node scope s) (fun value? => ∀ a ∈ value?, a.Fit)
      (standard maxLayers node scope s) := by
  obtain ⟨head, hitems, span⟩ := h
  rw [standard_production]
  refine Ends.statement ?_ nofun
  have hbodies :=
    Ends.ofExcept hs (Yields.mapM fun items h => yields_productionBody (hitems items h)) fun _ => id
  exact (hbodies.bind fun bodies t _ _ ht => Evaluator.ends_update ht).mono fun _ => .inl

/-- The declaration of a grammar ends with a permitted error, since its productions do, and building
the grammar fails only without any start symbol. -/
theorem ends_grammar {name : Identifier} {start : Option Identifier} {nodes : List Node}
    {inner span : Span} (hnodes : ∀ n ∈ nodes, n.IsProduction) (hs : s.Fit)
    (hscope : scope < s.scopes.size) :
    Ends (Permits maxLayers (.grammar name start (.root nodes inner) span) scope s)
      (fun value? => ∀ a ∈ value?, a.Fit)
      (standard maxLayers (.grammar name start (.root nodes inner) span) scope s) := by
  have hnames : [productionsName].all fun name => grammarBindings.any (·.name == name) := by decide
  have hextends : ∀ n ∈ nodes, ∀ (scope : ScopeId) (t : Session), scope < t.scopes.size →
      t.scopes.Collects scope [productionsName] →
        Session.Extends scope t (standard maxLayers n scope t).2 :=
    fun n hn _ _ => extends_of_isProduction (hnodes n hn)
  rw [standard_grammar]
  refine Ends.statement ?_ nofun
  -- The same three ways to end as for a machine.
  refine (Evaluator.declareBody_cases hscope (body_extends hnames hextends)).ends hs (fun _ => .inl)
    ?_ fun t => ?_
  · exact fun hdeclares => ends_body hs hnames hextends
      (fun e he => he.of_reaches fun _ _ _ => .grammarBody hdeclares) fun n hn _ _ ht _ _ =>
        ends_of_isProduction (hnodes n hn) ht
  · exact yields_collectedGrammar

/-- A declaration by an expression ends with a permitted error, since the expression does. -/
theorem ends_assignment {kind : MachineKind} {name : Identifier} {value : Node} {span : Span}
    (hvalue : value.IsExpression) (hs : s.Fit) (hscope : scope < s.scopes.size) :
    Ends (Permits maxLayers (.assignment kind name value span) scope s) (fun value? => ∀ a ∈ value?,
      a.Fit) (standard maxLayers (.assignment kind name value span) scope s) := by
  have hkept : ∀ t, (Evaluator.expression (standard maxLayers) value scope t).2 = t := fun t => by
    rw [Evaluator.expression_session]
    exact expression_session hvalue
  rw [standard_assignment]
  refine Ends.statement
    ((Evaluator.assign_cases hscope hkept).ends hs (fun _ => .inl) fun hdeclares => ?_) nofun
  refine Evaluator.ends_expression (fun _ => .inl) ?_
  exact (ends_of_isExpression hvalue (hs.modify fun _ => Scope.result?_declare)).mono fun e he =>
    he.of_reaches fun _ _ _ => .value hdeclares

/-- A statement ends with a permitted error if it fails. The induction is over nested bodies, since
a declaration ends as the statements of its body allow. -/
theorem ends_of_isStatement (h : node.IsStatement) (hs : s.Fit) (hscope : scope < s.scopes.size)
    (hcollects : s.scopes.Collects scope machineNames) :
    Ends (Permits maxLayers node scope s) (fun value? => ∀ a ∈ value?, a.Fit)
      (standard maxLayers node scope s) := by
  -- By induction on the statement, since bodies of declarations are made of statements.
  induction h generalizing scope s with
  | finite _ hnodes _ _ ih =>
    exact ends_machine rfl rfl hnodes ⟨Nat.one_pos, fun _ => rfl⟩ (fun n hn _ _ => ih n hn) hs
      hscope
  | pushdown _ _ hnodes _ _ ih =>
    exact ends_machine rfl rfl hnodes ⟨Nat.succ_pos _, nofun⟩ (fun n hn _ _ => ih n hn) hs hscope
  | turing _ tapes hnodes _ _ ih =>
    exact ends_machine rfl rfl hnodes ⟨length_tapeNames_pos, nofun⟩ (fun n hn _ _ => ih n hn) hs
      hscope
  | grammar _ _ hnodes => exact ends_grammar hnodes hs hscope
  | assignment _ _ hvalue => exact ends_assignment hvalue hs hscope
  | initial =>
    rw [standard_initial]
    refine (Ends.statement (Evaluator.ends_changeScopes hs fun t ht => ?_) nofun).mono fun _ => .inl
    obtain ⟨owner, -, rfl⟩ := ScopeTree.of_define ht
    exact ⟨owner, _, _, rfl⟩
  | final =>
    rw [standard_final]
    exact (Ends.statement (Evaluator.ends_update hs) nofun).mono fun _ => .inl
  | print =>
    rw [standard_print]
    exact Ends.statement ⟨trivial, hs⟩ nofun
  | test =>
    rw [standard_test]
    refine (Ends.statement ?_ nofun).mono fun _ => .inl
    exact (Evaluator.ends_automatonOf hs).bind fun a t _ ha ht => Evaluator.ends_forM_testOn ha ht
  | transition h =>
    rw [standard_transition h]
    refine (Ends.statement ?_ nofun).mono fun _ => .inl
    have htransition := Ends.ofExcept hs (yields_declaredTransitionOf h) fun _ => id
    exact htransition.bind fun t u _ _ hu => Evaluator.ends_update hu

end Visit

/-! ## Stacks -/

/-- `Declaration.machine` with a check: the tapes behind the first one can only be taken if there is
a first one. Otherwise the answer is an error that stands for taking them outside of the list. -/
def Declaration.checkedMachine (outside : EvaluationError) (d : Declaration) :
    (k : MachineKind) → Except EvaluationError (Machine k)
  | .pushdown => if 1 ≤ d.tapes.length then d.machine .pushdown else .error outside
  | k => d.machine k

/-- `collectedMachine` with the check of `Declaration.checkedMachine`. -/
def checkedMachine (outside : EvaluationError) (kind : MachineKind) (name : String)
    (tapes : List String) (span : Span) (t : ScopeTree) (inner : ScopeId) :
    Except EvaluationError Automaton :=
  match Evaluator.collectedInitial? t inner with
  | none => .error (.missingInitialState name span)
  | some initial =>
    .machine <$> Declaration.checkedMachine outside
      ⟨name, tapes, initial, Evaluator.collectedStates t inner,
        Evaluator.collectedTransitions t inner⟩ kind

/-- Declares a machine with the check of `Declaration.checkedMachine`. -/
def Handler.checkedDeclaration (outside : EvaluationError) : Handler := fun visit node scope =>
  match node.machine? with
  | some ⟨kind, name, tapes, body⟩ =>
    statement (Evaluator.declareBody visit name machineBindings body
      (checkedMachine outside kind name.name tapes node.span) scope)
  | none => mismatch .finite node

/-- The standard handlers with the check of `Declaration.checkedMachine` in the declarations of
pushdown automata. -/
def HandlerTable.checked (maxLayers : Nat) (outside : EvaluationError) : HandlerTable Handler :=
  (standard maxLayers).register (.kind .pushdown) (Handler.checkedDeclaration outside)

variable {maxLayers : Nat} {outside : EvaluationError}

/-- The check whether all tapes are addressed passes for machines with a tape, since their
transitions are arranged on all of them. -/
theorem checkedMachine_eq {kind : MachineKind} {name : String} {tapes : List String}
    (h : 0 < tapes.length) :
    checkedMachine outside kind name tapes = collectedMachine kind name tapes := by
  funext span t inner
  unfold checkedMachine collectedMachine
  cases Evaluator.collectedInitial? t inner with
  | none => rfl
  | some initial =>
    cases kind with
    | pushdown => exact congrArg (Automaton.machine <$> ·) (if_pos h)
    | _ => rfl

/-- Pushdown automata have an input tape in front of their stacks, so the check passes in all
declarations. -/
theorem Handler.checkedDeclaration_eq : checkedDeclaration outside = declaration := by
  -- The check asks for a tape, and every kind of declaration names at least one.
  have hmachine : ∀ (visit : Visit) (node : Node) (scope : ScopeId) (kind : MachineKind)
      (name : Identifier) (tapes : List String) (body : Node), 0 < tapes.length →
      statement (Evaluator.declareBody visit name machineBindings body
        (checkedMachine outside kind name.name tapes node.span) scope) =
      statement (Evaluator.declareMachine visit kind name tapes body node.span scope) := by
    intro visit node scope kind name tapes body htapes
    rw [checkedMachine_eq htapes, Evaluator.declareMachine_eq]
  funext visit node scope
  cases node with
  | finite name body span => exact hmachine visit (.finite name body span) scope _ _ _ _ Nat.one_pos
  | pushdown name stackNames body span =>
    exact hmachine visit (.pushdown name stackNames body span) scope _ _ _ _ (Nat.succ_pos _)
  | turing name tapes body span =>
    exact hmachine visit (.turing name tapes body span) scope _ _ _ _ length_tapeNames_pos
  | _ => rfl

/-- With the check, programs are evaluated as without it, by induction on the depth of the visits.
So the check could be left out. -/
theorem HandlerTable.visitWithin_checked (depth : Nat) :
    (checked maxLayers outside).visitWithin depth = (standard maxLayers).visitWithin depth := by
  -- Only the entry for declarations is another one, and the two entries are equal.
  have hresolve : ∀ kind, (checked maxLayers outside).resolve kind = (standard maxLayers).resolve
      kind := by
    intro kind
    unfold checked
    rw [Handler.checkedDeclaration_eq]
    cases kind <;> rfl
  induction depth with
  | zero => rfl
  | succ depth ih =>
    funext node scope
    unfold visitWithin
    rw [hresolve, ih]

/-! ## Modules -/

namespace Session

variable {s : Session} {m tree : Node} {modules : List Node}

/-- A module ends with a permitted error if it fails, in every session that extends a fresh one and
is fit. -/
theorem ends_evaluateIn (hm : m.IsModule) (hs : Extends ScopeTree.root .start s) (hfit : s.Fit) :
    Ends (Visit.Permits maxLayers m ScopeTree.root s) (fun _ => True)
      ((HandlerTable.standard maxLayers).evaluateIn m ScopeTree.root s) := by
  obtain ⟨nodes, span, rfl, hnodes⟩ := hm
  have hroot : Ends (Visit.Permits maxLayers (.root nodes span) ScopeTree.root s)
      (fun value? => ∀ a ∈ value?, a.Fit)
      (Visit.standard maxLayers (.root nodes span) ScopeTree.root s) :=
    Visit.ends_root hfit (Nat.lt_of_lt_of_le Nat.one_pos hs.size_le) (hs.collects (.inl rfl))
      (fun n hn _ _ => Visit.extends_of_isStatement (hnodes n hn)) (fun _ => id)
      fun n hn _ _ => Visit.ends_of_isStatement (hnodes n hn)
  exact hroot.map fun _ _ => trivial

/-- The results are fit after some modules, whether they fail or not. -/
theorem fit_afterModules (hmodules : ∀ m ∈ modules, m.IsModule)
    (hs : Extends ScopeTree.root .start s) (hfit : s.Fit) :
    (s.afterModules maxLayers modules).Fit := by
  induction modules generalizing s with
  | nil => exact hfit
  | cons m modules ih =>
    obtain ⟨hm, hmodules⟩ := List.forall_mem_cons.1 hmodules
    have hends := @ends_evaluateIn maxLayers _ _ hm hs hfit
    exact ih hmodules (hs.trans (extends_evaluateIn hm hs)) hends.fit

/-- If the evaluation of a program fails, in a session on which others may have been evaluated, no
handler was given a node that it is not made for, every transition addressed every tape and every
input had a tape. Machines with different numbers of tapes are only united, and are no finite
automata. Besides, the names of the stacks are never taken from an empty list: a check of it would
change nothing. -/
theorem evaluateIn_fails (maxLayers : Nat) (hmodules : ∀ m ∈ modules, m.Parsed)
    (htree : tree.Parsed) :
    let s := Session.start.afterModules maxLayers modules
    let result := (HandlerTable.standard maxLayers).evaluateIn tree ScopeTree.root s
    (∀ e t, result = (.error e, t) →
        (∀ d, e ≠ .dispatch d) ∧ (∀ span, e ≠ .endless span) ∧
          (∀ source target expected found, e ≠ .machine (.tapeCount source target expected found)) ∧
          (∀ index count, e ≠ .machine (.tapeIndex index count)) ∧
          ∀ l r, e = .machine (.incompatibleTapes l r) →
            Visit.UnitesUnlike maxLayers tree ScopeTree.root s l r) ∧
      ∀ outside, (HandlerTable.checked maxLayers outside).evaluateIn tree ScopeTree.root s =
        result := by
  have hmodule : ∀ {m : Node}, m.Parsed → m.IsModule :=
    fun ⟨_, _, hparse⟩ => isModule_of_parseProgram hparse
  intro s result
  have hs : Extends ScopeTree.root .start s :=
    extends_afterModules (fun m hm => hmodule (hmodules m hm)) (.refl _ _)
  have hfit : s.Fit := fit_afterModules (fun m hm => hmodule (hmodules m hm)) (.refl _ _) fit_start
  have hends := @ends_evaluateIn maxLayers _ _ (hmodule htree) hs hfit
  constructor
  · intro e t hresult
    have hresult : (HandlerTable.standard maxLayers).evaluateIn tree ScopeTree.root s =
        (.error e, t) := hresult
    rw [hresult] at hends
    -- An error of the program is none of those that are excluded. The only other one is that of a
    -- union.
    rcases hends.1 with hprogram | ⟨l, r, rfl, hunion⟩
    · have hne : ∀ e', ¬ e'.OfProgram → e ≠ e' := fun e' he' heq => he' (heq ▸ hprogram)
      exact ⟨fun _ => hne _ id, fun _ => hne _ id, fun _ _ _ _ => hne _ id, fun _ _ => hne _ id,
        fun _ _ heq => absurd heq (hne _ id)⟩
    · refine ⟨nofun, nofun, nofun, nofun, fun l' r' heq => ?_⟩
      cases heq
      exact hunion
  · -- The handlers with the check are the same functions, so the evaluation is the same.
    intro outside
    show discard ((HandlerTable.checked maxLayers outside).visitWithin _ tree ScopeTree.root) s = _
    rw [HandlerTable.visitWithin_checked]
    rfl

/-- Whether a module fails with an error in a session. -/
def failsWith (maxLayers : Nat) (e : EvaluationError) (s : Session) (m : Node) : Bool :=
  match ((HandlerTable.standard maxLayers).evaluateIn m ScopeTree.root s).1 with
  | .error found => found == e
  | .ok _ => false

/-- A module that fails with an error. -/
theorem of_failsWith {e : EvaluationError} (h : failsWith maxLayers e s m = true) :
    ∃ t, (HandlerTable.standard maxLayers).evaluateIn m ScopeTree.root s = (.error e, t) := by
  unfold failsWith at h
  generalize (HandlerTable.standard maxLayers).evaluateIn m ScopeTree.root s = result at *
  obtain ⟨found | _, t⟩ := result
  · exact ⟨t, congrArg (fun e => (Except.error e, t)) (beq_iff_eq.1 h)⟩
  · cases h

/-- Turing machines with one and with two tapes cannot be united, and the error is traced back to
the union that the program asks for. -/
theorem evaluateIn_fails_turing : ∃ tree t, tree.Parsed ∧
    (HandlerTable.standard 9).evaluateIn tree ScopeTree.root .start =
      (.error (.machine (.incompatibleTapes 1 2)), t) ∧
    Visit.UnitesUnlike 9 tree ScopeTree.root .start 1 2 := by
  have hfails : (parseProgram <|
      "turing a \x7b initial p \x7d\nturing b tapes [x, y] \x7b initial q \x7d\n" ++
        "turing c = a union b").toOption.any
      (fun result => failsWith 9 (.machine (.incompatibleTapes 1 2)) .start result.1) = true := by
    decide +kernel
  obtain ⟨⟨tree, tokens⟩, htree, hfails⟩ := (Option.any_eq_true _ _).1 hfails
  have htree : tree.Parsed := Node.parsed_of_toOption htree
  obtain ⟨t, hresult⟩ := of_failsWith hfails
  obtain ⟨hfail, -⟩ := evaluateIn_fails 9 (List.forall_mem_nil Node.Parsed) htree
  obtain ⟨-, -, -, -, hunion⟩ := hfail _ _ hresult
  exact ⟨tree, t, htree, hresult, hunion 1 2 rfl⟩

end Session

end MachineLang
