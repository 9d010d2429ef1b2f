import MachineLang.Proofs.Scopes
import MachineLang.Proofs.TapeValues
import Mathlib.Data.List.Forall2

/-!
# What written transitions say

A statement that writes a transition names its states and says values: symbols and moves, each for a
tape. The relations of this module read them off the tree, one constructor for each kind of node,
and `Node.Writes` says which transition of a machine is written: the values that the statement says
are put on the tapes, the last one for each tape (`OnTapes`). This is the transition that evaluating
the statement and building the machine comes to (`Node.writes_of_transition`).
-/

namespace MachineLang

/-! ## Values -/

namespace Node

/-- A character or a string says a symbol. -/
inductive SaysSymbol : Node → Symbol → Prop
  | character (value : String) (span : Span) : SaysSymbol (.character value span) value.toList
  | string (value : String) (span : Span) : SaysSymbol (.string value span) value.toList

/-- A shift says where a head moves. -/
inductive SaysDirection : Node → Direction → Prop
  | shift (direction : Direction) (span : Span) : SaysDirection (.shift direction span) direction

/-- A value is said for the tape that is named in front of it, or without a name. -/
inductive SaysValue {α : Type} (Says : Node → α → Prop) : Node → TapeValue α → Prop
  | named {node : Node} {value : α} (tape : Identifier) (span : Span) (h : Says node value) :
    SaysValue Says (.qualified tape node span) ⟨some tape, value⟩
  | unnamed {node : Node} {value : α} (h : Says node value) : SaysValue Says node ⟨none, value⟩

end Node

/-- Values are put on tapes: each is for a tape, and the last one for a tape is on it. Where a name
is given to two tapes, the first one counts. -/
structure OnTapes {α : Type} (tapes : List String) (neutral : α) (values : List (TapeValue α))
    (result : List α) : Prop where
  /-- The values can be put on the tapes. -/
  arranged : ∃ automaton span, arrange automaton tapes span neutral values = .ok result
  /-- On tapes with different names every value is for one of them. -/
  addresses : tapes.Nodup → ∀ i < values.length, ∃ t, Addresses tapes values i t
  /-- The last value for each tape is on it, and the neutral value where there is none. -/
  holdsLast : tapes.Nodup → HoldsLast tapes neutral values result
  /-- All values are there if and only if those for the same tape are equal. -/
  holdsAll_iff : tapes.Nodup → (HoldsAll tapes neutral values result ↔ Agree tapes values)

/-- The nodes say values, and these are put on tapes. -/
def Node.SayOnTapes {α : Type} (Says : Node → α → Prop) (tapes : List String) (neutral : α)
    (nodes : List Node) (result : List α) : Prop :=
  ∃ values, List.Forall₂ (SaysValue Says) nodes values ∧ OnTapes tapes neutral values result

/-- The statement writes the transition of a machine with these tapes. The first tape of a pushdown
automaton is its input, the others are its stacks. -/
inductive Node.Writes (tapes : List String) : {k : MachineKind} → Node → Transition k → Prop
  | finite {source target : Identifier} {condition : Node} {span : Span} {read : Symbol}
      (hread : condition.SaysSymbol read) :
      Writes tapes (.finiteTransition source condition target span)
        (⟨source.name, [read], target.name, ()⟩ : Transition .finite)
  | pushdown {source target : Identifier} {condition : Node} {pop push : List Node} {span : Span}
      {read : Symbol} {popped pushed : List Symbol} (hread : condition.SaysSymbol read)
      (hpop : SayOnTapes SaysSymbol (tapes.drop 1) epsilon pop popped)
      (hpush : SayOnTapes SaysSymbol (tapes.drop 1) epsilon push pushed) :
      Writes tapes (.pushdownTransition source condition pop target push span)
        (⟨source.name, read :: popped, target.name, StackAction.mk pushed⟩ : Transition .pushdown)
  | turing {source target : Identifier} {read write shift : List Node} {span : Span}
      {symbols words : List Symbol} {moves : List Direction}
      (hread : SayOnTapes SaysSymbol tapes epsilon read symbols)
      (hwrite : SayOnTapes SaysSymbol tapes epsilon write words)
      (hshift : SayOnTapes SaysDirection tapes .stay shift moves) :
      Writes tapes (.turingTransition source read target write shift span)
        (⟨source.name, symbols, target.name, TapeAction.mk words moves⟩ : Transition .turing)

/-! ## What evaluation finds -/

/-- Values that are arranged are put on the tapes: on tapes with different names, the last value for
each of them is there. -/
theorem onTapes_of_arrange {α : Type} {automaton : String} {tapes : List String} {span : Span}
    {neutral : α} {values : List (TapeValue α)} {result : List α}
    (h : arrange automaton tapes span neutral values = .ok result) :
    OnTapes tapes neutral values result := by
  have hsettles : tapes.Nodup → (∀ i < values.length, ∃ t, Addresses tapes values i t) ∧
      HoldsLast tapes neutral values result := by
    intro hnodup
    have hsettles := settles_arrange hnodup automaton span neutral values
    rw [h] at hsettles
    exact hsettles
  refine ⟨⟨automaton, span, h⟩, fun hnodup => (hsettles hnodup).1,
    fun hnodup => (hsettles hnodup).2,
    fun hnodup => ?_⟩
  exact (hsettles hnodup).2.holdsAll_iff hnodup (hsettles hnodup).1

/-- What is computed one by one is computed for each. -/
theorem forall₂_of_mapM_eq_ok {ε α β : Type} {f : α → Except ε β} {l : List α} {bs : List β}
    (h : l.mapM f = .ok bs) : List.Forall₂ (fun a b => f a = .ok b) l bs := by
  induction l generalizing bs with
  | nil =>
    obtain rfl := Except.ok.inj h
    exact .nil
  | cons a l ih =>
    rw [List.mapM_cons] at h
    obtain ⟨b, hb, h⟩ := exists_of_bind_eq_ok h
    obtain ⟨rest, hrest, h⟩ := exists_of_bind_eq_ok h
    obtain rfl := Except.ok.inj h
    exact .cons hb (ih hrest)

namespace Node

variable {node : Node}

/-- The symbol that is found is the one that is said. -/
theorem saysSymbol_of_symbolOf {s : Symbol} (h : symbolOf node = .ok s) : node.SaysSymbol s := by
  cases node with
  | character value span =>
    obtain rfl := Except.ok.inj h
    exact .character value span
  | string value span =>
    obtain rfl := Except.ok.inj h
    exact .string value span
  | _ => cases h

/-- The direction that is found is the one that is said. -/
theorem saysDirection_of_directionOf {d : Direction} (h : directionOf node = .ok d) :
    node.SaysDirection d := by
  cases node with
  | shift direction span =>
    obtain rfl := Except.ok.inj h
    exact .shift direction span
  | _ => cases h

/-- The symbol for a tape that is found is the one that is said. -/
theorem saysValue_of_tapeSymbolOf {v : TapeValue Symbol} (h : tapeSymbolOf node = .ok v) :
    node.SaysValue SaysSymbol v := by
  unfold tapeSymbolOf at h
  split at h
  all_goals
    obtain ⟨s, hs, h⟩ := exists_of_bind_eq_ok h
    obtain rfl := Except.ok.inj h
  · exact .named _ _ (saysSymbol_of_symbolOf hs)
  · exact .unnamed (saysSymbol_of_symbolOf hs)

/-- The move for a tape that is found is the one that is said. -/
theorem saysValue_of_tapeShiftOf {v : TapeValue Direction} (h : tapeShiftOf node = .ok v) :
    node.SaysValue SaysDirection v := by
  unfold tapeShiftOf at h
  split at h
  all_goals
    obtain ⟨d, hd, h⟩ := exists_of_bind_eq_ok h
    obtain rfl := Except.ok.inj h
  · exact .named _ _ (saysDirection_of_directionOf hd)
  · exact .unnamed (saysDirection_of_directionOf hd)

/-- Values that are found one by one and arranged are put on the tapes. -/
theorem sayOnTapes_of_mapM {α : Type} {Says : Node → α → Prop}
    {valueOf : Node → Except EvaluationError (TapeValue α)}
    (hvalueOf : ∀ {n v}, valueOf n = .ok v → SaysValue Says n v) {automaton : String}
    {tapes : List String} {span : Span} {neutral : α} {nodes : List Node}
    {values : List (TapeValue α)} {result : List α} (hvalues : nodes.mapM valueOf = .ok values)
    (hresult : arrange automaton tapes span neutral values = .ok result) :
    SayOnTapes Says tapes neutral nodes result :=
  ⟨values, (forall₂_of_mapM_eq_ok hvalues).imp fun _ _ => hvalueOf, onTapes_of_arrange hresult⟩

/-- The transition that is built from what a statement is evaluated to is the one that it writes. -/
theorem writes_of_transition {k : MachineKind} {d : Declaration} {declared : DeclaredTransition}
    {t : Transition k} (hdeclared : declaredTransitionOf node = .ok declared)
    (ht : d.transition k declared = .ok t) : node.Writes d.tapes t := by
  -- One case for each kind of transition; a declared transition of one kind makes none of another.
  cases node with
  | finiteTransition source condition target span =>
    obtain ⟨read, hread, h⟩ := exists_of_bind_eq_ok hdeclared
    obtain rfl := Except.ok.inj h
    cases k with
    | finite =>
      obtain rfl := Except.ok.inj ht
      exact .finite (saysSymbol_of_symbolOf hread)
    | _ => cases ht
  | pushdownTransition source condition pop target push span =>
    obtain ⟨read, hread, h⟩ := exists_of_bind_eq_ok hdeclared
    obtain ⟨popValues, hpop, h⟩ := exists_of_bind_eq_ok h
    obtain ⟨pushValues, hpush, h⟩ := exists_of_bind_eq_ok h
    obtain rfl := Except.ok.inj h
    cases k with
    | pushdown =>
      obtain ⟨popped, hpopped, h⟩ := exists_of_bind_eq_ok ht
      obtain ⟨pushed, hpushed, h⟩ := exists_of_bind_eq_ok h
      obtain rfl := Except.ok.inj h
      exact .pushdown (saysSymbol_of_symbolOf hread)
        (sayOnTapes_of_mapM saysValue_of_tapeSymbolOf hpop hpopped)
        (sayOnTapes_of_mapM saysValue_of_tapeSymbolOf hpush hpushed)
    | _ => cases ht
  | turingTransition source read target write shift span =>
    obtain ⟨readValues, hread, h⟩ := exists_of_bind_eq_ok hdeclared
    obtain ⟨writeValues, hwrite, h⟩ := exists_of_bind_eq_ok h
    obtain ⟨shiftValues, hshift, h⟩ := exists_of_bind_eq_ok h
    obtain rfl := Except.ok.inj h
    cases k with
    | turing =>
      obtain ⟨symbols, hsymbols, h⟩ := exists_of_bind_eq_ok ht
      obtain ⟨words, hwords, h⟩ := exists_of_bind_eq_ok h
      obtain ⟨moves, hmoves, h⟩ := exists_of_bind_eq_ok h
      obtain rfl := Except.ok.inj h
      exact .turing (sayOnTapes_of_mapM saysValue_of_tapeSymbolOf hread hsymbols)
        (sayOnTapes_of_mapM saysValue_of_tapeSymbolOf hwrite hwords)
        (sayOnTapes_of_mapM saysValue_of_tapeShiftOf hshift hmoves)
    | _ => cases ht
  | _ => cases hdeclared

/-- The transitions that are built from what statements are evaluated to are those that they write,
in the same order. -/
theorem forall₂_writes {k : MachineKind} {d : Declaration} {nodes : List Node}
    {written : List DeclaredTransition} {transitions : List (Transition k)}
    (hwritten : nodes.mapM declaredTransitionOf = .ok written)
    (htransitions : written.mapM (d.transition k) = .ok transitions) :
    List.Forall₂ (Writes d.tapes) nodes transitions := by
  replace hwritten := forall₂_of_mapM_eq_ok hwritten
  replace htransitions := forall₂_of_mapM_eq_ok htransitions
  induction hwritten generalizing transitions with
  | nil =>
    cases htransitions
    exact .nil
  | cons hdeclared _ ih =>
    cases htransitions with
    | cons ht hrest => exact .cons (writes_of_transition hdeclared ht) (ih hrest)

end Node

end MachineLang
