import MachineLang.Proofs.RuleReading

/-!
# How deep calls may go

Rules call each other as deep as they are allowed to; a rule that is not allowed to go deep enough
says that the rules have no end. That error is never taken back, so whatever else a rule says it
says as well if deeper calls are allowed (`RuleTable.refines_callFrom`): a rule `Refines` itself,
and there is one lemma for each way of putting parsers together.
-/

namespace MachineLang

namespace Parser

variable {α β : Type}

/-- The second parser does what the first one does, unless that says that the rules have no end. -/
def Refines (p q : Parser α) : Prop :=
  ∀ s, (∃ e t, p s = (.error e, t) ∧ e.isEndless = true) ∨ p s = q s

namespace Refines

variable {p q : Parser α} {f g : α → Parser β}

/-- A parser does what it does. -/
theorem refl (p : Parser α) : Refines p p := fun _ => .inr rfl

/-- What refines what refines a parser refines it. -/
theorem trans {r : Parser α} (h : Refines p q) (h' : Refines q r) : Refines p r := by
  intro s
  rcases h s with hendless | hsame
  · exact .inl hendless
  · rw [hsame]
    exact h' s

/-- A parser that says that the rules have no end is refined by any other one. -/
theorem endless (q : Parser α) : Refines Parser.endless q := by
  intro s
  refine .inl ⟨.invalid .endlessRules (.point s.location.1), s.location.2, ?_, rfl⟩
  unfold Parser.endless
  rw [Parser.bind_apply]
  rfl

/-- One parser after the other refines what the less deep ones do, step by step. -/
theorem bind (h : Refines p q) (hf : ∀ a, Refines (f a) (g a)) : Refines (p >>= f) (q >>= g) := by
  intro s
  rw [Parser.bind_apply, Parser.bind_apply]
  rcases h s with ⟨e, t, hp, he⟩ | hsame
  · exact .inl ⟨e, t, by rw [hp], he⟩
  · rw [← hsame]
    rcases p s with ⟨e | a, t⟩
    · exact .inr rfl
    · exact hf a t

/-- What goes on behind the same parser. -/
theorem bind_right (hf : ∀ a, Refines (f a) (g a)) : Refines (p >>= f) (p >>= g) := (refl p).bind hf

/-- A function of what a parser gives. -/
theorem map (k : α → β) (h : Refines p q) : Refines (k <$> p) (k <$> q) := h.bind fun _ => refl _

/-- Under changed settings a parser refines another one as it does under its own. -/
theorem withSettings (update : Settings → Settings) (h : Refines p q) :
    Refines (Parser.withSettings update p) (Parser.withSettings update q) := by
  intro s
  show (∃ e t, ((p (s.apply (update s.settings))).1,
    (p (s.apply (update s.settings))).2.apply s.settings) =
      (.error e, t) ∧ e.isEndless = true) ∨
    ((p (s.apply (update s.settings))).1, (p (s.apply (update s.settings))).2.apply s.settings) =
      ((q (s.apply (update s.settings))).1, (q (s.apply (update s.settings))).2.apply s.settings)
  rcases h (s.apply (update s.settings)) with ⟨e, t, hp, he⟩ | hsame
  · exact .inl ⟨e, t.apply s.settings, by rw [hp], he⟩
  · exact .inr (by rw [hsame])

/-- Under one more mode, if there is one. -/
theorem withMode? (mode : Option LexMode) (h : Refines p q) :
    Refines (Parser.withMode? mode p) (Parser.withMode? mode q) := by
  cases mode with
  | none => exact h
  | some mode => exact h.withSettings _

/-- That the rules have no end is not taken back. -/
theorem attempt (h : Refines p q) : Refines (Parser.attempt p) (Parser.attempt q) := by
  intro s
  rw [Parser.attempt_apply, Parser.attempt_apply]
  rcases h s with ⟨e, t, hp, he⟩ | hsame
  · refine .inl ⟨e, t, ?_, he⟩
    rw [hp]
    exact if_pos he
  · exact .inr (by rw [hsame])

/-- The first of some parsers that succeeds. -/
theorem oneOf {γ : Type} {ps qs : γ → Parser α} (names : List γ)
    (h : ∀ name ∈ names, Refines (ps name) (qs name)) (failure : SyntaxError) :
    Refines (Parser.oneOf failure (names.map ps)) (Parser.oneOf failure (names.map qs)) := by
  induction names generalizing failure with
  | nil => exact refl _
  | cons name names ih =>
    obtain ⟨hname, hnames⟩ := List.forall_mem_cons.1 h
    refine hname.attempt.bind fun result => ?_
    cases result with
    | done value => exact refl _
    | rolledBack e => exact ih hnames e

/-- Repeating a parser refines repeating the less deep one, as the number of rounds is the same. -/
theorem collect {step step' : Parser (Option α)} (h : Refines step step') :
    Refines (Parser.collect step) (Parser.collect step') := by
  have hwithin : ∀ steps values, Refines (Parser.collectWithin step steps values)
      (Parser.collectWithin step' steps values) := by
    intro steps
    induction steps with
    | zero => exact fun _ => refl _
    | succ steps ih =>
      refine fun values => h.bind fun found => ?_
      cases found with
      | none => exact refl _
      | some value => exact ih _
  exact bind_right fun steps => hwithin steps []

/-! ## Parsers of the language -/

section Combinators

variable {item item' : Parser Node}

/-- A sequence of statements refines what it does with less deep statements. -/
theorem statements (h : Refines item item') (opening : Option TokenKind) (closing : TokenKind)
    (start : Location) :
    Refines (Parser.statements opening closing item start)
      (Parser.statements opening closing item' start) := by
  have hstatement : Refines (Parser.statement closing item) (Parser.statement closing item') :=
    bind_right fun _ => bind_right fun _ => bind_right fun closed => by
      cases closed with
      | false => exact h.bind fun _ => refl _
      | true => exact refl _
  exact bind_right fun _ => withSettings _ (hstatement.collect.bind fun _ => refl _)

/-- A list in brackets refines what it does with elements that may call less deep rules: as long as
each element gives the same or runs out of depth, the whole list does. -/
theorem bracketed (h : Refines item item') (opening closing separator : TokenKind)
    (start : Location) :
    Refines (Parser.bracketed opening closing separator item start)
      (Parser.bracketed opening closing separator item' start) := by
  -- The loop over the elements has the same number of steps on both sides, so its steps are
  -- compared one by one.
  have helements : ∀ steps before, Refines (Parser.elementsWithin separator item steps before)
      (Parser.elementsWithin separator item' steps before) := by
    intro steps
    induction steps with
    | zero => exact fun _ => refl _
    | succ steps ih =>
      refine fun before => h.bind fun node => bind_right fun found => ?_
      split_ifs
      · exact ih _
      · exact refl _
  refine withSettings _ (bind_right fun _ => bind_right fun closed => ?_)
  split_ifs
  · exact refl _
  · exact bind_right fun steps => (helements steps []).bind fun _ => refl _

/-- Operations refine what they do with less deep operands, round by round: whether another operator
follows depends on the next token, and not on the depth. -/
theorem operationsWithin (h : Refines item item') (operators : List (TokenKind × BinaryOp))
    (start : Location) (steps : Nat) (left : Node) :
    Refines (Parser.operationsWithin operators item start steps left)
      (Parser.operationsWithin operators item' start steps left) := by
  induction steps generalizing left with
  | zero => exact refl _
  | succ steps ih =>
    refine bind_right fun op => ?_
    cases op with
    | none => exact refl _
    | some op => exact bind_right fun _ => h.bind fun right => bind_right fun span => ih _

end Combinators

section Leaves

variable {rule rule' : String → Parser Node} (h : ∀ name, Refines (rule name) (rule' name))
include h

/-- The rest of a declaration refines what it does with a less deep expression or body. -/
theorem declaration (kind : MachineKind) (name : Identifier) (tapes : List Identifier)
    (start : Location) :
    Refines (Parser.declaration rule kind name tapes start)
      (Parser.declaration rule' kind name tapes start) := by
  refine bind_right fun found => ?_
  split_ifs
  · exact (h _).bind fun _ => refl _
  · exact (h _).bind fun _ => refl _

/-- The names behind a contextual word. -/
theorem header (word : String) : Refines (Parser.header rule word) (Parser.header rule' word) := by
  refine bind_right fun found => ?_
  split_ifs
  · exact bind_right fun _ => (h _).bind fun _ => refl _
  · exact refl _

/-- The symbols behind a contextual word. -/
theorem symbolsAfter (word : String) :
    Refines (Parser.symbolsAfter rule word) (Parser.symbolsAfter rule' word) := by
  refine bind_right fun found => ?_
  split_ifs
  · exact bind_right fun _ => (h _).bind fun _ => refl _
  · exact refl _

/-- One symbol of an alternative is told by the next token, whatever the depth. -/
theorem alternativeItem : Refines (Parser.alternativeItem rule) (Parser.alternativeItem rule') := by
  intro s
  unfold Parser.alternativeItem
  rcases s.peek with ⟨e | token, t⟩
  · exact .inr rfl
  · cases token with
    | mk kind value location stop =>
      cases kind with
      | string | unterminatedString | nonTerminal | unclosedNonTerminal => exact (h _).map some t
      | _ => exact .inr rfl

/-- The productions of one head refine what they do with less deep symbols. -/
theorem production (start : Location) :
    Refines (Parser.production rule start) (Parser.production rule' start) := by
  -- The loop over the alternatives, step by step as for a list in brackets.
  have halternatives : ∀ steps before, Refines (Parser.alternativesWithin rule steps before)
      (Parser.alternativesWithin rule' steps before) := by
    intro steps
    induction steps with
    | zero => exact fun _ => refl _
    | succ steps ih =>
      refine fun before => (alternativeItem h).collect.bind fun sequence => bind_right fun found =>
        ?_
      split_ifs
      · exact ih _
      · exact refl _
  exact bind_right fun _ => bind_right fun _ => bind_right fun _ => bind_right fun steps =>
    (halternatives steps []).bind fun _ => refl _

/-- A value for a tape refines what it does with a less deep rule for the value. -/
theorem qualified (value : String) (start : Location) :
    Refines (Parser.qualified rule value start) (Parser.qualified rule' value start) :=
  bind_right fun _ => bind_right fun _ => (h _).bind fun _ => refl _

/-- A leaf does the same as long as the rules do that it calls. It builds one node from tokens of
its own and from what those rules read, and nothing else depends on them. -/
theorem leaf (l : Leaf) (start : Location) : Refines (l.read rule start) (l.read rule' start) := by
  cases l with
  -- Each leaf is a sequence of parsers: those that call rules refine by what is assumed, and the
  -- others are the same.
  | finite => exact bind_right fun name => declaration h _ _ _ _
  | pushdown => exact bind_right fun name => (header h _).bind fun _ => declaration h _ _ _ _
  | turing => exact bind_right fun name => (header h _).bind fun _ => declaration h _ _ _ _
  | grammar =>
    exact bind_right fun _ => bind_right fun _ => ((h _).withSettings _).bind fun _ => refl _
  | production => exact production h start
  | final => exact (h _).bind fun _ => refl _
  | print => exact (h _).bind fun _ => refl _
  | test => exact bind_right fun _ => (h _).bind fun _ => refl _
  | finiteTransition => exact bind_right fun _ => (h _).bind fun _ => refl _
  | pushdownTransition =>
    exact bind_right fun _ => (h _).bind fun _ => (symbolsAfter h _).bind fun _ =>
      bind_right fun _ =>
      bind_right fun _ => (symbolsAfter h _).bind fun _ => refl _
  | turingTransition =>
    exact bind_right fun _ => (h _).bind fun _ => bind_right fun _ => bind_right fun _ =>
      (h _).bind fun _ =>
      (h _).bind fun _ => refl _
  | qualifiedSymbol => exact qualified h _ start
  | qualifiedShift => exact qualified h _ start
  | parenthesized => exact (h _).bind fun _ => refl _
  | initial | shift | identifier | character | string | nonTerminal => exact refl _

end Leaves

end Refines

end Parser

open MachineLang.Parser

/-! ## One level of a rule -/

/-- Runs the rule of a name from a given place, where `run` runs the rules. -/
def RuleTable.callWith (table : RuleTable) (run : Combinator → Location → Parser Node)
    (name : String) (start : Location) : Parser Node :=
  match table.find? name with
  | none => throw (.invalid (.unknownRule name) (.point start))
  | some rule => run rule start

/-- Runs the rule of a name from the next token on, where `run` runs the rules. -/
def RuleTable.nextWith (table : RuleTable) (run : Combinator → Location → Parser Node)
    (name : String) : Parser Node := do
  table.callWith run name (← Parser.location)

/-- Runs a rule whose range begins at `start`, where `run` runs the rules that it calls. -/
def Combinator.readWith (table : RuleTable) (run : Combinator → Location → Parser Node)
    (rule : Combinator) (start : Location) : Parser Node :=
  match rule with
  | leaf l => l.read (table.nextWith run) start
  | choose mode branches fallback => do
    let token ← choiceToken mode (branches.map Branch.kind)
    match branches.find? fun b => b.kind == token.kind with
    | some branch =>
      withMode? mode do
        if branch.consume then let _ ← next
        table.callWith run branch.rule token.location
    | none =>
      match fallback with
      | some name => table.callWith run name token.location
      | none => throw (.unexpectedToken token (branches.map Branch.kind))
  | alternative rules =>
    oneOf (.invalid .noAlternatives (.point start))
      (rules.map fun name => table.callWith run name start)
  | root name opening closing => statements opening closing (table.nextWith run name) start
  | list element brackets separator => do
    match brackets with
    | some (opening, closing) =>
      if ← check opening then bracketed opening closing separator (table.nextWith run element) start
      else
        let item ← table.callWith run element start
        return .list [item] item.span
    | none =>
      let item ← table.callWith run element start
      return .list [item] item.span
  | binary operand operators => do
    let left ← table.callWith run operand start
    operationsWithin operators (table.nextWith run operand) start (← limit) left
  | unary operand operators => do
    match ← operator? operators with
    | some op =>
      let _ ← next
      let inner ← location
      let node ← run (unary operand operators) inner
      return .unary op node (← spanFrom start)
    | none => table.callWith run operand start

/-- A rule runs the rules that it calls with calls that are one less deep. -/
theorem Combinator.read_succ (table : RuleTable) (depth : Nat) (rule : Combinator)
    (start : Location) :
    rule.read table (depth + 1) start = rule.readWith table (Combinator.read table depth)
      start := by
  cases rule with
  | _ => rfl

/-- A rule does the same as long as the rules do that it calls: its own choices depend on the next
token only, whatever the depth that is left for calls. -/
theorem Combinator.refines_readWith (table : RuleTable)
    {run run' : Combinator → Location → Parser Node}
    (h : ∀ rule start, Refines (run rule start) (run' rule start)) (rule : Combinator)
    (start : Location) :
    Refines (rule.readWith table run start) (rule.readWith table run' start) := by
  have hcallWith : ∀ name start, Refines (table.callWith run name start)
      (table.callWith run' name start) := by
    intro name start
    unfold RuleTable.callWith
    split
    · exact .refl _
    · exact h _ _
  -- What is read with the location of the next token differs from a call only in what it starts
  -- with.
  have hnextWith : ∀ name, Refines (table.nextWith run name) (table.nextWith run' name) :=
    fun name =>
    .bind_right fun start => hcallWith name start
  cases rule with
  | leaf l => exact Refines.leaf hnextWith l start
  | choose mode branches fallback =>
    refine .bind_right fun token => ?_
    dsimp only
    split
    · refine .withMode? mode ?_
      split_ifs
      · exact .bind_right fun _ => hcallWith _ _
      · exact hcallWith _ _
    · split
      · exact hcallWith _ _
      · exact .refl _
  | alternative rules => exact .oneOf rules (fun name _ => hcallWith name start) _
  | root name opening closing => exact (hnextWith name).statements opening closing start
  | list element brackets separator =>
    have hbare : Refines
        (do let item ← table.callWith run element start; return Node.list [item] item.span)
        (do let item ← table.callWith run' element start; return Node.list [item] item.span) :=
      (hcallWith element start).bind fun _ => .refl _
    cases brackets with
    | none => exact hbare
    | some brackets =>
      refine .bind_right fun found => ?_
      split_ifs
      · exact (hnextWith element).bracketed _ _ separator start
      · exact hbare
  | binary operand operators =>
    exact (hcallWith operand start).bind fun left => .bind_right fun steps =>
      (hnextWith operand).operationsWithin operators start steps left
  | unary operand operators =>
    refine .bind_right fun op => ?_
    cases op with
    | none => exact hcallWith operand start
    | some op =>
      exact .bind_right fun _ => .bind_right fun inner => (h _ inner).bind fun _ => .refl _

/-- A rule does the same with calls that may be one deeper. -/
theorem Combinator.refines_read (table : RuleTable) (depth : Nat) (rule : Combinator)
    (start : Location) :
    Refines (rule.read table depth start) (rule.read table (depth + 1) start) := by
  induction depth generalizing rule start with
  | zero => exact Refines.endless _
  | succ depth ih =>
    rw [read_succ, read_succ]
    exact rule.refines_readWith table ih start

/-- The rule of a name does the same with deeper calls, unless the call ran out of depth. So any
depth that is enough gives the same result. -/
theorem RuleTable.refines_callFrom (table : RuleTable) {depth depth' : Nat} (h : depth ≤ depth')
    (name : String) (start : Location) :
    Refines (table.callFrom depth name start) (table.callFrom depth' name start) := by
  induction h with
  | refl => exact .refl _
  | step _ ih =>
    refine ih.trans ?_
    unfold callFrom
    split
    · exact .refl _
    · exact Combinator.refines_read table _ _ start

/-! ## Running the rule of a name -/

/-- The rule of a name is run from the next token on. -/
theorem RuleTable.parse_apply {table : RuleTable} {name : String} {rule : Combinator}
    {s t : TokenStream} {start : Location} (hfind : table.find? name = some rule)
    (hstart : Parser.location s = (.ok start, t)) :
    table.parse name s = rule.read table (table.depthLimit t.source) start t := by
  unfold RuleTable.parse
  rw [bind_apply, hstart, hfind]
  rfl

/-- How deep the calls of the rules of the language may go. -/
theorem RuleTable.depthLimit_standard (source : String) :
    standard.depthLimit source = 78 * (source.utf8ByteSize + 2) := by
  have hrules : 2 * standard.rules.length + 8 = 78 := by decide
  unfold depthLimit
  rw [hrules]

/-- Calls of the rules of the language may go some way. -/
theorem RuleTable.exists_depth (source : String) :
    ∃ depth, depth + 1 = standard.depthLimit source := by
  refine (Nat.exists_eq_add_one_of_ne_zero ?_).imp fun _ => Eq.symm
  rw [depthLimit_standard]
  omega

end MachineLang
