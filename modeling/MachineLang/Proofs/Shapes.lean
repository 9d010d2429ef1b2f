import MachineLang.Proofs.NextTokens
import MachineLang.Proofs.Outcomes
import MachineLang.Tree.Shapes

/-!
# Shapes of what is read

Every rule of the language reads nodes of a shape of its own (`RuleShape`), so the tree of every
program that is read is a sequence of statements (`isModule_of_parseProgram`). A parser `Gives`
values of some sort if whatever it gives is of that sort. The ways of putting rules together are
treated once for all tables: a rule `Fits` a shape if it has it whenever the rules that it calls
have theirs, which for each rule of the language is a matter of looking at its entry.
-/

namespace MachineLang

/-! ## Names -/

/-- A name has no space in it, so it is none of the reserved names, under which scopes collect what
belongs to machines and grammars. -/
theorem Lexes.plainName {modes : List LexMode} {value rest : List Char}
    (h : Lexes modes .identifier value rest) :
    PlainName (.ofList value) := by
  have hmode : ∀ m : LexMode, ∀ r ∈ m.rules, r.kind = .identifier →
      r.pattern.avoids ' ' = true := by
    intro m
    cases m <;> decide
  obtain ⟨r, hr, hkind, hmunch⟩ := h.exists_rule (by decide)
  obtain ⟨m, hm⟩ := exists_mem_rules hr
  intro hspace
  rw [String.toList_ofList] at hspace
  obtain ⟨before, after, rfl⟩ := List.append_of_mem hspace
  -- A name with a space would match at most what is in front of the space.
  have hle := Pattern.munch_le_length r.pattern before
  unfold Pattern.munch at hmunch hle
  rw [List.append_assoc, List.cons_append,
    Pattern.munchFrom_append_of_avoids (hmode m r hm hkind)] at hmunch
  rw [hmunch, List.length_append, List.length_cons] at hle
  omega

/-- The next token has no space in it if it is a name. -/
theorem TokenStream.plainName_nextToken {s : TokenStream} (h : s.nextToken.kind = .identifier) :
    PlainName s.nextToken.value := by
  have hlex : s.nextToken = (Cursor.lex (activeRules s.unbuffered.skip.settings.modes)
      ⟨s.unbuffered.skip.place, s.unbuffered.skip.cursor.rest⟩).1 := rfl
  generalize s.unbuffered.skip.cursor.rest = text at hlex
  -- At the end of the text the next token is the end, and no name.
  by_cases htext : text = []
  · subst htext
    rw [hlex] at h
    cases h
  · obtain ⟨kind, value, rest, rfl, hlexes⟩ :=
      Lexes.exists_of_ne_nil s.unbuffered.skip.settings.modes htext
    rw [hlexes.lex_eq] at hlex
    rw [hlex] at h ⊢
    obtain rfl : kind = .identifier := h
    exact hlexes.plainName

namespace Parser

variable {α β : Type}

/-! ## What parsers give -/

/-- The parser leaves a reliable, later stream, and what it gives is as stated. -/
def Gives (p : Parser α) (s : TokenStream) (Q : α → Prop) : Prop :=
  Reliable (p s).2 ∧ Later s (p s).2 ∧ ∀ value, (p s).1 = .ok value → Q value

/-- What is known of a parser and the streams that it leaves is known of what it gives. -/
theorem Meets.gives {p : Parser α} {s : TokenStream} {Q : α → TokenStream → Prop} {Q' : α → Prop}
    (h : p.Meets s Q) (himp : ∀ value t, Q value t → Q' value) : p.Gives s Q' := by
  obtain ⟨ht, hlater, hresult⟩ := h
  refine ⟨ht, hlater, fun value hvalue => himp value (p s).2 ?_⟩
  rw [hvalue] at hresult
  exact hresult

/-- A parser gives something, whatever it is. -/
theorem Meets.gives_true {p : Parser α} {s : TokenStream} {Q : α → TokenStream → Prop}
    (h : p.Meets s Q) :
    p.Gives s fun _ => True := h.gives fun _ _ _ => trivial

namespace Gives

variable {p : Parser α} {f : α → Parser β} {s : TokenStream} {Q Q' : α → Prop} {R : β → Prop}

/-- A value is given, if it is as stated. -/
theorem pure (hs : Reliable s) {value : α} (h : Q value) : (pure value : Parser α).Gives s Q :=
  ⟨hs, .refl s, fun _ heq => Except.ok.inj heq ▸ h⟩

/-- Nothing is given by an error, so there is nothing to state. -/
theorem throw (hs : Reliable s) (e : SyntaxError) : (throw e : Parser α).Gives s Q :=
  ⟨hs, .refl s, fun _ heq => by cases heq⟩

/-- What is given may be said in other words. -/
theorem imp (h : p.Gives s Q) (himp : ∀ value, Q value → Q' value) : p.Gives s Q' :=
  ⟨h.1, h.2.1, fun value hvalue => himp value (h.2.2 value hvalue)⟩

/-- A parser and one that goes on with what it gives. -/
theorem bind (h : p.Gives s Q) (hf : ∀ value t, Reliable t → Q value → (f value).Gives t R) :
    (p >>= f).Gives s R := by
  obtain ⟨ht, hlater, hresult⟩ := h
  have happly := Parser.bind_apply p f s
  unfold Gives
  rw [happly]
  generalize p s = result at *
  obtain ⟨e | value, t⟩ := result
  · exact ⟨ht, hlater, fun _ heq => by cases heq⟩
  · obtain ⟨hr, hlater', hresult'⟩ := hf value t ht (hresult value rfl)
    exact ⟨hr, hlater.trans hlater', hresult'⟩

/-- What a parser does on a stream may be what another one does on a later stream. -/
theorem of_eq {p' : Parser α} {t : TokenStream} (heq : p s = p' t) (hlater : Later s t)
    (h : p'.Gives t Q) :
    p.Gives s Q := by
  unfold Gives
  rw [heq]
  exact ⟨h.1, hlater.trans h.2.1, h.2.2⟩

/-- A function of what a parser gives. -/
theorem map {g : α → β} (h : p.Gives s Q) (hg : ∀ value, Q value → R (g value)) :
    (g <$> p).Gives s R :=
  h.bind fun value _ ht hvalue => Gives.pure ht (hg value hvalue)

/-- On an error the handler goes on. -/
theorem tryCatch {handler : SyntaxError → Parser α} (h : p.Gives s Q)
    (hhandler : ∀ e t, Reliable t → (handler e).Gives t Q) : (tryCatch p handler).Gives s Q := by
  obtain ⟨ht, hlater, hresult⟩ := h
  have happly := Parser.tryCatch_apply p handler s
  unfold Gives
  rw [happly]
  generalize p s = result at *
  obtain ⟨e | value, t⟩ := result
  · obtain ⟨hr, hlater', hresult'⟩ := hhandler e t ht
    exact ⟨hr, hlater.trans hlater', hresult'⟩
  · exact ⟨ht, hlater, hresult⟩

/-- A parser under changed settings gives what it does under these. -/
theorem withSettings {update : Settings → Settings} (hs : Reliable s)
    (hordinary : (update s.settings).Ordinary) (h : p.Gives (s.apply (update s.settings)) Q) :
    (Parser.withSettings update p).Gives s Q := by
  obtain ⟨ht, hlater, hresult⟩ := h
  exact ⟨(ht.apply hs.ordinary).1, hs.later_apply hordinary ht hlater, hresult⟩

/-- A parser with a mode on top of those in force. -/
theorem withMode {mode : LexMode} (hs : Reliable s) (h : ∀ t, Reliable t → p.Gives t Q) :
    (Parser.withMode mode p).Gives s Q :=
  withSettings hs (hs.ordinary.push mode) (h _ (hs.apply (hs.ordinary.push mode)).1)

/-- The first of some parsers that succeeds gives a node of the shape that all of them give, and an
attempt that fails leaves the stream to the next one. -/
theorem oneOf {failure : SyntaxError} {ps : List (Parser α)} (hs : Reliable s)
    (h : ∀ p ∈ ps, ∀ t, Reliable t → p.Gives t Q) : (Parser.oneOf failure ps).Gives s Q := by
  induction ps generalizing s failure with
  | nil => exact Gives.throw hs failure
  | cons p ps ih =>
    obtain ⟨hp, hps⟩ := List.forall_mem_cons.1 h
    -- An attempt that fails leads back to where it began.
    have hattempt : (Parser.attempt p).Gives s fun result => ∀ value, result = .done value →
        Q value := by
      obtain ⟨ht, hlater, hresult⟩ := hp s hs
      have happly := Parser.attempt_apply p s
      unfold Gives
      rw [happly]
      generalize p s = result at *
      obtain ⟨e | value, t⟩ := result
      · dsimp only
        split_ifs
        · exact ⟨ht, hlater, fun _ heq => by cases heq⟩
        · have hback := hs.restore ht hlater
          exact ⟨hback.reliable, hback.later, fun _ heq => by cases heq; exact nofun⟩
      · refine ⟨ht, hlater, fun _ heq => ?_⟩
        cases heq
        exact fun _ heq => Attempt.done.inj heq ▸ hresult value rfl
    refine hattempt.bind fun result t ht hresult => ?_
    cases result with
    | done value => exact Gives.pure ht (hresult value rfl)
    | rolledBack e => exact ih ht hps

/-- Rules without end give nothing, so there is nothing to state. -/
theorem endless (hs : Reliable s) : (Parser.endless : Parser α).Gives s Q :=
  (Meets.endless (Q := fun _ _ => False) hs).gives fun _ _ h => h.elim

/-- What is known of every value of a repeated parser is known of all of them. -/
theorem collect {step : Parser (Option α)} (hs : Reliable s)
    (hstep : ∀ t, Reliable t → step.Gives t fun found => ∀ value ∈ found, Q value) :
    (Parser.collect step).Gives s fun values => ∀ value ∈ values, Q value := by
  -- The loop keeps what it has read so far, all of it as it should be.
  have hwithin : ∀ steps s, Reliable s → ∀ before : List α, (∀ value ∈ before, Q value) →
      (Parser.collectWithin step steps before).Gives s fun values => ∀ value ∈ values, Q value := by
    intro steps
    induction steps with
    | zero => exact fun s hs _ _ => endless hs
    | succ steps ih =>
      intro s hs before hbefore
      refine (hstep s hs).bind fun found t ht hfound => ?_
      cases found with
      | none => exact Gives.pure ht fun value hvalue => hbefore value (List.mem_reverse.1 hvalue)
      | some value => exact ih t ht _ (List.forall_mem_cons.2 ⟨hfound value rfl, hbefore⟩)
  exact ((Meets.limit hs).gives_true).bind fun steps t ht _ =>
    hwithin steps t ht [] (List.forall_mem_nil _)

/-! ## Single tokens -/

/-- A token is read if it is of one of some kinds. -/
theorem expect (hs : Reliable s) (kinds : List TokenKind) :
    (Parser.expect kinds).Gives s fun _ => True :=
  (Meets.expect hs kinds).gives_true

/-- A token is read if it is of a kind. -/
theorem accept (hs : Reliable s) (kind : TokenKind) : (Parser.accept kind).Gives s fun _ => True :=
  (Meets.accept hs kind).gives_true

/-- The next token is compared with a word. -/
theorem checkWord (hs : Reliable s) (word : String) :
    (Parser.checkWord word).Gives s fun _ => True :=
  (Meets.checkWord hs word).gives_true

/-- The next token is read, whatever it is. -/
theorem next (hs : Reliable s) : Parser.next.Gives s fun _ => True := (Meets.next hs).gives_true

/-- A range ends where the last token read does. -/
theorem spanFrom (hs : Reliable s) (start : Location) :
    (Parser.spanFrom start).Gives s fun _ => True :=
  (Meets.spanFrom hs start).gives_true

/-- A name has no space in it. -/
theorem identifier (hs : Reliable s) : Parser.identifier.Gives s fun id => PlainName id.name := by
  have hexpect : (Parser.expect [.identifier]).Gives s fun token => PlainName token.value :=
    (Meets.expect hs _).gives fun token t htook => by
      obtain ⟨htook, hkind⟩ := htook
      rw [htook.token_eq] at hkind ⊢
      exact TokenStream.plainName_nextToken (List.mem_singleton.1 hkind)
  exact hexpect.bind fun token t ht hplain => Gives.pure ht hplain

/-- A character is read as one. -/
theorem character (hs : Reliable s) : Parser.character.Gives s Node.IsCondition := by
  refine (expect hs _).bind fun token t ht _ => ?_
  split
  · exact Gives.pure ht (.character _ _)
  · split
    · exact Gives.pure ht (.character _ _)
    · exact Gives.throw ht _
  · exact Gives.pure ht (.character _ _)

/-- A string is read as one. -/
theorem string (hs : Reliable s) :
    Parser.string.Gives s fun n => ∃ value span, n = .string value span := by
  refine (expect hs _).bind fun token t ht _ => ?_
  split_ifs
  · exact (Gives.throw (Q := fun _ => False) ht _).bind fun _ _ _ h => h.elim
  · exact Gives.pure ht ⟨_, _, rfl⟩

/-- The name of a non-terminal is read off its token, which is there already. -/
theorem nonTerminalName (hs : Reliable s) (token : Token) :
    (Parser.nonTerminalName token).Gives s fun _ => True := by
  unfold Parser.nonTerminalName
  split
  · exact Gives.pure hs trivial
  · exact Gives.throw hs _
  · exact Gives.pure hs trivial

/-- A non-terminal is read as one. -/
theorem nonTerminal (hs : Reliable s) :
    Parser.nonTerminal.Gives s fun n => ∃ name span, n = .nonTerminal name span := by
  refine (expect hs _).bind fun token t ht _ => ?_
  exact (nonTerminalName ht token).bind fun name r hr _ => Gives.pure hr ⟨_, _, rfl⟩

/-- A movement is read as one. -/
theorem shift (hs : Reliable s) :
    Parser.shift.Gives s fun n => ∃ direction span, n = .shift direction span := by
  refine (expect hs _).bind fun token t ht _ => ?_
  split
  · exact Gives.pure ht ⟨_, _, rfl⟩
  · exact Gives.throw ht _

end Gives

end Parser

/-! ## The shapes of rules -/

/-- The shape of what the rule of a name reads. -/
def RuleShape (name : String) (n : Node) : Prop :=
  match name with
  | "module" => n.IsModule
  | "body" => n.IsModule
  | "statement" => n.IsStatement
  | "finite" => n.IsStatement
  | "pushdown" => n.IsStatement
  | "turing" => n.IsStatement
  | "grammar" => n.IsStatement
  | "grammar_body" => ∃ nodes span, n = .root nodes span ∧ ∀ m ∈ nodes, m.IsProduction
  | "production" => n.IsProduction
  | "initial" => n.IsStatement
  | "final" => n.IsStatement
  | "print" => n.IsStatement
  | "test" => n.IsStatement
  | "transition" => n.IsStatement
  | "finite_transition" => n.IsStatement
  | "pushdown_transition" => n.IsStatement
  | "turing_transition" => n.IsStatement
  | "condition" => n.IsCondition
  | "symbols" => ∀ item ∈ n.items, item.IsTapeSymbol
  | "tape_symbol" => n.IsTapeSymbol
  | "qualified_symbol" => n.IsTapeSymbol
  | "shifts" => ∀ item ∈ n.items, item.IsTapeShift
  | "tape_shift" => n.IsTapeShift
  | "qualified_shift" => n.IsTapeShift
  | "shift" => ∃ direction span, n = .shift direction span
  | "expression" => n.IsExpression
  | "unary" => n.IsExpression
  | "primary" => n.IsExpression
  | "parenthesized" => n.IsExpression
  | "identifier" => ∃ id, n = .identifier id ∧ PlainName id.name
  | "character" => n.IsCondition
  | "string" => ∃ value span, n = .string value span
  | "non_terminal" => ∃ name span, n = .nonTerminal name span
  | _ => True

/-- The shape of what a leaf reads: all that evaluation relies on. -/
def Leaf.Shape : Leaf → Node → Prop
  | .production, n => n.IsProduction
  | .qualifiedSymbol, n => n.IsTapeSymbol
  | .qualifiedShift, n => n.IsTapeShift
  | .shift, n => ∃ direction span, n = .shift direction span
  | .parenthesized, n => n.IsExpression
  | .identifier, n => ∃ id, n = .identifier id ∧ PlainName id.name
  | .character, n => n.IsCondition
  | .string, n => ∃ value span, n = .string value span
  | .nonTerminal, n => ∃ name span, n = .nonTerminal name span
  | _, n => n.IsStatement

namespace Parser

section Leaves

variable {rule : String → Parser Node}
  (hrule : ∀ name s, Reliable s → (rule name).Gives s (RuleShape name)) {s : TokenStream}
include hrule

/-- The rest of a declaration of a machine gives a machine with a body of statements, or one that is
given by an expression. -/
theorem gives_declaration (hs : Reliable s) (kind : MachineKind) {name : Identifier}
    (hname : PlainName name.name) (tapes : List Identifier) (start : Location) :
    (declaration rule kind name tapes start).Gives s Node.IsStatement := by
  refine (Gives.accept hs _).bind fun found t ht _ => ?_
  split_ifs
  · refine (hrule "expression" t ht).bind fun value r hr hvalue => ?_
    exact (Gives.spanFrom hr start).bind fun span q hq _ =>
      Gives.pure hq (.assignment kind hname hvalue span)
  · refine (hrule "body" t ht).bind fun body r hr hbody => ?_
    obtain ⟨nodes, inner, rfl, hnodes⟩ := hbody
    refine (Gives.spanFrom hr start).bind fun span q hq _ => ?_
    cases kind with
    | finite => exact Gives.pure hq (.finite hname hnodes inner span)
    | pushdown => exact Gives.pure hq (.pushdown hname tapes hnodes inner span)
    | turing => exact Gives.pure hq (.turing hname tapes hnodes inner span)

/-- The names behind a word are read if the word is there, and the stream stays reliable. -/
theorem gives_header (hs : Reliable s) (word : String) :
    (header rule word).Gives s fun _ => True := by
  refine (Gives.checkWord hs word).bind fun found t ht _ => ?_
  split_ifs
  · refine (Gives.next ht).bind fun _ r hr _ => ?_
    exact (hrule "name_list" r hr).bind fun names q hq _ => Gives.pure hq trivial
  · exact Gives.pure ht trivial

/-- The symbols behind a word, if the word is there, have the form of symbols on tapes. -/
theorem gives_symbolsAfter (hs : Reliable s) (word : String) :
    (symbolsAfter rule word).Gives s fun found => ∀ n ∈ found.getD [], n.IsTapeSymbol := by
  refine (Gives.checkWord hs word).bind fun found t ht _ => ?_
  split_ifs
  · refine (Gives.next ht).bind fun _ r hr _ => ?_
    exact (hrule "symbols" r hr).bind fun symbols q hq hsymbols => Gives.pure hq hsymbols
  · exact Gives.pure ht (List.forall_mem_nil _)

omit hrule in
/-- The declared start symbol of a grammar. -/
theorem gives_startSymbol (hs : Reliable s) : startSymbol.Gives s fun _ => True := by
  refine (Gives.checkWord hs _).bind fun found t ht _ => ?_
  split_ifs
  · refine (Gives.next ht).bind fun _ r hr _ => ?_
    refine (Gives.withMode hr fun r' hr' => Gives.expect hr' _).bind fun token q hq _ => ?_
    exact (Gives.nonTerminalName hq token).bind fun name q' hq' _ => Gives.pure hq' trivial
  · exact Gives.pure ht trivial

/-- A grammar is a statement whose body holds productions only. -/
theorem gives_grammar (hs : Reliable s) (start : Location) :
    (grammar rule start).Gives s Node.IsStatement := by
  refine (Gives.identifier hs).bind fun name t ht hname => ?_
  refine (gives_startSymbol ht).bind fun startName r hr _ => ?_
  refine (Gives.withMode hr (hrule "grammar_body")).bind fun body q hq hbody => ?_
  obtain ⟨nodes, inner, rfl, hnodes⟩ := hbody
  exact (Gives.spanFrom hq start).bind fun span r' hr' _ =>
    Gives.pure hr' (.grammar hname startName hnodes inner span)

/-- A symbol of an alternative is an item. -/
theorem gives_alternativeItem (hs : Reliable s) :
    (alternativeItem rule).Gives s fun found => ∀ n ∈ found, n.IsItem := by
  obtain ⟨t, hstays, hread | hread | hread⟩ := exists_alternativeItem_eq rule hs
  · refine .of_eq hread hstays.later ((hrule "string" t hstays.reliable).map fun n hn => ?_)
    obtain ⟨value, span, rfl⟩ := hn
    exact fun n hn => Option.mem_some_iff.1 hn ▸ .string _ _
  · refine .of_eq hread hstays.later ((hrule "non_terminal" t hstays.reliable).map fun n hn => ?_)
    obtain ⟨name, span, rfl⟩ := hn
    exact fun n hn => Option.mem_some_iff.1 hn ▸ .nonTerminal _ _
  · exact .of_eq hread hstays.later (Gives.pure hstays.reliable fun n hn => absurd hn (by simp))

/-- The alternatives of a production consist of texts and non-terminals. -/
theorem gives_alternativesWithin (hs : Reliable s) {steps : Nat} {before : List (List Node)}
    (hbefore : ∀ items ∈ before, ∀ n ∈ items, n.IsItem) :
    (alternativesWithin rule steps before).Gives s fun alternatives =>
      ∀ items ∈ alternatives, ∀ n ∈ items, n.IsItem := by
  induction steps generalizing s before with
  | zero => exact Gives.endless hs
  | succ steps ih =>
    refine (Gives.collect hs fun _ => gives_alternativeItem hrule).bind fun items t ht hitems => ?_
    have hall := List.forall_mem_cons.2 ⟨hitems, hbefore⟩
    refine (Gives.accept ht _).bind fun found r hr _ => ?_
    split_ifs
    · exact ih hr hall
    · exact Gives.pure hr fun items hmem => hall items (List.mem_reverse.1 hmem)

/-- Every leaf reads nodes of its shape, provided that the rules that it calls do. Its shape says no
more of their nodes than what those rules give. -/
theorem gives_leaf (l : Leaf) (hs : Reliable s) (start : Location) :
    (l.read rule start).Gives s l.Shape := by
  -- Each leaf is read part by part: what its parts are like is what its shape asks for.
  cases l with
  | finite =>
    exact (Gives.identifier hs).bind fun name t ht hname =>
      gives_declaration hrule ht .finite hname [] start
  | pushdown =>
    refine (Gives.identifier hs).bind fun name t ht hname => ?_
    exact (gives_header hrule ht _).bind fun names r hr _ =>
      gives_declaration hrule hr .pushdown hname names start
  | turing =>
    refine (Gives.identifier hs).bind fun name t ht hname => ?_
    exact (gives_header hrule ht _).bind fun names r hr _ =>
      gives_declaration hrule hr .turing hname names start
  | grammar => exact gives_grammar hrule hs start
  | production =>
    refine (Gives.expect hs _).bind fun token t ht _ => ?_
    refine (Gives.nonTerminalName ht token).bind fun head r hr _ => ?_
    refine (Gives.expect hr _).bind fun _ q hq _ => ?_
    refine (Meets.limit hq).gives_true.bind fun steps q' hq' _ => ?_
    refine (gives_alternativesWithin hrule hq' (List.forall_mem_nil _)).bind
      fun alternatives r' hr' hitems => ?_
    exact (Gives.spanFrom hr' start).bind fun span r'' hr'' _ =>
      Gives.pure hr'' (.production head.name hitems span)
  | initial =>
    refine (Gives.identifier hs).bind fun state t ht _ => ?_
    exact (Gives.spanFrom ht start).bind fun span r hr _ => Gives.pure hr (.initial state span)
  | final =>
    refine (hrule "name_list" s hs).bind fun names t ht _ => ?_
    exact (Gives.spanFrom ht start).bind fun span r hr _ => Gives.pure hr (.final _ span)
  | print =>
    refine (hrule "string" s hs).bind fun message t ht _ => ?_
    exact (Gives.spanFrom ht start).bind fun span r hr _ => Gives.pure hr (.print _ span)
  | test =>
    refine (Gives.identifier hs).bind fun automaton t ht hname => ?_
    refine (hrule "string_list" t ht).bind fun inputs r hr _ => ?_
    exact (Gives.spanFrom hr start).bind fun span q hq _ => Gives.pure hq (.test hname _ span)
  | finiteTransition =>
    refine (Gives.identifier hs).bind fun source t ht _ => ?_
    refine (hrule "condition" t ht).bind fun condition r hr hcondition => ?_
    refine (Gives.expect hr _).bind fun _ q hq _ => ?_
    refine (Gives.identifier hq).bind fun target q' hq' _ => ?_
    exact (Gives.spanFrom hq' start).bind fun span r' hr' _ =>
      Gives.pure hr' (.transition (.finite source hcondition target span))
  | pushdownTransition =>
    refine (Gives.identifier hs).bind fun source t ht _ => ?_
    refine (hrule "condition" t ht).bind fun condition r hr hcondition => ?_
    refine (gives_symbolsAfter hrule hr _).bind fun pop q hq hpop => ?_
    refine (Gives.expect hq _).bind fun _ t' ht' _ => ?_
    refine (Gives.identifier ht').bind fun target q' hq' _ => ?_
    refine (gives_symbolsAfter hrule hq' _).bind fun push r' hr' hpush => ?_
    refine (Gives.spanFrom hr' start).bind fun span r'' hr'' _ => ?_
    split_ifs
    · exact (Gives.throw (Q := fun _ => False) hr'' _).bind fun _ _ _ h => h.elim
    · exact Gives.pure hr'' (.transition (.pushdown source hcondition hpop target hpush span))
  | turingTransition =>
    refine (Gives.identifier hs).bind fun source t ht _ => ?_
    refine (hrule "symbols" t ht).bind fun read r hr hread => ?_
    refine (Gives.expect hr _).bind fun _ t' ht' _ => ?_
    refine (Gives.identifier ht').bind fun target q' hq' _ => ?_
    refine (hrule "symbols" q' hq').bind fun write r' hr' hwrite => ?_
    refine (hrule "shifts" r' hr').bind fun shift q hq hshift => ?_
    exact (Gives.spanFrom hq start).bind fun span r'' hr'' _ =>
      Gives.pure hr'' (.transition (.turing source hread target hwrite hshift span))
  | qualifiedSymbol =>
    refine (Gives.identifier hs).bind fun tape t ht _ => ?_
    refine (Gives.expect ht _).bind fun _ r hr _ => ?_
    refine (hrule "condition" r hr).bind fun condition q hq hcondition => ?_
    exact (Gives.spanFrom hq start).bind fun span q' hq' _ =>
      Gives.pure hq' (.qualified tape hcondition span)
  | qualifiedShift =>
    refine (Gives.identifier hs).bind fun tape t ht _ => ?_
    refine (Gives.expect ht _).bind fun _ r hr _ => ?_
    refine (hrule "shift" r hr).bind fun shift q hq hshift => ?_
    obtain ⟨direction, inner, rfl⟩ := hshift
    exact (Gives.spanFrom hq start).bind fun span q' hq' _ =>
      Gives.pure hq' (.qualified tape direction inner span)
  | shift => exact Gives.shift hs
  | parenthesized =>
    refine (hrule "expression" s hs).bind fun expression t ht hexpression => ?_
    exact (Gives.expect ht _).bind fun _ r hr _ => Gives.pure hr hexpression
  | identifier => exact (Gives.identifier hs).map fun id hplain => ⟨id, rfl, hplain⟩
  | character => exact Gives.character hs
  | string => exact Gives.string hs
  | nonTerminal => exact Gives.nonTerminal hs

end Leaves

/-! ## Ways of putting rules together -/

section Combinators

variable {item : Parser Node} {P : Node → Prop} {s : TokenStream}

/-- Separators are skipped, and the stream stays reliable. -/
theorem gives_skipSeparatorsWithin (hs : Reliable s) (steps : Nat) :
    (skipSeparatorsWithin steps).Gives s fun _ => True := by
  induction steps generalizing s with
  | zero => exact Gives.endless hs
  | succ steps ih =>
    have hcheck : ∀ kind t, Reliable t → (check kind).Gives t fun _ => True := fun kind t ht =>
      (Meets.check ht kind).gives_true
    have hseparator : (do
        if ← check .newline then return true else check .semicolon : Parser Bool).Gives s
        fun _ => True := by
      refine (hcheck _ s hs).bind fun found t ht _ => ?_
      split_ifs
      · exact Gives.pure ht trivial
      · exact hcheck _ t ht
    refine hseparator.bind fun found t ht _ => ?_
    split_ifs
    · exact (Gives.next ht).bind fun _ r hr _ => ih hr
    · exact Gives.pure ht trivial

/-- A sequence of statements of one shape is a node that holds them, whatever token opens and closes
it and however many there are. -/
theorem gives_statements (hs : Reliable s) (hitem : ∀ t, Reliable t → item.Gives t P)
    (opening : Option TokenKind) (closing : TokenKind) (start : Location) :
    (statements opening closing item start).Gives s fun n =>
      ∃ nodes span, n = .root nodes span ∧ ∀ m ∈ nodes, P m := by
  have hopened : (opened opening start).Gives s fun _ => True := by
    cases opening with
    | none => exact Gives.pure hs trivial
    | some kind => exact (Gives.expect hs _).map fun _ _ => trivial
  -- There is no statement if the closing token comes next behind the separators.
  have hstatement : ∀ t, Reliable t → (statement closing item).Gives t fun found =>
      ∀ n ∈ found, P n := by
    intro t ht
    refine (Meets.limit ht).gives_true.bind fun steps r hr _ => ?_
    refine (gives_skipSeparatorsWithin hr steps).bind fun _ q hq _ => ?_
    refine (Meets.check hq closing).gives_true.bind fun found r' hr' _ => ?_
    split_ifs
    · exact (Gives.next hr').bind fun _ q' hq' _ => Gives.pure hq' fun n hn => absurd hn (by simp)
    · exact (hitem r' hr').bind fun node q' hq' hnode =>
        Gives.pure hq' fun n hn => Option.mem_some_iff.1 hn ▸ hnode
  refine hopened.bind fun start' t ht _ => ?_
  have hordinary := ht.ordinary.intercept [.newline, .endOfInput]
  refine Gives.withSettings ht hordinary ?_
  refine (Gives.collect (ht.apply hordinary).1 hstatement).bind fun nodes r hr hnodes => ?_
  exact (Gives.spanFrom hr start').bind fun span q hq _ => Gives.pure hq ⟨nodes, span, rfl, hnodes⟩

/-- Elements of one shape make a list of which all are of the shape. -/
theorem gives_elementsWithin (hs : Reliable s) (hitem : ∀ t, Reliable t → item.Gives t P)
    (separator : TokenKind) {steps : Nat} {before : List Node} (hbefore : ∀ n ∈ before, P n) :
    (elementsWithin separator item steps before).Gives s fun nodes => ∀ n ∈ nodes, P n := by
  induction steps generalizing s before with
  | zero => exact Gives.endless hs
  | succ steps ih =>
    refine (hitem s hs).bind fun node t ht hnode => ?_
    have hall := List.forall_mem_cons.2 ⟨hnode, hbefore⟩
    refine (Gives.accept ht _).bind fun found r hr _ => ?_
    split_ifs
    · exact ih hr hall
    · exact Gives.pure hr fun n hn => hall n (List.mem_reverse.1 hn)

/-- A list in brackets of elements of one shape is a node that holds them. It may be empty, so
nothing is said about a first element. -/
theorem gives_bracketed (hs : Reliable s) (hitem : ∀ t, Reliable t → item.Gives t P)
    (opening closing separator : TokenKind) (start : Location) :
    (bracketed opening closing separator item start).Gives s fun n =>
      ∃ items span, n = .list items span ∧ ∀ m ∈ items, P m := by
  have hordinary : (s.settings.ignore [.newline]).Ordinary := hs.ordinary.ignore (by decide)
  refine Gives.withSettings hs hordinary ?_
  refine (Gives.expect (hs.apply hordinary).1 _).bind fun _ t ht _ => ?_
  refine (Meets.check ht closing).gives_true.bind fun found r hr _ => ?_
  -- Both branches end with the closing token and give the list that was read.
  have hclose : ∀ nodes : List Node, (∀ n ∈ nodes, P n) → ∀ q, Reliable q →
      (do let _ ← expect [closing]; return .list nodes (← spanFrom start) : Parser Node).Gives q
        fun n =>
        ∃ items span, n = .list items span ∧ ∀ m ∈ items, P m := fun nodes hnodes q hq =>
    (Gives.expect hq _).bind fun _ q' hq' _ => (Gives.spanFrom hq' start).bind fun span r' hr' _ =>
      Gives.pure hr' ⟨nodes, span, rfl, hnodes⟩
  split_ifs
  · exact hclose [] (List.forall_mem_nil _) r hr
  · refine (Meets.limit hr).gives_true.bind fun steps q hq _ => ?_
    exact (gives_elementsWithin hq hitem separator (List.forall_mem_nil _)).bind
      fun nodes q' hq' hnodes =>
      hclose nodes hnodes q' hq'

/-- Operations on operands of one shape are nodes of the shape of operations, whose right operands
are plain ones: chains are grouped to the left. -/
theorem gives_operationsWithin {R : Node → Prop} (hs : Reliable s)
    (hitem : ∀ t, Reliable t → item.Gives t R)
    (hbinary : ∀ op left right span, P left → R right → P (.binary op left right span))
    (operators : List (TokenKind × BinaryOp)) (start : Location) {steps : Nat} {left : Node}
    (hleft : P left) :
    (operationsWithin operators item start steps left).Gives s P := by
  induction steps generalizing s left with
  | zero => exact Gives.endless hs
  | succ steps ih =>
    refine (Meets.operator? hs operators).gives_true.bind
      fun op t ht _ => ?_
    -- Without another operator the operand read so far is the result.
    cases op with
    | none => exact Gives.pure ht hleft
    | some op =>
      refine (Gives.next ht).bind fun _ r hr _ => ?_
      refine (hitem r hr).bind fun right q hq hright => ?_
      exact (Gives.spanFrom hq start).bind fun span q' hq' _ =>
        ih hq' (hbinary op left right span hleft hright)

/-- The next token of a choice. -/
theorem gives_choiceToken (hs : Reliable s) (mode : Option LexMode) (kinds : List TokenKind) :
    (choiceToken mode kinds).Gives s fun _ => True := by
  have hpeek : ∀ t, Reliable t → peek.Gives t fun _ => True := fun t ht =>
    (Meets.peek ht).gives_true
  have hmode : (withMode? mode peek).Gives s fun _ => True := by
    cases mode with
    | none => exact hpeek s hs
    | some mode => exact Gives.withMode hs hpeek
  refine Gives.tryCatch hmode fun e t ht => ?_
  split
  · exact Gives.throw ht _
  · exact Gives.throw ht _

end Combinators

end Parser

/-! ## Rules -/

/-- Whether what the rule reads has a shape if what the rules read that it calls have theirs. -/
def Combinator.Fits (P : Node → Prop) : Combinator → Prop
  | leaf l => ∀ n, l.Shape n → P n
  | choose _ branches fallback =>
    (∀ branch ∈ branches, ∀ n, RuleShape branch.rule n → P n) ∧ ∀ name ∈ fallback, ∀ n,
      RuleShape name n → P n
  | alternative rules => ∀ name ∈ rules, ∀ n, RuleShape name n → P n
  | root item _ _ => ∀ nodes span, (∀ n ∈ nodes, RuleShape item n) → P (.root nodes span)
  | list element _ _ => ∀ items span, (∀ n ∈ items, RuleShape element n) → P (.list items span)
  | binary operand _ => (∀ n, RuleShape operand n → P n) ∧
    ∀ op left right span, P left → RuleShape operand right → P (.binary op left right span)
  | unary operand _ => (∀ n, RuleShape operand n → P n) ∧ ∀ op n span, P n → P (.unary op n span)

/-- All rules of the language read nodes of their shapes if those that they call do. -/
theorem RuleTable.fits_of_find? {name : String} {rule : Combinator}
    (h : standard.find? name = some rule) :
    rule.Fits (RuleShape name) := by
  have hnone : ∀ {P : Node → Prop}, ∀ name ∈ (none : Option String), ∀ n, RuleShape name n → P n :=
    fun _ hname => absurd hname (Option.not_mem_none _)
  have hstatement : ∀ branch ∈ statementBranches,
      ∀ n, RuleShape branch.rule n → n.IsStatement := by
    simp only [statementBranches, List.forall_mem_cons]
    exact ⟨fun _ => id, fun _ => id, fun _ => id, fun _ => id, fun _ => id, fun _ => id,
      fun _ => id, fun _ => id, List.forall_mem_nil _⟩
  have hcondition : ∀ branch ∈ conditionBranches,
      ∀ n, RuleShape branch.rule n → n.IsCondition := by
    have hstring : ∀ n, RuleShape "string" n → n.IsCondition :=
      fun n ⟨value, span, h⟩ => h ▸ .string value span
    have hname : ∀ n, RuleShape "identifier" n → n.IsCondition :=
      fun n ⟨id, h, _⟩ => h ▸ .identifier id
    simp only [conditionBranches, List.forall_mem_cons]
    exact ⟨fun _ => id, fun _ => id, fun _ => id, hstring, hstring, hname, List.forall_mem_nil _⟩
  have hprimary : ∀ branch ∈ primaryBranches, ∀ n, RuleShape branch.rule n →
      n.IsExpression := by
    have hname : ∀ n, RuleShape "identifier" n → n.IsExpression :=
      fun n ⟨id, h, hplain⟩ => h ▸ .identifier hplain
    simp only [primaryBranches, List.forall_mem_cons]
    exact ⟨fun _ => id, hname, List.forall_mem_nil _⟩
  have hshift : ∀ n, RuleShape "shift" n → n.IsTapeShift :=
    fun n ⟨direction, span, h⟩ => h ▸ .bare direction span
  have hfallback : ∀ name ∈ some "transition", ∀ n, RuleShape name n → n.IsStatement :=
    fun name hname => Option.mem_some_iff.1 hname ▸ fun _ => id
  have htransition : ∀ name ∈ ["turing_transition", "pushdown_transition", "finite_transition"],
      ∀ n, RuleShape name n → n.IsStatement := by
    simp only [List.forall_mem_cons]
    exact ⟨fun _ => id, fun _ => id, fun _ => id, List.forall_mem_nil _⟩
  have htapeSymbol : ∀ name ∈ ["qualified_symbol", "condition"], ∀ n, RuleShape name n →
      n.IsTapeSymbol := by
    simp only [List.forall_mem_cons]
    exact ⟨fun _ => id, fun _ => .bare, List.forall_mem_nil _⟩
  have htapeShift : ∀ name ∈ ["qualified_shift", "shift"], ∀ n, RuleShape name n →
      n.IsTapeShift := by
    simp only [List.forall_mem_cons]
    exact ⟨fun _ => id, hshift, List.forall_mem_nil _⟩
  have hroot : ∀ {P : Node → Prop} nodes span, (∀ n ∈ nodes, P n) →
      ∃ nodes' span', Node.root nodes span = .root nodes' span' ∧ ∀ n ∈ nodes', P n :=
    fun nodes span h => ⟨nodes, span, rfl, h⟩
  -- The table is a list, so the rules can be gone through one by one.
  have hall : ∀ entry ∈ standard.rules, entry.2.Fits (RuleShape entry.1) := by
    unfold standard
    dsimp only
    simp only [List.forall_mem_cons]
    refine ⟨hroot, hroot, ⟨hstatement, hfallback⟩, fun _ => id, fun _ => id, fun _ => id,
      fun _ => id, hroot, fun _ => id, fun _ => id, fun _ => id, fun _ => id, fun _ => id,
      htransition, fun _ => id, fun _ => id, fun _ => id, ⟨hcondition, hnone⟩, fun _ _ h => h,
      htapeSymbol, fun _ => id, fun _ _ h => h, htapeShift, fun _ => id, fun _ => id,
      fun _ _ _ => trivial, fun _ _ _ => trivial, ⟨fun _ => id, ?_⟩, ⟨fun _ => id, ?_⟩,
      ⟨hprimary, hnone⟩, fun _ => id, fun _ => id, fun _ => id, fun _ => id, fun _ => id,
      List.forall_mem_nil _⟩
    · exact fun op _ _ span hleft hright => .binary op hleft hright span
    · exact fun op _ span h => .unary op h span
  obtain ⟨before, after, hrules, -⟩ := List.lookup_eq_some_iff.1 h
  refine hall (name, rule) ?_
  rw [hrules]
  exact List.mem_append_right _ List.mem_cons_self

section Calls

variable {depth : Nat} {s : TokenStream} {name : String} {P : Node → Prop}
  (hread : ∀ (rule : Combinator) (P : Node → Prop), rule.Fits P → ∀ s, Reliable s → ∀ start,
    (rule.read .standard depth start).Gives s P)
include hread

/-- A rule that is called by name reads nodes of its shape. -/
theorem RuleTable.gives_callFrom_of_read (hs : Reliable s) (name : String) (start : Location) :
    (standard.callFrom depth name start).Gives s (RuleShape name) := by
  unfold callFrom
  split
  · exact Parser.Gives.throw hs _
  · next rule hfind => exact hread rule _ (fits_of_find? hfind) s hs start

/-- A rule that is called by name reads nodes of its shape from the next token on. -/
theorem RuleTable.gives_call_of_read (hs : Reliable s) (name : String) :
    (standard.call depth name).Gives s (RuleShape name) :=
  (Parser.Meets.location hs).gives_true.bind fun start _ ht _ =>
    gives_callFrom_of_read hread ht name start

/-- A choice reads the nodes of its branches and of its fallback. Which of them is called depends on
the next token, so all of them must have the shape. -/
theorem Combinator.gives_choose {mode : Option LexMode} {branches : List Branch}
    {fallback : Option String} (hrule : (choose mode branches fallback).Fits P) (hs : Reliable s)
    (start : Location) :
    ((choose mode branches fallback).read .standard (depth + 1) start).Gives s P := by
  obtain ⟨hbranches, hfallback⟩ := hrule
  refine (Parser.gives_choiceToken hs mode _).bind fun token t ht _ => ?_
  dsimp only
  split
  · next branch hfind =>
    -- The rule of the branch is called, behind its keyword if that is to be consumed.
    have hcalled : ∀ q, Reliable q →
        (RuleTable.standard.callFrom depth branch.rule token.location).Gives q P :=
      fun q hq => (RuleTable.gives_callFrom_of_read hread hq _ _).imp
        (hbranches branch (List.mem_of_find?_eq_some hfind))
    have hbranch : ∀ q, Reliable q → (do
        if branch.consume then let _ ← Parser.next
        RuleTable.standard.callFrom depth branch.rule token.location : Parser Node).Gives q P := by
      intro q hq
      split_ifs
      · exact (Parser.Gives.next hq).bind fun _ q' hq' _ => hcalled q' hq'
      · exact hcalled q hq
    cases mode with
    | none => exact hbranch t ht
    | some mode => exact Parser.Gives.withMode ht hbranch
  · split
    · next other =>
      exact (RuleTable.gives_callFrom_of_read hread ht other _).imp (hfallback other rfl)
    · exact Parser.Gives.throw ht _

/-- A list holds nodes of the shape of its elements, whether it is written in brackets or consists
of one element without them. -/
theorem Combinator.gives_list {brackets : Option (TokenKind × TokenKind)} {separator : TokenKind}
    (hrule : (list name brackets separator).Fits P) (hs : Reliable s) (start : Location) :
    ((list name brackets separator).read .standard (depth + 1) start).Gives s P := by
  -- Without brackets there is one element.
  have hbare : ∀ t, Reliable t → (do
      let item ← RuleTable.standard.callFrom depth name start
      return .list [item] item.span : Parser Node).Gives t P := fun t ht =>
    (RuleTable.gives_callFrom_of_read hread ht name start).bind fun item r hr hitem =>
      Parser.Gives.pure hr (hrule [item] _ (List.forall_mem_singleton.2 hitem))
  cases brackets with
  | none => exact hbare s hs
  | some brackets =>
    obtain ⟨opening, closing⟩ := brackets
    refine (Parser.Meets.check hs opening).gives_true.bind fun found t ht _ => ?_
    split_ifs
    · refine (Parser.gives_bracketed ht (fun _ ht => RuleTable.gives_call_of_read hread ht name)
        opening closing separator start).imp fun n hn => ?_
      obtain ⟨items, span, rfl, hitems⟩ := hn
      exact hrule items span hitems
    · exact hbare t ht

/-- Operators between operands make nodes of the shape. -/
theorem Combinator.gives_binary {operators : List (TokenKind × BinaryOp)}
    (hrule : (binary name operators).Fits P) (hs : Reliable s) (start : Location) :
    ((binary name operators).read .standard (depth + 1) start).Gives s P := by
  obtain ⟨hoperand, hbinary⟩ := hrule
  refine (RuleTable.gives_callFrom_of_read hread hs name start).bind fun left t ht hleft => ?_
  refine (Parser.Meets.limit ht).gives_true.bind fun steps r hr _ => ?_
  exact Parser.gives_operationsWithin hr (fun _ hs => RuleTable.gives_call_of_read hread hs name)
    hbinary operators start (hoperand left hleft)

/-- Operators in front of an operand make nodes of the shape, one around the other, with the operand
as the innermost one. -/
theorem Combinator.gives_unary {operators : List (TokenKind × UnaryOp)}
    (hrule : (unary name operators).Fits P) (hs : Reliable s) (start : Location) :
    ((unary name operators).read .standard (depth + 1) start).Gives s P := by
  refine (Parser.Meets.operator? hs operators).gives_true.bind fun op t ht _ => ?_
  cases op with
  | none => exact (RuleTable.gives_callFrom_of_read hread ht name start).imp hrule.1
  | some op =>
    refine (Parser.Gives.next ht).bind fun _ r hr _ => ?_
    refine (Parser.Meets.location hr).gives_true.bind fun inner q hq _ => ?_
    refine (hread (unary name operators) P hrule q hq inner).bind fun n q' hq' hn => ?_
    exact (Parser.Gives.spanFrom hq' start).bind fun span r' hr' _ =>
      Parser.Gives.pure hr' (hrule.2 op n span hn)

end Calls

/-- Every rule reads nodes of its shape, by induction on the depth of the calls. So the shapes that
are stated for each rule hold of all trees that are read. -/
theorem Combinator.gives_read {depth : Nat} {rule : Combinator} {P : Node → Prop}
    (hrule : rule.Fits P) {s : TokenStream} (hs : Reliable s) (start : Location) :
    (rule.read .standard depth start).Gives s P := by
  -- By induction on the depth of the calls: a rule that is called reads nodes of its shape already.
  induction depth generalizing rule P s start with
  | zero => exact Parser.Gives.endless hs
  | succ depth ih =>
    have hread : ∀ (rule : Combinator) (P : Node → Prop), rule.Fits P → ∀ s, Reliable s → ∀ start,
        (rule.read .standard depth start).Gives s P := fun _ _ hrule _ hs start => ih hrule hs start
    have hcall : ∀ name s, Reliable s → (RuleTable.standard.call depth name).Gives s
        (RuleShape name) :=
      fun name _ hs => RuleTable.gives_call_of_read hread hs name
    cases rule with
    | leaf l => exact (Parser.gives_leaf hcall l hs start).imp hrule
    | choose mode branches fallback => exact gives_choose hread hrule hs start
    | alternative rules =>
      exact Parser.Gives.oneOf hs (List.forall_mem_map.2 fun name hname t ht =>
        (RuleTable.gives_callFrom_of_read hread ht name start).imp (hrule name hname))
    | root name opening closing =>
      refine (Parser.gives_statements hs (hcall name) opening closing start).imp fun n hn => ?_
      obtain ⟨nodes, span, rfl, hnodes⟩ := hn
      exact hrule nodes span hnodes
    | list element brackets separator => exact gives_list hread hrule hs start
    | binary operand operators => exact gives_binary hread hrule hs start
    | unary operand operators => exact gives_unary hread hrule hs start

/-- The rule of a name reads nodes of its shape. -/
theorem RuleTable.gives_callFrom_shape {s : TokenStream} (hs : Reliable s) (depth : Nat)
    (name : String) (start : Location) :
    (standard.callFrom depth name start).Gives s (RuleShape name) :=
  gives_callFrom_of_read (fun _ _ hrule _ hs start => Combinator.gives_read hrule hs start)
    hs name start

/-- From the next token on, the rule of a name reads nodes of its shape. -/
theorem RuleTable.gives_call_shape {s : TokenStream} (hs : Reliable s) (depth : Nat)
    (name : String) :
    (standard.call depth name).Gives s (RuleShape name) :=
  gives_call_of_read (fun _ _ hrule _ hs start => Combinator.gives_read hrule hs start) hs name

/-! ## Programs -/

/-- The tree of every program that is read is a sequence of statements. All that is proved of
evaluation by induction over statements starts from this. -/
theorem isModule_of_parseProgram {source : String} {tree : Node} {tokens : List Token}
    (h : parseProgram source = .ok (tree, tokens)) : tree.IsModule := by
  have hparse : (RuleTable.standard.parse "module").Gives (.ofSource source) Node.IsModule := by
    refine (Parser.Meets.location (Reliable.ofSource source)).gives_true.bind
      fun start t ht _ => ?_
    have hget : (get : Parser TokenStream).Gives t fun _ => True :=
      ⟨ht, .refl t, fun _ _ => trivial⟩
    refine hget.bind fun r _ hr _ => ?_
    have hfind : RuleTable.standard.find? "module" = some (.root "statement" none .endOfInput) :=
      rfl
    rw [hfind]
    exact Combinator.gives_read (P := Node.IsModule)
      (show Combinator.Fits _ (.root "statement" none .endOfInput) from
        fun nodes span hnodes => ⟨nodes, span, rfl, hnodes⟩) hr start
  unfold parseProgram at h
  obtain ⟨-, -, hresult⟩ := hparse
  generalize RuleTable.standard.parse "module" (.ofSource source) = result at *
  obtain ⟨e | value, t⟩ := result
  · cases h
  · cases h
    exact hresult _ rfl

end MachineLang
