import MachineLang.Proofs.Sequences
import MachineLang.Proofs.TransitionFollowing

/-!
# Statements side by side

The rules for expressions, declarations and statements are followed by themselves in the other
source, by induction on how deep their calls go. What is asked for behind a statement is that what
follows may follow one, and that no operator comes next in the other source alone (`Closes`).
-/

namespace MachineLang

open MachineLang.Parser

variable {J : Splice} {settings : Settings} {d d' : Nat} {t : List Char}

/-! ## Lists of names and strings -/

namespace RuleFollows

/-- The rule for lists of strings or of names reads the same list in both sources: it begins with a
bracket or with its only element, in front of the ending. -/
theorem tokenList {name rule : String}
    (hfind : RuleTable.standard.find? name = some
      (.list rule (some (.leftBracket, .rightBracket)) .comma))
    (hrule : rule ∈ ["string", "identifier"]) (hle : d ≤ d') :
    RuleFollows J ⟨[.base], lineBlanks⟩ d d' name (Stands J ⟨[.base], lineBlanks⟩) fun _ _ =>
      True := by
  have hsolid : ∀ kind ∈ Recognizer.symbolKinds rule, kind.isSolid = true := by
    have hrules : ∀ rule ∈ ["string", "identifier"], ∀ kind ∈ Recognizer.symbolKinds rule,
        kind.isSolid = true := by
      decide
    exact hrules rule hrule
  cases d with
  | zero => exact zero
  | succ d =>
    obtain ⟨d', rfl⟩ := Nat.exists_eq_add_one_of_ne_zero (by omega : d' ≠ 0)
    refine (listOf (B := fun ignored => Starts J ⟨[.base], ignored⟩ (Recognizer.symbolKinds rule))
      (E := fun _ _ => True) hfind
      (fun ignored hsettings => leaf_token (List.mem_cons_of_mem _ hrule) (.of_ofLine hsettings)
        (by omega))
      (fun ignored hsettings t ht => ht.alike hsettings hsolid)
      fun _ _ _ _ => trivial).mono (fun t ht => ?_) fun _ _ => id
    -- A list begins with a bracket or with its only element; both stand in front of the ending.
    rcases ht with ht | ht
    · exact (ht.alike .brackets (by decide)).stands .line
    · exact (ht.alike .line hsolid).stands .line

end RuleFollows

namespace Follows

/-- The names in lists that look the same do. -/
theorem same_identifiersOf {node node' : Node} (h : J.Same Node.relocated node node') :
    (identifiersOf node).map (Identifier.relocated J.view) = (identifiersOf node').map
      (Identifier.relocated J.view') := by
  have hitems : ∀ (f : Location → Location) (n : Node),
      (identifiersOf n).map (Identifier.relocated f) = (n.relocated f).items.filterMap
        Node.identifier? := by
    intro f n
    unfold identifiersOf
    rw [Node.items_relocated, List.filterMap_map, List.map_filterMap]
    exact congrArg (List.filterMap · n.items) (funext fun m => (Node.identifier?_relocated m).symm)
  rw [hitems, hitems, show node.relocated J.view = _ from h]

/-- The strings in lists that look the same are the same. -/
theorem same_stringsOf {node node' : Node} (h : J.Same Node.relocated node node') :
    stringsOf node' = stringsOf node := by
  have hitems : ∀ (f : Location → Location) (n : Node),
      stringsOf n = (n.relocated f).items.filterMap Node.string? := by
    intro f n
    unfold stringsOf
    rw [Node.items_relocated, List.filterMap_map]
    exact congrArg (List.filterMap · n.items) (funext fun m => (Node.string?_relocated m).symm)
  rw [hitems J.view' node', hitems J.view node, show node.relocated J.view = _ from h]

end Follows

/-! ## Expressions -/

/-- No operator comes next in the other source, unless the next token lies inside the text. -/
def EndsOperands (J : Splice) (t : List Char) : Prop :=
  Stands J ⟨[.base], lineBlanks⟩ t ∨
    ∀ kind value rest, Next ⟨[.base], lineBlanks⟩ kind value rest (t ++ J.rest') →
      infixOperators.lookup kind = none

/-- The rules for expressions, from the outermost level down to operands, follow each other at one
depth. They call each other in a circle, so they are proved together. -/
theorem RuleFollows.expressions (hle : d ≤ d') :
    RuleFollows J ⟨[.base], lineBlanks⟩ d d' "expression" (Stands J ⟨[.base], lineBlanks⟩)
      (fun _ => EndsOperands J) ∧
    RuleFollows J ⟨[.base], lineBlanks⟩ d d' "unary" (Stands J ⟨[.base], lineBlanks⟩)
      (fun _ => EndsOperands J) ∧
    RuleFollows J ⟨[.base], lineBlanks⟩ d d' "primary" (Stands J ⟨[.base], lineBlanks⟩)
      (fun _ => EndsOperands J) ∧
    RuleFollows J ⟨[.base], lineBlanks⟩ d d' "parenthesized" (Stands J ⟨[.base], lineBlanks⟩)
      (fun _ => EndsOperands J) := by
  have hinner := Settings.Inner.of_ofLine .line
  -- By induction on the depth, for all four at once: they call each other in a circle.
  induction d generalizing d' with
  | zero => exact ⟨zero, zero, zero, zero⟩
  | succ d ih =>
    obtain ⟨d', rfl⟩ := Nat.exists_eq_add_one_of_ne_zero (by omega : d' ≠ 0)
    obtain ⟨hexpression, hunary, hprimary, hparenthesized⟩ := ih (by omega : d ≤ d')
    refine ⟨?_, ?_, ?_, ?_⟩
    · refine of_find (.binary "unary" infixOperators) rfl fun start start' hstart => ?_
      refine (hunary start start' hstart).bind fun left left' hleft => ?_
      refine (Follows.limit (EndsOperands J)).bind fun steps steps' hle => ?_
      exact Follows.operationsWithin hinner (hunary.call hinner fun _ => id) (fun t ht => ht.ne_nil)
        (fun t => .inl) (fun t => id) hstart hle hleft
    · refine of_find (.unary "primary" prefixOperators) rfl fun start start' hstart => ?_
      have hoperator : Follows J ⟨[.base], lineBlanks⟩ (Stands J ⟨[.base], lineBlanks⟩) Eq
          (fun _ => Stands J ⟨[.base], lineBlanks⟩) (operator? prefixOperators)
            (operator? prefixOperators) :=
        Follows.operator? hinner fun h => ⟨h, .inl h⟩
      refine hoperator.bind fun op op' hop => ?_
      subst hop
      cases op with
      | none => exact hprimary start start' hstart
      | some op =>
        refine (Follows.next hinner).bind fun _ _ _ =>
          Follows.weaken (P := Stands J ⟨[.base], lineBlanks⟩) ?_ fun t ht => ht.ne_nil
        refine (Follows.location hinner fun _ => id).bind fun inner inner' hplace => ?_
        refine (hunary inner inner' hplace).bind fun node node' hnode => ?_
        refine (Follows.spanFrom (EndsOperands J) hstart).bind fun span span' hspan =>
          Follows.pure (Q := fun _ => EndsOperands J) ?_
        show Node.relocated _ _ = Node.relocated _ _
        rw [Node.relocated, Node.relocated, show node.relocated J.view = _ from hnode,
          show span.relocated J.view = _ from hspan]
    · have hbranch : ∀ b ∈ primaryBranches,
          RuleFollows J (Follows.inMode ⟨[.base], lineBlanks⟩ none) d d' b.rule
            (Stands J ⟨[.base], lineBlanks⟩) fun _ => EndsOperands J := by
        rintro b (_ | ⟨_, _ | ⟨_, ⟨⟩⟩⟩)
        · exact hparenthesized
        · exact (leaf_token (by decide) hinner (by omega)).mono (fun t ht => ht.stands (by decide))
            fun _ _ _ => trivial
      refine (choose none _ none (P := fun _ => False) rfl hinner hbranch (fun _ _ _ => id)
        (fun _ h => absurd h (Option.not_mem_none _)) fun _ h => h.elim).mono (fun t ht =>
          ?_) fun _ _ => id
      rcases ht with ht | ⟨-, hfalse⟩
      · exact ht.stands (by decide)
      · exact hfalse.elim
    · refine of_find (.leaf .parenthesized) rfl fun start start' hstart => ?_
      refine (hexpression.call hinner fun _ => id).bind fun node node' hnode => ?_
      refine ((Follows.expect hinner (by decide)).andThen fun _ _ _ =>
        Follows.pure (Q := fun _ => EndsOperands J) hnode).weaken fun t ht => .inl (ht.stands
        (by decide))

namespace RuleFollows

/-- A leaf does what its parser does, with calls that may be deeper in the other source. -/
theorem of_leaf {P : List Char → Prop} {Q : Node → List Char → Prop} {name : String} (l : Leaf)
    (hfind : RuleTable.standard.find? name = some (.leaf l)) (hle : d ≤ d')
    (h : ∀ {e e'}, e ≤ e' → ∀ {start start'}, J.view start = J.view' start' →
      Follows J settings P (J.Same Node.relocated) Q (l.read (RuleTable.standard.call e) start)
        (l.read (RuleTable.standard.call e') start')) : RuleFollows J settings d d' name P Q := by
  cases d with
  | zero => exact zero
  | succ d =>
    obtain ⟨d', rfl⟩ := Nat.exists_eq_add_one_of_ne_zero (by omega : d' ≠ 0)
    exact of_find _ hfind fun start start' hstart => h (by omega) hstart

/-! ## Productions -/

end RuleFollows

/-- The settings of the body of a grammar. -/
abbrev Settings.grammar : Settings := ⟨[.grammar, .base], lineBlanks⟩

namespace Settings.Inner

/-- The settings of the body of a grammar are settings inside of a sequence. -/
theorem grammar : Settings.grammar.Inner := ⟨by decide, .body⟩

end Settings.Inner

namespace Parser

/-- One symbol of an alternative, where looking ahead succeeds. -/
theorem alternativeItem_apply (rule : String → Parser Node) {s : TokenStream} (hs : Reliable s)
    (hinner : s.settings.Inner) :
    alternativeItem rule s = (do
      let token ← peek
      if token.kind ∈ [TokenKind.string, .unterminatedString] then some <$> rule "string"
      else if token.kind ∈ [TokenKind.nonTerminal, .unclosedNonTerminal]
        then some <$> rule "non_terminal"
      else pure none : Parser (Option Node)) s := by
  obtain ⟨t, -, hpeek⟩ := hs.exists_peek hinner []
  unfold alternativeItem
  rw [Parser.bind_apply, show peek s = s.peekExpecting 0 [] from rfl,
    show s.peek = s.peekExpecting 0 [] from rfl, hpeek]
  dsimp only
  generalize s.nextToken.kind = kind
  cases kind <;> rfl

end Parser

namespace RuleFollows

/-- A symbol of an alternative, or none, is read in both sources. The next token tells which of them
it is, and it is of the same kind in both. -/
theorem alternativeItem {e e' : Nat} (hle : e ≤ e') :
    Follows J .grammar (Stands J .grammar) (J.Same fun f => Option.map (Node.relocated f))
      (Follows.found (Stands J .grammar) (Stands J .grammar))
      (Parser.alternativeItem (RuleTable.standard.call e))
      (Parser.alternativeItem (RuleTable.standard.call e')) := by
  have hinner := Settings.Inner.grammar
  have hsymbol : ∀ {name : String} {kinds : List TokenKind}, TokenKind.endOfInput ∉ kinds →
      RuleFollows J .grammar e e' name (Starts J .grammar kinds) (fun _ _ => True) →
      Follows J .grammar (Stands J .grammar) (J.Same fun f => Option.map (Node.relocated f))
        (Follows.found (Stands J .grammar) (Stands J .grammar))
        (some <$> RuleTable.standard.call e name) (some <$> RuleTable.standard.call e' name) := by
    intro name kinds hkinds hrule
    refine Follows.weaken
      ((hrule.call hinner fun t ht => ht.stands hkinds).andThen (M := Stands J .grammar)
        fun node node' hnode => ?_) fun t ht => ht.stands hkinds
    have hsome : J.Same (fun f => Option.map (Node.relocated f)) (some node) (some node') :=
      congrArg some hnode
    exact Follows.pure (Q := Follows.found (Stands J .grammar) (Stands J .grammar)) hsome
  have hstring :=
    leaf_token (J := J) (by decide : "string" ∈ ["character", "string", "identifier"]) hinner hle
  have hnonTerminal : RuleFollows J .grammar e e' "non_terminal"
      (Starts J .grammar [.nonTerminal, .unclosedNonTerminal]) (fun _ _ => True) :=
    of_leaf .nonTerminal rfl hle fun _ _ _ _ => Follows.nonTerminal hinner
  -- The next token tells which symbol there is, and it is of the same kind in both sources.
  have hpeek : Follows J .grammar (Stands J .grammar) (J.Same Token.relocated)
      (fun _ => Stands J .grammar) Parser.peek Parser.peek :=
        Follows.peek hinner (fun _ _ _ => id) fun _ _ => id
  refine Follows.congr (hpeek.bind fun token token' hsame => ?_)
    (fun s hs hsettings => Parser.alternativeItem_apply _ hs (hsettings ▸ hinner))
    fun s hs hsettings => Parser.alternativeItem_apply _ hs (hsettings ▸ hinner)
  rw [(Follows.same_token hsame).1]
  have hnone : J.Same (fun f => Option.map (Node.relocated f)) none none := rfl
  split_ifs
  · exact hsymbol (by decide) hstring
  · exact hsymbol (by decide) hnonTerminal
  · exact Follows.pure (Q := Follows.found (Stands J .grammar) (Stands J .grammar)) hnone

/-- The alternatives of a production, between which bars stand, are the same in both sources: there
is another one behind a bar, with which no ending begins. -/
theorem alternativesWithin {e e' : Nat} (hle : e ≤ e') {steps steps' : Nat}
    (hsteps : steps ≤ steps') {before before' : List (List Node)}
    (hbefore : J.Same (fun f => List.map (List.map (Node.relocated f))) before before') :
    Follows J .grammar (Stands J .grammar) (J.Same fun f => List.map (List.map (Node.relocated f)))
      (fun _ => Stands J .grammar)
      (Parser.alternativesWithin (RuleTable.standard.call e) steps before)
      (Parser.alternativesWithin (RuleTable.standard.call e') steps' before') := by
  induction steps generalizing steps' before before' with
  | zero => exact Follows.endless
  | succ steps ih =>
    obtain ⟨steps', rfl⟩ := Nat.exists_eq_add_one_of_ne_zero (by omega : steps' ≠ 0)
    refine (Follows.collect (alternativeItem hle)).bind fun sequence sequence' hsequence => ?_
    -- Another alternative follows if there is a bar, which the ending does not begin with.
    have hpipe : Follows J .grammar (Stands J .grammar)
        (J.Same fun f => Option.map (Token.relocated f))
        (Follows.found (Stands J .grammar) (Stands J .grammar)) (Parser.accept .pipe)
        (Parser.accept .pipe) :=
      Follows.accept .grammar (by decide) (fun t t₁ value hnext _ => ⟨_, _, _, by decide, hnext⟩)
        fun t ht => ⟨ht, ht⟩
    refine hpipe.bind fun found found' hfound => ?_
    have hcons : J.Same (fun f => List.map (List.map (Node.relocated f))) (sequence :: before)
        (sequence' :: before') :=
      Follows.same_cons hsequence hbefore
    obtain ⟨rfl, rfl⟩ | ⟨token, token', rfl, rfl, -⟩ := hfound.option_cases
    · exact Follows.pure (Q := fun _ => Stands J .grammar) (Follows.same_reverse hcons)
    · exact ih (by omega) hcons

/-- The rule for productions reads the same head and the same alternatives in both sources, with the
arrow between them and each at its own place. -/
theorem production (hle : d ≤ d') :
    RuleFollows J .grammar d d' "production" (Stands J .grammar) fun _ => Stands J .grammar := by
  refine of_leaf .production rfl hle fun {e e'} hle {start start'} hstart => ?_
  have hinner := Settings.Inner.grammar
  refine Follows.weaken (P := Starts J .grammar [.nonTerminal, .unclosedNonTerminal]) ?_ fun t ht =>
    ht.stands (by decide)
  refine (Follows.expect hinner (by decide)).bind fun token token' h => ?_
  refine (Follows.nonTerminalName h.1 fun _ => True).andThen (M := Starts J .grammar [.arrow])
    fun head head' hhead => ?_
  refine (Follows.expect hinner (by decide)).andThen (M := Stands J .grammar) fun _ _ _ => ?_
  refine (Follows.limit _).bind fun steps steps' hsteps => ?_
  have hnil : J.Same (fun f => List.map (List.map (Node.relocated f))) [] [] := rfl
  refine (alternativesWithin hle hsteps hnil).bind fun alternatives alternatives' halternatives =>
    ?_
  refine (Follows.spanFrom (Stands J .grammar) hstart).bind fun span span' hspan =>
    Follows.pure (Q := fun _ => Stands J .grammar) ?_
  -- The head, the alternatives and the span are the same up to their places.
  show Node.relocated _ _ = Node.relocated _ _
  rw [Node.relocated, Node.relocated, show head.name = head'.name from (Identifier.mk.inj hhead).1,
    show span.relocated J.view = _ from hspan, Node.relocatedLists_eq_map,
    Node.relocatedLists_eq_map, show List.map _ alternatives = _ from halternatives]

/-- The rule for the body of a grammar. -/
theorem grammarBody (hle : d ≤ d') :
    RuleFollows J .grammar d d' "grammar_body" (Starts J .grammar [.leftBrace])
    fun _ _ => True := by
  cases d with
  | zero => exact zero
  | succ d =>
    obtain ⟨d', rfl⟩ := Nat.exists_eq_add_one_of_ne_zero (by omega : d' ≠ 0)
    have hinner := Settings.Inner.grammar
    refine of_find _ rfl fun start start' _ => ?_
    exact Follows.statements hinner (by decide) (by decide) rfl
      ((production (by omega)).call hinner fun _ => id) (fun _ => id) (fun _ => id)
      (fun hkind hnext _ => ⟨_, _, _, TokenKind.ne_of_isSeparator hkind, hnext⟩)
      (fun hnext _ => ⟨_, _, _, by decide, hnext⟩) start start'

end RuleFollows

/-! ## Declarations -/

/-- An opening brace is one for words as well. -/
theorem Starts.stands_of_grammar (h : Starts J .grammar [.leftBrace] t) :
    Stands J ⟨[.base], lineBlanks⟩ t := by
  obtain ⟨kind, hkind, value, t', hnext⟩ := h
  obtain rfl := List.mem_singleton.1 hkind
  have hrule : ∀ m : LexMode, ∀ r ∈ m.rules, r.kind = .leftBrace → r = .word .leftBrace "\x7b" := by
    intro m
    cases m <;> decide
  rcases hnext.lexes with ⟨hlex, hread⟩ | ⟨hend, -⟩
  · obtain rfl := hlex.eq_word (by decide) hrule
    exact ⟨_, _, t', by decide,
      hnext.change_modes .body (by decide) (by decide) Lexes.leftBrace hread rfl⟩
  · cases hend

namespace Follows

/-- A contextual word, and what is asked for behind it. -/
theorem checkWord_stands {Q : Bool → List Char → Prop} (hinner : settings.Inner) (word : String)
    (hQ : ∀ found t, Q found t → Stands J settings t) :
    Follows J settings (Stands J settings) Eq Q (Parser.checkWord word) (Parser.checkWord word) :=
  checkWord hinner word fun {found t} _ h => ⟨hQ found t h, .inl (hQ found t h)⟩

/-- The declared start symbol of a grammar, if there is one, is the same in both sources: it comes
behind a word, in front of the opening brace of the body. -/
theorem startSymbol :
    Follows J ⟨[.base], lineBlanks⟩ (Stands J ⟨[.base], lineBlanks⟩)
      (J.Same fun f => Option.map (Identifier.relocated f))
      (fun _ => Starts J .grammar [.leftBrace]) Parser.startSymbol Parser.startSymbol := by
  have hinner := Settings.Inner.of_ofLine .line
  -- Whether the word comes next decides what is asked of the text behind it.
  have hword : Follows J ⟨[.base], lineBlanks⟩ (Stands J ⟨[.base], lineBlanks⟩) Eq
      (fun found t => if found = true then Stands J ⟨[.base], lineBlanks⟩ t
        else Starts J .grammar [.leftBrace] t)
      (Parser.checkWord "start") (Parser.checkWord "start") := by
    refine checkWord_stands hinner "start" fun found t h => ?_
    cases found with
    | true => exact h
    | false => exact Starts.stands_of_grammar h
  refine hword.bind fun found found' hfound => ?_
  subst hfound
  cases found with
  | true =>
    have htoken : Follows J ⟨[.base], lineBlanks⟩
        (Starts J .grammar [.identifier, .nonTerminal, .unclosedNonTerminal])
        (fun a b => J.Same Token.relocated a b ∧
          a.kind ∈ [TokenKind.identifier, .nonTerminal, .unclosedNonTerminal])
        (fun _ _ => True)
        (Parser.withMode .grammar
          (Parser.expect [.identifier, .nonTerminal, .unclosedNonTerminal]))
        (Parser.withMode .grammar
          (Parser.expect [.identifier, .nonTerminal, .unclosedNonTerminal])) :=
      withSettings hinner.ordinary Settings.Inner.grammar.ordinary (expect .grammar (by decide))
    refine (next hinner).bind fun _ _ _ => ?_
    have hne : ∀ t,
        Starts J .grammar [.identifier, .nonTerminal, .unclosedNonTerminal] t → t ≠ [] :=
      fun t ht => (ht.stands (by decide)).ne_nil
    refine weaken ?_ hne
    refine htoken.andThen (M := Starts J .grammar [.leftBrace]) fun token token' h => ?_
    refine (nonTerminalName h.1 (Starts J .grammar [.leftBrace])).bind fun name name' hname => ?_
    exact pure (Q := fun _ => Starts J .grammar [.leftBrace]) (congrArg some hname)
  | false =>
    have hnone : J.Same (fun f => Option.map (Identifier.relocated f)) none none := rfl
    exact pure (Q := fun _ => Starts J .grammar [.leftBrace]) hnone

/-- The names behind a contextual word, if it comes next, are the same in both sources: they end in
front of an equals sign or of the opening brace. -/
theorem header {e e' : Nat} (hle : e ≤ e') (word : String) :
    Follows J ⟨[.base], lineBlanks⟩ (Stands J ⟨[.base], lineBlanks⟩)
      (J.Same fun f => List.map (Identifier.relocated f))
      (fun _ => Starts J ⟨[.base], lineBlanks⟩ [.equals, .leftBrace])
      (Parser.header (RuleTable.standard.call e) word)
      (Parser.header (RuleTable.standard.call e') word) := by
  have hinner := Settings.Inner.of_ofLine .line
  -- Whether the word comes next decides what is asked of the text behind it.
  have hword : Follows J ⟨[.base], lineBlanks⟩ (Stands J ⟨[.base], lineBlanks⟩) Eq
      (fun found t => if found = true then Stands J ⟨[.base], lineBlanks⟩ t
        else Starts J ⟨[.base], lineBlanks⟩ [.equals, .leftBrace] t)
      (Parser.checkWord word) (Parser.checkWord word) := by
    refine checkWord_stands hinner word fun found t h => ?_
    cases found with
    | true => exact h
    | false => exact Starts.stands h (by decide)
  refine hword.bind fun found found' hfound => ?_
  subst hfound
  cases found with
  | true =>
    have hlist : RuleFollows J ⟨[.base], lineBlanks⟩ e e' "name_list"
        (Stands J ⟨[.base], lineBlanks⟩) fun _ _ => True :=
      RuleFollows.tokenList rfl (by decide) hle
    have hnames := hlist.call hinner fun _ => id
    refine (next hinner).bind fun _ _ _ =>
      weaken ?_ fun t (ht : Stands J ⟨[.base], lineBlanks⟩ t) => ht.ne_nil
    exact hnames.andThen fun node node' hnode =>
      pure (Q := fun _ => Starts J ⟨[.base], lineBlanks⟩ [.equals, .leftBrace])
        (same_identifiersOf hnode)
  | false =>
    have hnil : J.Same (fun f => List.map (Identifier.relocated f)) [] [] := rfl
    exact pure (Q := fun _ => Starts J ⟨[.base], lineBlanks⟩ [.equals, .leftBrace]) hnil

end Follows

/-- The kinds of tokens that may stand behind a statement. -/
def openingKinds : List TokenKind :=
  [.newline, .semicolon, .rightBrace, .endOfInput, .identifier] ++ statementBranches.map Branch.kind

/-- Neither an operator comes next in the other source alone, nor do movements on the tapes. -/
structure EndsPlain (J : Splice) (t : List Char) : Prop where
  /-- No operator comes next. -/
  operands : EndsOperands J t
  /-- No movements come next. -/
  shifts : ¬ (Recognizer.shifts lineBlanks).Begins (t ++ J.rest')

/-- What may follow a statement comes next, and no operator does in the other source alone. -/
structure Closes (J : Splice) (t : List Char) : Prop where
  /-- What comes next may follow a statement. -/
  continues : Continues J.rest J.rest' t
  /-- No operator comes next in the other source alone. -/
  operands : EndsOperands J t
  /-- A token that may stand behind a statement is next. -/
  opens : ∃ kind ∈ openingKinds, ∃ value rest, Next ⟨[.base], lineBlanks⟩ kind value rest
    (t ++ J.rest)

/-- Where what may follow a statement comes next, any statement may end. -/
theorem Closes.ends (h : Closes J t) : EndsPlain J t := ⟨h.operands, h.continues.not_shifts J.seam⟩

/-- What is asked for behind a statement: more where the statement may go on. -/
structure EndsStatement (J : Splice) (node : Node) (t : List Char) :
    Prop extends EndsPlain J t where
  /-- What comes next may follow the statement if that may go on. -/
  continues : node.mayGoOn = true → Continues J.rest J.rest' t

/-- Where what may follow a statement comes next, the statement may end. -/
theorem Closes.endsStatement (h : Closes J t) (node : Node) : EndsStatement J node t :=
  ⟨h.ends, fun _ => h.continues⟩

namespace Follows

/-- The rest of a declaration is the same in both sources: an expression behind an equals sign, or
else a body. The token behind the name decides between them. -/
theorem declaration {e e' : Nat} (hle : e ≤ e')
    (hbody : RuleFollows J ⟨[.base], lineBlanks⟩ e e' "body"
      (Starts J ⟨[.base], lineBlanks⟩ [.leftBrace]) fun _ => EndsPlain J) (kind : MachineKind)
    {name name' : Identifier} (hname : J.Same Identifier.relocated name name')
    {tapes tapes' : List Identifier}
    (htapes : J.Same (fun f => List.map (Identifier.relocated f)) tapes tapes')
    {start start' : Location} (hstart : J.view start = J.view' start') :
    Follows J ⟨[.base], lineBlanks⟩ (Starts J ⟨[.base], lineBlanks⟩ [.equals, .leftBrace])
      (J.Same Node.relocated) (fun _ => EndsPlain J)
      (Parser.declaration (RuleTable.standard.call e) kind name tapes start)
      (Parser.declaration (RuleTable.standard.call e') kind name' tapes' start') := by
  have hinner := Settings.Inner.of_ofLine .line
  -- The token behind the name decides between a value and a body.
  have hequals : Follows J ⟨[.base], lineBlanks⟩
      (Starts J ⟨[.base], lineBlanks⟩ [.equals, .leftBrace])
      (J.Same fun f => Option.map (Token.relocated f))
      (found (Starts J ⟨[.base], lineBlanks⟩ [.leftBrace]) (Stands J ⟨[.base], lineBlanks⟩))
      (Parser.accept .equals) (Parser.accept .equals) :=
    accept hinner (by decide) (fun t t₁ value hnext _ => ⟨_, by decide, value, t₁, hnext⟩)
      fun t ht => ⟨ht.stands (by decide), ht.mono (by decide)⟩
  have hvalue : RuleFollows J ⟨[.base], lineBlanks⟩ e e' "expression"
      (Stands J ⟨[.base], lineBlanks⟩) fun _ => EndsPlain J :=
    (RuleFollows.expressions hle).1.mono (fun _ => id) fun _ _ => EndsPlain.operands
  refine hequals.bind fun token token' htoken => ?_
  obtain ⟨rfl, rfl⟩ | ⟨token, token', rfl, rfl, -⟩ := htoken.option_cases
  case inr =>
    refine (hvalue.call hinner fun _ => id).bind fun value value' hsame => ?_
    refine (spanFrom (EndsPlain J) hstart).bind fun span span' hspan =>
      pure (Q := fun _ => EndsPlain J) ?_
    show Node.relocated _ _ = Node.relocated _ _
    rw [Node.relocated, Node.relocated, show name.relocated J.view = _ from hname,
      show value.relocated J.view = _ from hsame, show span.relocated J.view = _ from hspan]
  case inl =>
    refine (hbody.call hinner fun t ht => ht.stands (by decide)).bind fun body body' hsame => ?_
    refine (spanFrom (EndsPlain J) hstart).bind fun span span' hspan => ?_
    cases kind
    all_goals
      refine pure (Q := fun _ => EndsPlain J) ?_
      show Node.relocated _ _ = Node.relocated _ _
      simp only [Node.relocated, show name.relocated J.view = _ from hname,
        show body.relocated J.view = _ from hsame, show span.relocated J.view = _ from hspan,
        show tapes.map (Identifier.relocated J.view) = _ from htapes]

end Follows

namespace RuleFollows

section

variable (hle : d ≤ d')
  (hbody : RuleFollows J ⟨[.base], lineBlanks⟩ d d' "body"
    (Starts J ⟨[.base], lineBlanks⟩ [.leftBrace]) fun _ => EndsPlain J)
include hle hbody

/-- The rule for declarations of finite automata. -/
theorem finite :
    RuleFollows J ⟨[.base], lineBlanks⟩ (d + 1) (d' + 1) "finite"
      (Starts J ⟨[.base], lineBlanks⟩ [.identifier]) fun _ => EndsPlain J := by
  refine of_find (.leaf .finite) rfl fun start start' hstart => ?_
  have hnil : J.Same (fun f => List.map (Identifier.relocated f)) [] [] := rfl
  exact (Follows.identifier (.of_ofLine .line)).andThen fun name name' hname =>
    Follows.declaration hle hbody .finite hname hnil hstart

/-- The rule for declarations of pushdown automata. -/
theorem pushdown :
    RuleFollows J ⟨[.base], lineBlanks⟩ (d + 1) (d' + 1) "pushdown"
      (Starts J ⟨[.base], lineBlanks⟩ [.identifier]) fun _ => EndsPlain J := by
  refine of_find (.leaf .pushdown) rfl fun start start' hstart => ?_
  exact (Follows.identifier (.of_ofLine .line)).andThen fun name name' hname =>
    (Follows.header hle "stacks").bind fun stackNames stackNames' hstackNames =>
      Follows.declaration hle hbody .pushdown hname hstackNames hstart

/-- The rule for declarations of Turing machines. -/
theorem turing :
    RuleFollows J ⟨[.base], lineBlanks⟩ (d + 1) (d' + 1) "turing"
      (Starts J ⟨[.base], lineBlanks⟩ [.identifier]) fun _ => EndsPlain J := by
  refine of_find (.leaf .turing) rfl fun start start' hstart => ?_
  exact (Follows.identifier (.of_ofLine .line)).andThen fun name name' hname =>
    (Follows.header hle "tapes").bind fun tapes tapes' htapes =>
      Follows.declaration hle hbody .turing hname htapes hstart

end

/-- The rule for grammars reads the same grammar in both sources, whatever follows it: its body is
read in a mode of its own and ends with a brace. -/
theorem grammar (hle : d ≤ d') :
    RuleFollows J ⟨[.base], lineBlanks⟩ d d' "grammar"
      (Starts J ⟨[.base], lineBlanks⟩ [.identifier]) fun _ _ => True := by
  refine of_leaf .grammar rfl hle fun {e e'} hle {start start'} hstart => ?_
  have hinner := Settings.Inner.of_ofLine .line
  refine (Follows.identifier hinner).andThen (M := Stands J ⟨[.base], lineBlanks⟩)
    fun name name' hname => ?_
  refine Follows.startSymbol.bind fun initial initial' hinitial => ?_
  -- The body is read with the lexemes of grammars in both sources.
  have hbody : Follows J ⟨[.base], lineBlanks⟩ (Starts J .grammar [.leftBrace])
      (J.Same Node.relocated) (fun _ _ => True)
      (Parser.withMode .grammar (RuleTable.standard.call e "grammar_body"))
      (Parser.withMode .grammar (RuleTable.standard.call e' "grammar_body")) :=
    Follows.withSettings hinner.ordinary Settings.Inner.grammar.ordinary
      ((grammarBody hle).call .grammar fun t ht => ht.stands (by decide))
  refine hbody.bind fun body body' hsame => ?_
  refine (Follows.spanFrom (fun _ => True) hstart).bind fun span span' hspan =>
    Follows.pure (Q := fun _ _ => True) ?_
  show Node.relocated _ _ = Node.relocated _ _
  rw [Node.relocated, Node.relocated, show name.relocated J.view = _ from hname,
    show initial.map (Identifier.relocated J.view) = _ from hinitial,
    show body.relocated J.view = _ from hsame, show span.relocated J.view = _ from hspan]

/-! ## Other statements -/

/-- The rule for the choice of the initial state. -/
theorem initial (hle : d ≤ d') :
    RuleFollows J ⟨[.base], lineBlanks⟩ d d' "initial"
      (Starts J ⟨[.base], lineBlanks⟩ [.identifier]) fun _ _ => True := by
  refine of_leaf .initial rfl hle fun {e e'} hle {start start'} hstart => ?_
  refine (Follows.identifier (.of_ofLine .line)).bind fun state state' hstate => ?_
  refine (Follows.spanFrom (fun _ => True) hstart).bind fun span span' hspan =>
    Follows.pure (Q := fun _ _ => True) ?_
  show Node.relocated _ _ = Node.relocated _ _
  rw [Node.relocated, Node.relocated, show state.relocated J.view = _ from hstate,
    show span.relocated J.view = _ from hspan]

/-- The rule for the choice of final states. -/
theorem final (hle : d ≤ d') :
    RuleFollows J ⟨[.base], lineBlanks⟩ d d' "final" (Stands J ⟨[.base], lineBlanks⟩)
      fun _ _ => True := by
  refine of_leaf .final rfl hle fun {e e'} hle {start start'} hstart => ?_
  refine ((tokenList rfl (by decide) hle).call (.of_ofLine .line) fun _ => id).bind
    fun node node' hnode => ?_
  refine (Follows.spanFrom (fun _ => True) hstart).bind fun span span' hspan =>
    Follows.pure (Q := fun _ _ => True) ?_
  show Node.relocated _ _ = Node.relocated _ _
  rw [Node.relocated, Node.relocated, Follows.same_identifiersOf hnode,
    show span.relocated J.view = _ from hspan]

/-- The rule for lines to print. -/
theorem print (hle : d ≤ d') :
    RuleFollows J ⟨[.base], lineBlanks⟩ d d' "print"
      (Starts J ⟨[.base], lineBlanks⟩ [.string, .unterminatedString]) fun _ _ => True := by
  refine of_leaf .print rfl hle fun {e e'} hle {start start'} hstart => ?_
  have hstring :=
    leaf_token (J := J) (by decide : "string" ∈ ["character", "string", "identifier"])
      (.of_ofLine .line) hle
  refine (hstring.call (.of_ofLine .line) fun t ht => ht.stands (by decide)).bind
    fun node node' hnode => ?_
  refine (Follows.spanFrom (fun _ => True) hstart).bind fun span span' hspan =>
    Follows.pure (Q := fun _ _ => True) ?_
  show Node.relocated _ _ = Node.relocated _ _
  rw [Node.relocated, Node.relocated, Follows.same_stringsOf hnode,
    show span.relocated J.view = _ from hspan]

/-- The rule for tests reads the same test in both sources: a name and the inputs behind it, which
are strings, so they end by themselves. -/
theorem test (hle : d ≤ d') :
    RuleFollows J ⟨[.base], lineBlanks⟩ d d' "test" (Starts J ⟨[.base], lineBlanks⟩ [.identifier])
      fun _ _ => True := by
  refine of_leaf .test rfl hle fun {e e'} hle {start start'} hstart => ?_
  refine (Follows.identifier (.of_ofLine .line)).andThen (M := Stands J ⟨[.base], lineBlanks⟩)
    fun name name' hname => ?_
  refine ((tokenList rfl (by decide) hle).call (.of_ofLine .line) fun _ => id).bind
    fun node node' hnode => ?_
  refine (Follows.spanFrom (fun _ => True) hstart).bind fun span span' hspan =>
    Follows.pure (Q := fun _ _ => True) ?_
  show Node.relocated _ _ = Node.relocated _ _
  rw [Node.relocated, Node.relocated, show name.relocated J.view = _ from hname,
    Follows.same_stringsOf hnode, show span.relocated J.view = _ from hspan]

end RuleFollows

/-! ## Statements -/

section

variable {kind : TokenKind} {value t₁ : List Char}

/-- A separator may follow a statement if any statement may end behind it. -/
theorem EndsPlain.separator (h : EndsPlain J t₁) (hkind : kind.isSeparator = true)
    (hnext : Next ⟨[.base], lineBlanks⟩ kind value (t₁ ++ J.rest) (t ++ J.rest)) : Closes J t := by
  have hends : EndsOperands J t := .inl ⟨kind, value, t₁, TokenKind.ne_of_isSeparator hkind, hnext⟩
  rw [TokenKind.isSeparator, Bool.or_eq_true, beq_iff_eq, beq_iff_eq] at hkind
  rcases hkind with rfl | rfl
  · exact ⟨.line hnext, hends, _, by decide, _, _, hnext⟩
  · exact ⟨.mark (.inl rfl) hnext h.shifts, hends, _, by decide, _, _, hnext⟩

/-- A closing brace may follow a statement if any statement may end behind it. -/
theorem EndsPlain.rightBrace (h : EndsPlain J t₁)
    (hnext : Next ⟨[.base], lineBlanks⟩ .rightBrace value (t₁ ++ J.rest) (t ++ J.rest)) :
    Closes J t :=
  ⟨.mark (.inr rfl) hnext h.shifts, .inl ⟨_, value, t₁, by decide, hnext⟩, _, by decide,
    _, _, hnext⟩

/-- A statement may follow a statement: behind the first one only separators and the second one
stand, none of which the first could go on with. -/
theorem Closes.of_statement
    (h : Starts J ⟨[.base], lineBlanks⟩ (statementBranches.map Branch.kind) t ∨
      Starts J ⟨[.base], lineBlanks⟩ [.identifier] t ∧
        ∃ node t₁, Recognizer.transition lineBlanks (t ++ J.rest) node (t₁ ++ J.rest)) :
    Closes J t ∧ Stands J ⟨[.base], lineBlanks⟩ t := by
  rcases h with h | ⟨h, node, t₁, htransition⟩
  · have hstands := h.stands (by decide)
    obtain ⟨kind, hkind, value, t', hnext⟩ := h
    have hkeyword : ∀ kind ∈ statementBranches.map Branch.kind, kind ∈ keywords.map Prod.snd := by
      decide
    exact ⟨⟨.keyword (hkeyword kind hkind) hnext, .inl hstands, kind, List.mem_append_right _ hkind,
      _, _, hnext⟩, hstands⟩
  · have hstands := h.stands (by decide)
    obtain ⟨kind, hkind, value, t', hnext⟩ := h
    obtain rfl := List.mem_singleton.1 hkind
    exact ⟨⟨.transition htransition, .inl hstands, _, by decide, _, _, hnext⟩, hstands⟩

end

namespace RuleFollows

/-- The rules for statements and for bodies read the same nodes in both sources. Bodies hold
statements, and declarations hold bodies, so one induction on the depth proves all of them. -/
theorem statements (hle : d + 8 ≤ d') :
    RuleFollows J ⟨[.base], lineBlanks⟩ d d' "statement" (fun t => Closes J t ∧
      Stands J ⟨[.base], lineBlanks⟩ t) (EndsStatement J) ∧
    RuleFollows J ⟨[.base], lineBlanks⟩ d d' "finite" (Starts J ⟨[.base], lineBlanks⟩ [.identifier])
      (fun _ => EndsPlain J) ∧
    RuleFollows J ⟨[.base], lineBlanks⟩ d d' "pushdown"
      (Starts J ⟨[.base], lineBlanks⟩ [.identifier]) (fun _ => EndsPlain J) ∧
    RuleFollows J ⟨[.base], lineBlanks⟩ d d' "turing" (Starts J ⟨[.base], lineBlanks⟩ [.identifier])
      (fun _ => EndsPlain J) ∧
    RuleFollows J ⟨[.base], lineBlanks⟩ d d' "body" (Starts J ⟨[.base], lineBlanks⟩ [.leftBrace])
      (fun _ => EndsPlain J) := by
  have hinner := Settings.Inner.of_ofLine .line
  -- A declaration holds a body and a body holds statements, so the rules are proved together by one
  -- induction on the depth.
  induction d generalizing d' with
  | zero => exact ⟨zero, zero, zero, zero, zero⟩
  | succ d ih =>
    obtain ⟨d', rfl⟩ := Nat.exists_eq_add_one_of_ne_zero (by omega : d' ≠ 0)
    obtain ⟨hstatement, hfinite, hpushdown, hturing, hbody⟩ := ih (by omega : d + 8 ≤ d')
    have hle' : d ≤ d' := by omega
    refine ⟨?_, finite hle' hbody, pushdown hle' hbody, turing hle' hbody, ?_⟩
    · have hbranch : ∀ b ∈ statementBranches,
          RuleFollows J (Follows.inMode ⟨[.base], lineBlanks⟩ none) d d' b.rule
          (Stands J ⟨[.base], lineBlanks⟩) (EndsStatement J) := by
        have hname : ∀ {name : String} {Q : List Char → Prop},
            RuleFollows J ⟨[.base], lineBlanks⟩ d d' name
            (Starts J ⟨[.base], lineBlanks⟩ [.identifier]) (fun _ => Q) →
            (∀ t, EndsPlain J t → Q t) →
            RuleFollows J ⟨[.base], lineBlanks⟩ d d' name (Stands J ⟨[.base], lineBlanks⟩)
              (EndsStatement J) :=
          fun h hQ => h.mono (fun t ht => ht.stands (by decide)) fun _ t ht => hQ t ht.toEndsPlain
        simp only [statementBranches, List.forall_mem_cons]
        exact ⟨hname hfinite fun _ => id, hname hpushdown fun _ => id, hname hturing fun _ => id,
          hname (grammar hle') fun _ _ => trivial, hname (initial hle') fun _ _ => trivial,
          (final hle').mono (fun _ => id) fun _ _ _ => trivial,
          (print hle').mono (fun t ht => ht.stands (by decide)) fun _ _ _ => trivial,
          hname (test hle') fun _ _ => trivial, List.forall_mem_nil _⟩
      have hother := ((transition (J := J) (by omega : 7 ≤ d')).lift hle').mono (fun _ => id)
        fun _ _ => EndsStatement.continues
      exact (choose none _ (some "transition") rfl hinner hbranch (fun _ _ _ => id)
        (fun other h => Option.mem_some.1 h ▸ hother) fun t ht => ht.1.stands (by decide)).mono
          (fun t ht => Closes.of_statement (ht.imp_right And.right)) fun _ _ => id
    · refine of_find _ rfl fun start start' _ => ?_
      have hitem := (hstatement.call hinner fun t => And.right).strengthen
        fun node t (ht : Closes J t ∧ Stands J ⟨[.base], lineBlanks⟩ t) => ht.1.endsStatement node
      refine Follows.statements (P := fun t => Closes J t ∧ Stands J ⟨[.base], lineBlanks⟩ t) hinner
        (by decide) (by decide) rfl (C := fun t => Closes J t ∧ Stands J ⟨[.base], lineBlanks⟩ t)
        hitem (fun _ => id) (fun _ => And.right) (fun hkind hnext hC => ?_) (fun hnext hC => ?_)
        start start'
      · exact ⟨hC.1.ends.separator hkind hnext, ⟨_, _, _, TokenKind.ne_of_isSeparator hkind, hnext⟩⟩
      · exact ⟨hC.rightBrace hnext, ⟨_, _, _, by decide, hnext⟩⟩

end RuleFollows

end MachineLang
