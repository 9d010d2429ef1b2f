import MachineLang.Proofs.Recognizers

/-!
# The texts of transitions

What the rules for transitions recognize, rule by rule: conditions, symbols and shifts for a tape,
lists of them, and the three forms of transitions (`recognizes_transition`). A form is tried only if
those in front of it are not recognized, and a bare symbol is read as one for a named tape wherever
it can be.
-/

namespace MachineLang

variable {ignored : List TokenKind} {text rest mid value : List Char} {kind : TokenKind}
  {node : Node} {n : Nat} {settings : Settings} {name : String}

namespace Recognizer

/-! ## Symbols and shifts -/

/-- The symbol that a token stands for. -/
def symbol? : TokenKind → List Char → Option Node
  | .character, value => some (.character (.ofList value) .invalid)
  | .quotedCharacter, value => some (.character (.ofList (unescape (unquote value))) .invalid)
  | .namedCharacter, value =>
    (Parser.namedCharacter? (.ofList (value.drop 1))).map (.character · .invalid)
  | .string, value => some (.string (.ofList (unescape (unquote value))) .invalid)
  | .identifier, value => some (.identifier ⟨.ofList value, .invalid⟩)
  | _, _ => Option.none

/-- A symbol that is one token of some kinds. -/
def symbolNode (settings : Settings) (kinds : List TokenKind) : Recognizer Node := do
  let t ← token settings kinds
  ofOption (symbol? t.1 t.2)

/-- The kinds of tokens that a branch of a condition goes on with. -/
def symbolKinds (rule : String) : List TokenKind :=
  if rule = "character" then [.character, .quotedCharacter, .namedCharacter]
  else if rule = "string" then [.string, .unterminatedString]
  else [.identifier]

/-- The kinds of tokens that begin a condition. -/
def conditionKinds : List TokenKind :=
  [.character, .quotedCharacter, .namedCharacter, .string, .unterminatedString, .identifier]

/-- A symbol: one token of the mode for characters, whose kind says how it is read. -/
def condition (ignored : List TokenKind) : Recognizer Node :=
  symbolNode ⟨[.char, .base], ignored⟩ conditionKinds

/-- A movement of a head, which is one of three tokens. -/
def shift (ignored : List TokenKind) : Recognizer Node := do
  let t ← token ⟨[.base], ignored⟩ [.shiftLeft, .shiftRight, .noShift]
  ofOption ((t.2.head?.bind Direction.ofChar?).map (.shift · .invalid))

/-- A name, as the identifier that it is read as. -/
def identifier (settings : Settings) : Recognizer Identifier := do
  let t ← token settings [.identifier]
  return ⟨.ofList t.2, .invalid⟩

/-- A value for the tape of a given name. -/
def qualified (ignored : List TokenKind) (G : Recognizer Node) : Recognizer Node := do
  let tape ← identifier ⟨[.base], ignored⟩
  let _ ← token ⟨[.base], ignored⟩ [.colon]
  let node ← G
  return .qualified tape node .invalid

/-- A symbol, perhaps for the tape of a given name. -/
def tapeSymbol (ignored : List TokenKind) : Recognizer Node :=
  (qualified ignored (condition ignored)).orElse (condition ignored)

/-- A movement, perhaps of the head on the tape of a given name. -/
def tapeShift (ignored : List TokenKind) : Recognizer Node :=
  (qualified ignored (shift ignored)).orElse (shift ignored)

/-! ## Lists -/

/-- What is in brackets: nothing, or elements between commas, with line ends skipped. -/
def bracketed (settings : Settings) (G : Recognizer Node) : Recognizer Node := do
  let _ ← token settings [.leftBracket]
  let closed ← check settings .rightBracket
  let nodes ← if closed = true then pure [] else Elements settings G
  let _ ← token settings [.rightBracket]
  return .list nodes .invalid

/-- Elements in brackets, with line ends between them, or a single one without brackets. -/
def listOf (G : List TokenKind → Recognizer Node) (ignored : List TokenKind) : Recognizer Node := do
  let opened ← check ⟨[.base], ignored⟩ .leftBracket
  if opened = true then bracketed ⟨[.base], .newline :: ignored⟩ (G (.newline :: ignored))
  else do
    let node ← G ignored
    return .list [node] .invalid

/-- A list is in brackets if the next token is the opening one, and then line ends are skipped
inside. Otherwise it is a single item. -/
theorem listOf_iff {G : List TokenKind → Recognizer Node} : listOf G ignored text node rest ↔
    ∃ kind value after, Next ⟨[.base], ignored⟩ kind value after text ∧
      (kind = .leftBracket ∧
          bracketed ⟨[.base], .newline :: ignored⟩ (G (.newline :: ignored)) text node rest ∨
        kind ≠ .leftBracket ∧ ∃ item, G ignored text item rest ∧ node = .list [item] .invalid) := by
  constructor
  · rintro ⟨opened, _, ⟨rfl, kind, value, after, hnext, rfl⟩, hnode⟩
    refine ⟨kind, value, after, hnext, ?_⟩
    -- The kind of the next token says which of the two forms was read.
    by_cases hkind : kind = .leftBracket
    · rw [beq_iff_eq.2 hkind, if_pos rfl] at hnode
      exact .inl ⟨hkind, hnode⟩
    · rw [beq_eq_false_iff_ne.2 hkind, if_neg Bool.false_ne_true] at hnode
      obtain ⟨item, _, hitem, rfl, rfl⟩ := hnode
      exact .inr ⟨hkind, item, hitem, rfl⟩
  · rintro ⟨kind, value, after, hnext, ⟨rfl, hnode⟩ | ⟨hkind, item, hitem, rfl⟩⟩
    · exact ⟨true, _, ⟨rfl, _, value, after, hnext, rfl⟩, hnode⟩
    · exact ⟨false, _, ⟨rfl, kind, value, after, hnext, (beq_eq_false_iff_ne.2 hkind).symm⟩, item,
        _, hitem, rfl, rfl⟩

/-- Symbols for the tapes: a list in brackets, or one symbol. -/
def symbols : List TokenKind → Recognizer Node := listOf tapeSymbol

/-- Movements on the tapes: a list in brackets, or one movement. -/
def shifts : List TokenKind → Recognizer Node := listOf tapeShift

/-! ## Transitions -/

/-- A transition of a finite automaton. -/
def finiteTransition (ignored : List TokenKind) : Recognizer Node := do
  let source ← identifier ⟨[.base], ignored⟩
  let symbol ← condition ignored
  let _ ← token ⟨[.base], ignored⟩ [.arrow]
  let target ← identifier ⟨[.base], ignored⟩
  return .finiteTransition source symbol target .invalid

/-- The symbols behind a contextual word, if it comes next. -/
def symbolsAfter (ignored : List TokenKind) (word : String) : Recognizer (Option (List Node)) := do
  let found ← checkWord ⟨[.base], ignored⟩ word
  if found = true then do
    let _ ← token ⟨[.base], ignored⟩ [.identifier]
    let node ← symbols ignored
    return some node.items
  else return Option.none

/-- A transition of a pushdown automaton. -/
def pushdownTransition (ignored : List TokenKind) : Recognizer Node := do
  let source ← identifier ⟨[.base], ignored⟩
  let symbol ← condition ignored
  let pop ← symbolsAfter ignored "pop"
  let _ ← token ⟨[.base], ignored⟩ [.arrow]
  let target ← identifier ⟨[.base], ignored⟩
  let push ← symbolsAfter ignored "push"
  if (pop.isNone && push.isNone) = true then none
  else return .pushdownTransition source symbol (pop.getD []) target (push.getD []) .invalid

/-- A transition of a Turing machine. -/
def turingTransition (ignored : List TokenKind) : Recognizer Node := do
  let source ← identifier ⟨[.base], ignored⟩
  let read ← symbols ignored
  let _ ← token ⟨[.base], ignored⟩ [.arrow]
  let target ← identifier ⟨[.base], ignored⟩
  let write ← symbols ignored
  let shift ← shifts ignored
  return .turingTransition source read.items target write.items shift.items .invalid

/-- A transition of any kind of machine; the first kind that is there is taken. -/
def transition (ignored : List TokenKind) : Recognizer Node :=
  (turingTransition ignored).orElse ((pushdownTransition ignored).orElse (finiteTransition ignored))

/-! ## Blanks in front -/

namespace PassesBlanks

variable (hskips : SkipsBlanks ignored)
include hskips

/-- A symbol begins with a token of its own mode, in front of which blanks are skipped. -/
theorem condition : (condition ignored).PassesBlanks := (token hskips (by decide) _).bind

/-- A movement begins with a token, in front of which blanks are skipped. -/
theorem shift : (shift ignored).PassesBlanks := (token hskips (by decide) _).bind

/-- A name is a token, in front of which blanks are skipped. -/
theorem identifier : (identifier ⟨[.base], ignored⟩).PassesBlanks :=
  (token hskips (by decide) _).bind

/-- A value for the tape of a given name. -/
theorem qualified (G : Recognizer Node) : (qualified ignored G).PassesBlanks :=
  (identifier hskips).bind

/-- What is in brackets begins with the opening one. -/
theorem bracketed (G : Recognizer Node) : (bracketed ⟨[.base], ignored⟩ G).PassesBlanks :=
  (token hskips (by decide) _).bind

/-- A list begins with its bracket or with its only element. -/
theorem listOf {G : List TokenKind → Recognizer Node} (hG : (G ignored).PassesBlanks) :
    (listOf G ignored).PassesBlanks := by
  intro gap text node rest hgap
  rw [listOf_iff, listOf_iff]
  refine exists_congr fun kind => exists_congr fun value => exists_congr fun after =>
    and_congr (Next.blanks_iff hskips (by decide) hgap) (or_congr (and_congr_right fun _ => ?_)
      (and_congr_right fun _ => exists_congr fun item => and_congr_left fun _ => hG hgap))
  exact bracketed hskips.newline _ hgap

/-- Symbols begin as lists of them do. -/
theorem symbols : (symbols ignored).PassesBlanks :=
  listOf hskips ((qualified hskips _).orElse (condition hskips))

/-- Movements on the tapes begin as lists of them do. -/
theorem shifts : (shifts ignored).PassesBlanks :=
  listOf hskips ((qualified hskips _).orElse (shift hskips))

/-- A transition of a pushdown automaton. -/
theorem pushdownTransition : (pushdownTransition ignored).PassesBlanks := (identifier hskips).bind

/-- A transition of a Turing machine. -/
theorem turingTransition : (turingTransition ignored).PassesBlanks := (identifier hskips).bind

end PassesBlanks

/-! ## What is left -/

namespace Shortens

/-- Behind a symbol a rest of the text is left. -/
theorem condition (ignored : List TokenKind) : (condition ignored).Shortens :=
  (token _ _).bind fun _ => ofOption _

/-- Behind a symbol for a tape. -/
theorem tapeSymbol (ignored : List TokenKind) : (tapeSymbol ignored).Shortens :=
  .orElse (((token _ _).bind fun _ => pure _).bind fun _ => (token _ _).bind fun _ =>
    (condition ignored).bind fun _ => pure _) (condition ignored)

/-- Behind a movement a rest of the text is left. -/
theorem shift (ignored : List TokenKind) : (shift ignored).Shortens :=
  (token _ _).bind fun _ => ofOption _

/-- Behind a movement on a tape. -/
theorem tapeShift (ignored : List TokenKind) : (tapeShift ignored).Shortens :=
  .orElse (((token _ _).bind fun _ => pure _).bind fun _ => (token _ _).bind fun _ =>
    (shift ignored).bind fun _ => pure _) (shift ignored)

/-- Behind what is in brackets a rest of the text is left. -/
theorem bracketed {G : Recognizer Node} (hG : G.Shortens) : (bracketed settings G).Shortens := by
  have hclose : ∀ nodes : List Node, Shortens
      (do let _ ← Recognizer.token settings [.rightBracket]; return Node.list nodes .invalid) :=
        fun nodes =>
    (token _ _).bind fun _ => pure _
  exact (token _ _).bind fun _ => (check _ _).bind fun _ =>
    ite ((pure _).bind hclose) ((elements hG).bind hclose)

/-- Behind a list a rest of the text is left, if that holds of its elements. -/
theorem listOf {G : List TokenKind → Recognizer Node} (hG : ∀ ignored, (G ignored).Shortens)
    (ignored : List TokenKind) : (listOf G ignored).Shortens :=
  (check _ _).bind fun _ => ite (bracketed (hG _)) ((hG _).bind fun _ => pure _)

/-- Behind symbols a rest of the text is left. -/
theorem symbols (ignored : List TokenKind) : (symbols ignored).Shortens := listOf tapeSymbol ignored

/-- Behind the symbols behind a word. -/
theorem symbolsAfter (ignored : List TokenKind) (word : String) :
    (symbolsAfter ignored word).Shortens :=
  (checkWord _ _).bind fun _ =>
    ite ((token _ _).bind fun _ => (symbols ignored).bind fun _ => pure _) (pure _)

end Shortens

end Recognizer

open Recognizer

/-! ## What the rules recognize -/

/-- The items are the same without places. -/
theorem Node.items_bare (node : Node) : node.bare.items = node.items.map Node.bare := by
  cases node with
  | list items => exact bareList_eq_map items
  | _ => rfl

section

variable (hskips : SkipsBlanks ignored)
include hskips

/-- The leaf for names recognizes an identifier, whatever the mode. -/
theorem recognizes_identifier (modes : List LexMode) :
    Recognizes ⟨modes, ignored⟩ Parser.identifier Identifier.bare (identifier ⟨modes, ignored⟩) :=
  (Recognizes.expect hskips _).bind fun token => Recognizes.pure (by rw [String.ofList_toList]; rfl)

/-- The leaves for symbols recognize a token of one of their kinds and give the symbol that it is
written for. A name behind a dollar sign may also be unknown. -/
theorem recognizes_symbolNode (modes : List LexMode) {rule : String}
    (hrule : rule ∈ ["character", "string", "identifier"]) :
    RuleRecognizes 1 ⟨modes, ignored⟩ rule (symbolNode ⟨modes, ignored⟩ (symbolKinds rule)) := by
  have hcharacter : Recognizes ⟨modes, ignored⟩ Parser.character Node.bare
      (symbolNode ⟨modes, ignored⟩ [.character, .quotedCharacter, .namedCharacter]) := by
    refine (Recognizes.expect hskips _).bind_of fun token text rest htoken => ?_
    -- Each kind of token has its own way to the symbol; only a name behind a dollar sign can be
    -- unknown.
    obtain ⟨kind, value, start, stop⟩ := token
    have hkind := List.contains_iff_mem.1 htoken.1
    simp only [List.mem_cons, List.not_mem_nil, or_false] at hkind
    rcases hkind with rfl | rfl | rfl
    · exact Recognizes.ofOption (by rw [symbol?, String.ofList_toList]; rfl)
    · exact Recognizes.ofOption rfl
    · dsimp only
      cases hname : Parser.namedCharacter? (.ofList (value.toList.drop 1)) with
      | none => exact Recognizes.ofOption_none rfl (by rw [symbol?, hname]; rfl)
      | some name => exact Recognizes.ofOption (by rw [symbol?, hname]; rfl)
  have hstring : Recognizes ⟨modes, ignored⟩ Parser.string Node.bare
      (symbolNode ⟨modes, ignored⟩ [.string, .unterminatedString]) := by
    refine (Recognizes.expect hskips _).bind_of fun token text rest htoken => ?_
    obtain ⟨kind, value, start, stop⟩ := token
    have hkind := List.contains_iff_mem.1 htoken.1
    simp only [List.mem_cons, List.not_mem_nil, or_false] at hkind
    rcases hkind with rfl | rfl
    · exact Recognizes.ofOption rfl
    · exact Recognizes.ofOption_none rfl rfl
  have hidentifier : Recognizes ⟨modes, ignored⟩ (Node.identifier <$> Parser.identifier) Node.bare
      (symbolNode ⟨modes, ignored⟩ [.identifier]) := by
    have hmap : Recognizes ⟨modes, ignored⟩ (Node.identifier <$> Parser.identifier) Node.bare
        (identifier ⟨modes, ignored⟩ >>= fun id => pure (Node.identifier id)) :=
      (recognizes_identifier hskips modes).bind fun id => Recognizes.pure rfl
    refine hmap.congr fun text node rest => ⟨?_, ?_⟩
    · rintro ⟨_, _, ⟨⟨kind, value⟩, mid, ⟨hkind, hnext⟩, rfl, rfl⟩, rfl, rfl⟩
      obtain rfl := List.mem_singleton.1 (List.contains_iff_mem.1 hkind)
      exact ⟨_, _, ⟨hkind, hnext⟩, rfl, rfl⟩
    · rintro ⟨⟨kind, value⟩, mid, ⟨hkind, hnext⟩, hsymbol, rfl⟩
      obtain rfl := List.mem_singleton.1 (List.contains_iff_mem.1 hkind)
      exact ⟨_, _, ⟨_, _, ⟨hkind, hnext⟩, rfl, rfl⟩, (Option.some.inj hsymbol).symm, rfl⟩
  simp only [List.mem_cons, List.not_mem_nil, or_false] at hrule
  rcases hrule with rfl | rfl | rfl
  · exact .leaf (l := .character) rfl fun _ _ _ => hcharacter
  · exact .leaf (l := .string) rfl fun _ _ _ => hstring
  · exact .leaf (l := .identifier) rfl fun _ _ _ => hidentifier

/-- The rule for symbols goes on by the kind of the next token, read in the mode for characters. -/
theorem recognizes_condition :
    RuleRecognizes 2 ⟨[.base], ignored⟩ "condition" (condition ignored) := by
  refine (RuleRecognizes.choose
    (H := fun rule => symbolNode ⟨[.char, .base], ignored⟩ (symbolKinds rule)) hskips rfl
    (by decide) fun b hb => recognizes_symbolNode hskips [.char, .base] ?_).congr
    fun text node rest => ⟨?_, ?_⟩
  · revert b
    decide
  · rintro ⟨_, _, _, _, b, hb, t, mid, ⟨hkinds, hnext⟩, hsymbol⟩
    refine ⟨t, mid, ⟨?_, hnext⟩, hsymbol⟩
    have hall : ∀ b ∈ conditionBranches, ∀ kind ∈ symbolKinds b.rule,
        conditionKinds.contains kind = true := by decide
    exact hall b (List.mem_of_find?_eq_some hb) t.1 (List.contains_iff_mem.1 hkinds)
  · -- Conversely, there is a branch for each kind of token that a symbol may be.
    rintro ⟨t, mid, ⟨hkinds, hnext⟩, hsymbol⟩
    have hall : ∀ kind ∈ conditionKinds, (conditionBranches.find? fun b => b.kind == kind).any
        (fun b => (symbolKinds b.rule).contains kind) = true := by decide
    have hkind := hall t.1 (List.contains_iff_mem.1 hkinds)
    cases hb : conditionBranches.find? fun b => b.kind == t.1 with
    | none =>
      rw [hb] at hkind
      exact absurd hkind Bool.false_ne_true
    | some b =>
      rw [hb] at hkind
      exact ⟨t.1, t.2, mid, hnext, b, hb, t, mid, ⟨hkind, hnext⟩, hsymbol⟩

/-- The leaf for movements recognizes one of the three tokens. -/
theorem recognizes_shift : RuleRecognizes 1 ⟨[.base], ignored⟩ "shift" (shift ignored) := by
  refine .leaf (l := .shift) rfl fun _ _ _ => ?_
  refine (Recognizes.expect hskips _).bind fun token => ?_
  dsimp only
  cases hdirection : token.value.toList.head?.bind Direction.ofChar? with
  | none => exact Recognizes.ofOption_none rfl rfl
  | some direction => exact Recognizes.ofOption rfl

/-- What a rule recognizes, for the tape of a given name. -/
theorem recognizes_qualified {rule : String} (l : Leaf) {G : Recognizer Node}
    (hfind : RuleTable.standard.find? name = some (.leaf l))
    (hread : ∀ call start, l.read call start = Parser.qualified call rule start)
    (h : RuleRecognizes n ⟨[.base], ignored⟩ rule G) :
    RuleRecognizes (n + 1) ⟨[.base], ignored⟩ name (qualified ignored G) := by
  refine .leaf hfind fun depth hdepth start => ?_
  rw [hread]
  refine (recognizes_identifier hskips _).bind fun tape => ?_
  refine (Recognizes.expect hskips _).bind fun _ => ?_
  refine (h.call hdepth).bind fun node => ?_
  exact Recognizes.bind_spanFrom start fun span => Recognizes.pure rfl

/-- The rule for symbols on tapes. -/
theorem recognizes_tapeSymbol :
    RuleRecognizes 4 ⟨[.base], ignored⟩ "tape_symbol" (tapeSymbol ignored) :=
  .alternative_pair rfl
    (recognizes_qualified hskips .qualifiedSymbol rfl (fun _ _ => rfl)
      (recognizes_condition hskips))
    ((recognizes_condition hskips).mono (by decide))

/-- The rule for movements on tapes. -/
theorem recognizes_tapeShift :
    RuleRecognizes 3 ⟨[.base], ignored⟩ "tape_shift" (tapeShift ignored) :=
  .alternative_pair rfl
    (recognizes_qualified hskips .qualifiedShift rfl (fun _ _ => rfl) (recognizes_shift hskips))
    ((recognizes_shift hskips).mono (by decide))

/-- Lists, in brackets or not, are recognized if their elements are, with line ends skipped or
not. -/
theorem recognizes_listOf {element : String} {G : List TokenKind → Recognizer Node}
    (hfind : RuleTable.standard.find? name = some
      (.list element (some (.leftBracket, .rightBracket)) .comma))
    (h : ∀ ignored, SkipsBlanks ignored → RuleRecognizes n ⟨[.base], ignored⟩ element (G ignored))
    (hG : ∀ ignored, (G ignored).Shortens) :
    RuleRecognizes (n + 1) ⟨[.base], ignored⟩ name (listOf G ignored) := by
  refine .of_find hfind fun depth hdepth start => ?_
  refine (Recognizes.check hskips _).bind fun opened => Recognizes.ite Iff.rfl ?_ ?_
  · have hskips' := hskips.newline
    have hitem := (h _ hskips').call hdepth
    -- Line ends are ignored up to the closing bracket, which ends the list.
    have hclose : ∀ nodes, Recognizes ⟨[.base], .newline :: ignored⟩
        (do let _ ← Parser.expect [.rightBracket]; return .list nodes (← Parser.spanFrom start))
          Node.bare
        (do let _ ← token ⟨[.base], .newline :: ignored⟩ [.rightBracket]
            return .list (nodes.map Node.bare) .invalid) := by
      intro nodes
      refine (Recognizes.expect hskips' _).bind fun _ => ?_
      refine Recognizes.bind_spanFrom start fun span => Recognizes.pure ?_
      rw [Node.bare, Node.bareList_eq_map]
    refine Recognizes.withSettings ?_
    refine (Recognizes.expect hskips' _).bind fun _ => ?_
    refine (Recognizes.check hskips' _).bind fun closed => Recognizes.ite Iff.rfl ?_ ?_
    · have hnil : Recognizes ⟨[.base], .newline :: ignored⟩ (pure [] : Parser (List Node))
          (List.map Node.bare) (pure []) :=
        Recognizes.pure rfl
      exact hnil.bind hclose
    · exact Recognizes.bind_elements hskips' hitem (hG _) hclose
  · exact (h _ hskips depth hdepth start).bind fun node => Recognizes.pure rfl

/-- The rule for symbols for the tapes. -/
theorem recognizes_symbols : RuleRecognizes 5 ⟨[.base], ignored⟩ "symbols" (symbols ignored) :=
  recognizes_listOf hskips rfl (fun _ hskips => recognizes_tapeSymbol hskips) Shortens.tapeSymbol

/-- The rule for movements on the tapes. -/
theorem recognizes_shifts : RuleRecognizes 4 ⟨[.base], ignored⟩ "shifts" (shifts ignored) :=
  recognizes_listOf hskips rfl (fun _ hskips => recognizes_tapeShift hskips) Shortens.tapeShift

/-- The rule for transitions of finite automata. -/
theorem recognizes_finiteTransition :
    RuleRecognizes 3 ⟨[.base], ignored⟩ "finite_transition" (finiteTransition ignored) := by
  refine .leaf (l := .finiteTransition) rfl fun depth hdepth start => ?_
  refine (recognizes_identifier hskips _).bind fun source => ?_
  refine ((recognizes_condition hskips).call hdepth).bind fun symbol => ?_
  refine (Recognizes.expect hskips _).bind fun _ => ?_
  refine (recognizes_identifier hskips _).bind fun target => ?_
  exact Recognizes.bind_spanFrom start fun span => Recognizes.pure rfl

/-- The symbols behind a contextual word are recognized by looking at the next token: if it is the
word, symbols are read behind it, and otherwise nothing is. -/
theorem recognizes_symbolsAfter {depth : Nat} (hdepth : 5 ≤ depth) (word : String) :
    Recognizes ⟨[.base], ignored⟩ (Parser.symbolsAfter (RuleTable.standard.call depth) word)
      (Option.map (List.map Node.bare)) (symbolsAfter ignored word) := by
  -- The token that is read is the one that was looked at, so it is an identifier.
  have hnext : Recognizes ⟨[.base], ignored⟩
      (Parser.symbolsAfter (RuleTable.standard.call depth) word)
      (Option.map (List.map Node.bare)) (do
        let found ← checkWord ⟨[.base], ignored⟩ word
        if found = true then do
          let _ ← token ⟨[.base], ignored⟩ TokenKind.all
          let node ← symbols ignored
          return some node.items
        else return Option.none) := by
    refine (Recognizes.checkWord hskips word).bind fun found =>
      Recognizes.ite Iff.rfl ?_ (Recognizes.pure rfl)
    refine (Recognizes.next hskips).bind fun _ => ?_
    refine ((recognizes_symbols hskips).call hdepth).bind fun node => Recognizes.pure ?_
    rw [Node.items_bare]
    rfl
  refine hnext.congr fun text nodes rest => ⟨?_, ?_⟩
  · rintro ⟨found, _, ⟨rfl, kind, value, after, hword, rfl⟩, hmore⟩
    refine ⟨_, _, ⟨rfl, kind, value, after, hword, rfl⟩, ?_⟩
    dsimp only at hmore ⊢
    split_ifs at hmore with hfound
    · obtain ⟨⟨kind', value'⟩, mid, ⟨hkind, htoken⟩, hmore⟩ := hmore
      obtain ⟨rfl, -⟩ := hword.unique hskips (by decide) htoken
      rw [if_pos hfound]
      rw [Bool.and_eq_true, beq_iff_eq] at hfound
      exact ⟨_, mid, ⟨List.contains_iff_mem.2 (List.mem_singleton.2 hfound.1), htoken⟩, hmore⟩
    · rw [if_neg hfound]
      exact hmore
  · rintro ⟨found, _, ⟨rfl, hword⟩, hmore⟩
    refine ⟨found, _, ⟨rfl, hword⟩, ?_⟩
    dsimp only at hmore ⊢
    split_ifs at hmore with hfound
    · obtain ⟨⟨kind', value'⟩, mid, ⟨-, htoken⟩, hmore⟩ := hmore
      rw [if_pos hfound]
      exact ⟨_, mid, ⟨by cases kind' <;> rfl, htoken⟩, hmore⟩
    · rw [if_neg hfound]
      exact hmore

/-- The rule for transitions of pushdown automata recognizes an edge with symbols to pop, and behind
it symbols to push, at least one of the two being there. -/
theorem recognizes_pushdownTransition :
    RuleRecognizes 6 ⟨[.base], ignored⟩ "pushdown_transition" (pushdownTransition ignored) := by
  refine .leaf (l := .pushdownTransition) rfl fun depth hdepth start => ?_
  refine (recognizes_identifier hskips _).bind fun source => ?_
  refine ((recognizes_condition hskips).call (Nat.le_trans (by decide) hdepth)).bind fun symbol =>
    ?_
  refine (recognizes_symbolsAfter hskips hdepth "pop").bind fun pop => ?_
  refine (Recognizes.expect hskips _).bind fun _ => ?_
  refine (recognizes_identifier hskips _).bind fun target => ?_
  refine (recognizes_symbolsAfter hskips hdepth "push").bind fun push => ?_
  refine Recognizes.bind_spanFrom start fun span => Recognizes.ite ?_ (Recognizes.throw rfl)
    (Recognizes.pure ?_)
  · rw [Option.isNone_map, Option.isNone_map]
  · -- A list that is missing is read as the empty list.
    have hgetD : ∀ nodes : Option (List Node), Node.bareList (nodes.getD []) =
        (nodes.map (List.map Node.bare)).getD [] := by
      intro nodes
      rw [Node.bareList_eq_map]
      cases nodes <;> rfl
    rw [Node.bare, hgetD, hgetD]

/-- The rule for transitions of Turing machines recognizes an edge with symbols to read, and behind
it symbols to write and movements, none of which may be missing. -/
theorem recognizes_turingTransition :
    RuleRecognizes 6 ⟨[.base], ignored⟩ "turing_transition" (turingTransition ignored) := by
  refine .leaf (l := .turingTransition) rfl fun depth hdepth start => ?_
  refine (recognizes_identifier hskips _).bind fun source => ?_
  refine ((recognizes_symbols hskips).call hdepth).bind fun read => ?_
  refine (Recognizes.expect hskips _).bind fun _ => ?_
  refine (recognizes_identifier hskips _).bind fun target => ?_
  refine ((recognizes_symbols hskips).call hdepth).bind fun write => ?_
  refine ((recognizes_shifts hskips).call (Nat.le_trans (by decide) hdepth)).bind fun shift => ?_
  refine Recognizes.bind_spanFrom start fun span => Recognizes.pure ?_
  rw [Node.bare]
  simp only [Node.bareList_eq_map, Node.items_bare]

/-- The rule for transitions tries the three kinds one after the other. -/
theorem recognizes_transition :
    RuleRecognizes 7 ⟨[.base], ignored⟩ "transition" (transition ignored) :=
  .alternative_triple rfl (recognizes_turingTransition hskips)
    (recognizes_pushdownTransition hskips) ((recognizes_finiteTransition hskips).mono (by decide))

end

end MachineLang
