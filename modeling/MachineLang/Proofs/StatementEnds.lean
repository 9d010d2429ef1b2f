import MachineLang.Proofs.Edges

/-!
# Where statements end

A transition may end although more could be read: what it writes and how it moves are tried first,
on whatever follows, and a list in brackets goes on behind line ends. A text `Continues` a program
if what follows a statement is one of the things that may follow it: a separator, a keyword, another
transition, or the ending, if that is `Quiet`. There, no part of a transition is recognized in front
of one ending that is not recognized in front of the other (`Continues.symbols`,
`Continues.condition`), so a transition ends at the same place in front of both.
-/

namespace MachineLang

open Recognizer

variable {kind : TokenKind} {value rest text mid r r' t t' : List Char} {ignored : List TokenKind}
  {node : Node}

namespace Recognizer

/-! ## By the next word -/

/-- The kinds of words that begin movements on the tapes. -/
def shiftsKinds : List TokenKind := [.leftBracket, .identifier, .shiftLeft, .shiftRight, .noShift]

/-- A symbol ends where a word ends that begins where it does. -/
theorem end_of_condition (hskips : SkipsBlanks ignored)
    (hnext : Next ⟨[.base], ignored⟩ kind value mid text) (hsolid : kind.isSolid = true)
    (h : condition ignored text node rest) : rest = mid := by
  obtain ⟨_, -, hsymbol⟩ := hnext.symbol_of_word hskips hsolid
  obtain ⟨⟨_, _⟩, _, ⟨-, hsymbol'⟩, -, rfl⟩ := h
  exact (hsymbol.unique hskips (by decide) hsymbol').2.2.symm

/-- Where the next word is no name, a symbol for a tape is a bare one. -/
theorem condition_of_tapeSymbol (hskips : SkipsBlanks ignored)
    (hnext : Next ⟨[.base], ignored⟩ kind value mid text) (hkind : kind ≠ .identifier)
    (h : tapeSymbol ignored text node rest) : condition ignored text node rest := by
  rcases h with h | ⟨-, h⟩
  · obtain ⟨_, _, _, _, _, htape, -⟩ := qualified_iff.1 h
    exact absurd (hnext.unique hskips (by decide) htape).1 hkind
  · exact h

/-- Where the next word is no bracket, symbols are a single one. -/
theorem tapeSymbol_of_symbols (hnext : Next ⟨[.base], lineBlanks⟩ kind value mid text)
    (hkind : kind ≠ .leftBracket) (h : symbols lineBlanks text node rest) :
    ∃ item, tapeSymbol lineBlanks text item rest ∧ node = .list [item] .invalid := by
  obtain ⟨_, _, _, hnext', ⟨rfl, -⟩ | ⟨-, item, hitem, rfl⟩⟩ := listOf_iff.1 h
  · exact absurd (hnext.unique .body (by decide) hnext').1 hkind
  · exact ⟨item, hitem, rfl⟩

/-- Where the next word is neither a bracket nor a name, symbols are a single one. -/
theorem condition_of_symbols (hnext : Next ⟨[.base], lineBlanks⟩ kind value mid text)
    (hbracket : kind ≠ .leftBracket) (hname : kind ≠ .identifier)
    (h : symbols lineBlanks text node rest) :
    ∃ item, condition lineBlanks text item rest := by
  obtain ⟨item, hitem, -⟩ := tapeSymbol_of_symbols hnext hbracket h
  exact ⟨item, condition_of_tapeSymbol .body hnext hname hitem⟩

/-- Symbols end where a word ends that begins where they do, if that is neither a bracket nor a
name. -/
theorem end_of_symbols (hnext : Next ⟨[.base], lineBlanks⟩ kind value mid text)
    (hbracket : kind ≠ .leftBracket) (hname : kind ≠ .identifier) (hsolid : kind.isSolid = true)
    (h : symbols lineBlanks text node rest) : rest = mid := by
  obtain ⟨item, hitem⟩ := condition_of_symbols hnext hbracket hname h
  exact end_of_condition .body hnext hsolid hitem

/-- A single symbol for a tape where the next word is no bracket. -/
theorem symbols_of_tapeSymbol (hnext : Next ⟨[.base], lineBlanks⟩ kind value mid text)
    (hkind : kind ≠ .leftBracket) (h : tapeSymbol lineBlanks text node rest) :
    symbols lineBlanks text (.list [node] .invalid) rest :=
  listOf_iff.2 ⟨_, _, _, hnext, .inr ⟨hkind, node, h, rfl⟩⟩

/-- No symbol is recognized at a line end or a keyword, so a transition does not go on there,
whatever symbols may be asked for. -/
theorem not_condition (hnext : Next ⟨[.base], lineBlanks⟩ kind value mid text)
    (hkind : kind = .newline ∨ kind ∈ keywords.map Prod.snd) :
    ¬ (condition lineBlanks).Begins text := by
  rintro ⟨node, rest, ⟨kind', value'⟩, _, ⟨hkind', hsymbol⟩, -⟩
  -- A line end is cut alike where symbols stand; a keyword is a name there, or longer than a
  -- character.
  rcases hkind with rfl | hkind
  · rcases hnext.lexes with ⟨hlex, hread⟩ | ⟨h, -⟩
    · have hline : Next ⟨[.char, .base], lineBlanks⟩ .newline value mid text :=
        hnext.change_modes .body (by decide) (by decide)
          (hlex.of_isBlank (by decide) (by decide) (by decide)) hread rfl
      obtain ⟨rfl, -⟩ := hline.unique .body (by decide) hsymbol
      exact absurd hkind' Bool.false_ne_true
    · exact absurd h (by decide)
  · have hsolid : ∀ kind ∈ keywords.map Prod.snd, kind.isSolid = true ∧
        conditionKinds.contains kind = false := by
      decide
    have hlong : ∀ word ∈ keywords, ∀ m : LexMode, ∀ r ∈ m.rules, r.kind = word.2 →
        r = .word word.2 word.1 := by
      intro word hword m
      cases m <;> revert word <;> decide
    have hlength : ∀ word ∈ keywords, 1 < word.1.toList.length := by decide
    obtain ⟨word, hword, rfl⟩ := List.mem_map.1 hkind
    obtain ⟨kind'', hkind'', hsymbol'⟩ := hnext.symbol_of_word .body (hsolid _ hkind).1
    obtain ⟨rfl, -⟩ := hsymbol'.unique .body (by decide) hsymbol
    rcases hkind'' with ⟨rfl, -⟩ | ⟨-, hone⟩
    · rw [(hsolid _ hkind).2] at hkind'
      exact Bool.false_ne_true hkind'
    · rcases hnext.lexes with ⟨hlex, -⟩ | ⟨h, -⟩
      · rw [hlex.eq_word (ne_of_isSolid (hsolid _ hkind).1 (by decide)) (hlong word hword)] at hone
        exact absurd hone (Nat.ne_of_gt (hlength word hword))
      · exact absurd h (ne_of_isSolid (hsolid _ hkind).1 (by decide))

/-- Movements begin with a bracket, a name or a movement. -/
theorem kind_of_shifts (hnext : Next ⟨[.base], lineBlanks⟩ kind value mid text)
    (h : (shifts lineBlanks).Begins text) : kind ∈ shiftsKinds := by
  obtain ⟨_, _, h⟩ := h
  obtain ⟨_, _, _, hnext', h⟩ := listOf_iff.1 h
  obtain ⟨rfl, rfl, rfl⟩ := hnext.unique .body (by decide) hnext'
  rcases h with ⟨rfl, -⟩ | ⟨-, _, h | ⟨-, h⟩, -⟩
  · decide
  · obtain ⟨_, _, _, _, _, htape, -⟩ := qualified_iff.1 h
    obtain ⟨rfl, -⟩ := hnext.unique .body (by decide) htape
    decide
  · obtain ⟨kind', _, hkind', hshift, -⟩ := shift_iff.1 h
    obtain ⟨rfl, -⟩ := hnext.unique .body (by decide) hshift
    exact List.mem_cons_of_mem _ (List.mem_cons_of_mem _ hkind')

/-- Movements that begin with a name go on with a colon and a movement. -/
theorem colon_of_shifts (hnext : Next ⟨[.base], lineBlanks⟩ .identifier value mid text)
    (h : (shifts lineBlanks).Begins text) : ∃ colon a kind move rest,
      Next ⟨[.base], lineBlanks⟩ .colon colon a mid ∧ Next ⟨[.base], lineBlanks⟩ kind move rest a ∧
      kind ∈ [TokenKind.shiftLeft, .shiftRight, .noShift] := by
  obtain ⟨_, rest, h⟩ := h
  obtain ⟨_, _, _, hnext', h⟩ := listOf_iff.1 h
  obtain ⟨rfl, rfl, rfl⟩ := hnext.unique .body (by decide) hnext'
  -- A name is neither a bracket nor a movement, so it is the name of a tape, and a colon follows.
  rcases h with ⟨h, -⟩ | ⟨-, _, h | ⟨-, h⟩, -⟩
  · exact absurd h (by decide)
  · obtain ⟨_, _, colon, a, _, htape, hcolon, hmove, -⟩ := qualified_iff.1 h
    obtain ⟨-, -, rfl⟩ := hnext.unique .body (by decide) htape
    obtain ⟨kind', move, hkind', hshift, -⟩ := shift_iff.1 hmove
    exact ⟨colon, a, kind', move, rest, hcolon, hshift, hkind'⟩
  · obtain ⟨kind', _, hkind', hshift, -⟩ := shift_iff.1 h
    obtain ⟨rfl, -⟩ := hnext.unique .body (by decide) hshift
    exact absurd hkind' (by decide)

/-! ## Symbols behind a word -/

/-- Symbols are recognized behind a contextual word if it comes next, and otherwise there are none
and nothing is read. The word is not a keyword, so it may be a name elsewhere. -/
theorem symbolsAfter_iff {word : String} {nodes : Option (List Node)} :
    symbolsAfter lineBlanks word text nodes rest ↔
      (∃ value mid node, Next ⟨[.base], lineBlanks⟩ .identifier value mid text ∧
        .ofList value = word ∧
        symbols lineBlanks mid node rest ∧ nodes = some node.items) ∨
      (∃ kind value mid, Next ⟨[.base], lineBlanks⟩ kind value mid text ∧
        ¬ (kind = .identifier ∧ .ofList value = word) ∧ nodes = Option.none ∧ rest = text) := by
  constructor
  · rintro ⟨found, _, ⟨rfl, kind, value, mid, hnext, rfl⟩, h⟩
    -- The word decides: with it symbols follow, without it nothing is taken.
    by_cases hfound : kind = .identifier ∧ String.ofList value = word
    · rw [beq_iff_eq.2 hfound.1, beq_iff_eq.2 hfound.2, Bool.and_self, if_pos rfl] at h
      obtain ⟨⟨kind', value'⟩, mid', ⟨hkind', hnext'⟩, node, _, hnode, rfl, rfl⟩ := h
      obtain ⟨rfl, rfl, rfl⟩ := hnext.unique .body (by decide) hnext'
      obtain ⟨rfl, hword⟩ := hfound
      exact .inl ⟨_, _, node, hnext, hword, hnode, rfl⟩
    · have hfalse : ¬ (kind == .identifier && String.ofList value == word) = true := by
        rw [Bool.and_eq_true, beq_iff_eq, beq_iff_eq]
        exact hfound
      rw [if_neg hfalse] at h
      obtain ⟨rfl, rfl⟩ := h
      exact .inr ⟨kind, value, mid, hnext, hfound, rfl, rfl⟩
  · rintro (⟨value, mid, node, hnext, rfl, hnode, rfl⟩ |
      ⟨kind, value, mid, hnext, hother, rfl, rfl⟩)
    · refine ⟨true, text, ⟨rfl, _, value, mid, hnext, ?_⟩, (.identifier, value), mid, ⟨rfl, hnext⟩,
        node, rest, hnode, rfl, rfl⟩
      rw [beq_self_eq_true, beq_self_eq_true, Bool.and_self]
    · refine ⟨false, _, ⟨rfl, kind, value, mid, hnext, ?_⟩, rfl, rfl⟩
      rw [eq_comm, ← Bool.not_eq_true, Bool.and_eq_true, beq_iff_eq, beq_iff_eq]
      exact hother

end Recognizer

/-- If the word comes next in front of the other ending, it does in front of the one. -/
def SameWord (r r' : List Char) (word : String) (t : List Char) : Prop :=
  ∀ value rest, Next ⟨[.base], lineBlanks⟩ .identifier value rest (t ++ r') → .ofList value = word →
    ∃ value' rest', Next ⟨[.base], lineBlanks⟩ .identifier value' rest' (t ++ r) ∧
      .ofList value' = word

/-- Where both sources look alike, the same word comes next. -/
theorem Alike.sameWord (h : Alike r r' t) (word : String) : SameWord r r' word t := by
  intro value rest hnext hword
  obtain ⟨_, -, -, hnext'⟩ := h.symm.next .line hnext
  exact ⟨value, _, hnext', hword⟩

/-- The symbols behind a contextual word are carried over to another ending. If the word does not
come next there are none, and the two endings have to agree that it does not. -/
theorem Carries.symbolsAfter (hseam : Seam r r') (word : String) :
    Carries r r' (fun _ => True) (symbolsAfter lineBlanks word)
      fun t => AvoidsColon r' lineBlanks t ∧ SameWord r r' word t := by
  rintro t nodes t' h ⟨hcolon, hword⟩
  refine ⟨trivial, symbolsAfter_iff.2 ?_⟩
  -- If the word is there, its symbols are carried over. If it is not, the two endings have to agree
  -- that it is not.
  rcases symbolsAfter_iff.1 h with ⟨value, mid, node, hnext, hvalue, hnode, rfl⟩ |
    ⟨kind, value, mid, hnext, hother, rfl, htext⟩
  · obtain ⟨a, rfl⟩ := exists_between (Shortens.listOf Shortens.tapeSymbol _ _ _ _ hnode)
    exact .inl ⟨value, _, node, hseam (by decide) .body (by decide) hnext, hvalue,
      (Carries.symbols hseam _ _ _ hnode hcolon).2, rfl⟩
  · obtain rfl := List.append_cancel_right htext
    obtain ⟨kind', value', mid', hnext'⟩ := Next.exists_of_text .body [.base] (t' ++ r')
    refine .inr ⟨kind', value', mid', hnext', ?_, rfl, rfl⟩
    rintro ⟨rfl, hvalue'⟩
    obtain ⟨value'', mid'', hnext'', hvalue''⟩ := hword _ _ hnext' hvalue'
    obtain ⟨rfl, rfl, -⟩ := hnext''.unique .body (by decide) hnext
    exact hother ⟨rfl, hvalue''⟩

/-- What a pushdown automaton reads, in front of an arrow. -/
theorem Carries.readAndPop (hseam : Seam r r') :
    Carries r r' (Alike r r') readAndPop (Sees r r' lineBlanks [.arrow]) := by
  have hpop : Carries r r' (fun _ => True) (Recognizer.symbolsAfter lineBlanks "pop")
      (Sees r r' lineBlanks [.arrow]) :=
    (Carries.symbolsAfter hseam "pop").mono (fun _ ht => ht) fun _ ht =>
      ⟨ht.avoidsColon .line (by decide), ht.alike.sameWord _⟩
  exact (condition hseam Settings.OfLine.line.symbols).bind
    (fun _ => hpop.bind (fun _ => pure _) fun _ => .pure _)
    fun _ => (Shortens.symbolsAfter _ _).bind fun _ => .pure _

namespace Recognizer

/-- What is recognized shortens the text. -/
theorem Shortens.readAndPop : readAndPop.Shortens :=
  (Shortens.condition _).bind fun _ => (Shortens.symbolsAfter _ _).bind fun _ => .pure _

/-- A pushdown automaton takes nothing from the stacks where a symbol stands in front of the
arrow. -/
theorem pop_eq_none {source target source' target' : Identifier} {symbol symbol' : Node}
    {pop : Option (List Node)}
    (h : edge (condition lineBlanks) text (source, symbol, target) rest)
    (h' : edge readAndPop text (source', (symbol', pop), target') rest) : pop = Option.none := by
  obtain ⟨_, a, mid, _, _, _, hfirst, ⟨_, _, ⟨-, hsymbol⟩, -, rfl⟩, harrow, -⟩ := edge_iff.1 h
  obtain ⟨_, _, _, _, _, _, hfirst', ⟨_, c, ⟨_, _, ⟨-, hsymbol'⟩, -, rfl⟩, _, _, hpop, hread, rfl⟩,
      -⟩ := edge_iff.1 h'
  cases hread
  obtain ⟨-, -, rfl⟩ := hfirst.unique .body (by decide) hfirst'
  obtain ⟨-, -, rfl⟩ := hsymbol.unique .body (by decide) hsymbol'
  rcases symbolsAfter_iff.1 hpop with ⟨_, _, _, hnext, -⟩ | ⟨_, _, _, -, -, hnone, -⟩
  · exact absurd (harrow.unique .body (by decide) hnext).1 (by decide)
  · exact hnone

end Recognizer

/-- What a pushdown automaton reads leads to what is behind it. -/
theorem Leads.readAndPop : Leads r readAndPop :=
  (condition Settings.OfLine.line.symbols).bind
    (fun _ => (symbolsAfter _).bind (fun _ => pure _) fun _ => .pure _)
    fun _ => (Shortens.symbolsAfter _ _).bind fun _ => .pure _

/-- What a pushdown automaton reads retraces its way. -/
theorem Retraces.readAndPop : Retraces readAndPop :=
  (condition Settings.OfLine.line.symbols).bind fun _ => (symbolsAfter _).bind fun _ => pure _

/-! ## What may follow a statement -/

/-- Nothing of a transition goes on in front of the text. -/
structure Quiet (text : List Char) : Prop where
  /-- No colon is next. -/
  colon : ∀ value rest, ¬ Next ⟨[.base], lineBlanks⟩ .colon value rest text
  /-- The word in front of symbols for the stacks is not next. -/
  push : ∀ value rest, Next ⟨[.base], lineBlanks⟩ .identifier value rest text →
    .ofList value ≠ "push"
  /-- No movements on the tapes are next. -/
  shifts : ¬ (shifts lineBlanks).Begins text
  /-- No movements follow a symbol. -/
  condition : ∀ node rest, condition lineBlanks text node rest →
    ¬ (Recognizer.shifts lineBlanks).Begins rest
  /-- No movements follow symbols for the tapes. -/
  symbols : ∀ node rest, symbols lineBlanks text node rest →
    ¬ (Recognizer.shifts lineBlanks).Begins rest

/-- Nothing of a transition goes on in front of a line end. -/
theorem Quiet.of_newline (h : Next ⟨[.base], lineBlanks⟩ .newline value rest text) :
    Quiet text := by
  have hsymbol : ∀ node rest, ¬ Recognizer.condition lineBlanks text node rest :=
    fun node rest hnode =>
    not_condition h (.inl rfl) ⟨node, rest, hnode⟩
  refine ⟨fun _ _ hnext => ?_, fun _ _ hnext => ?_, fun hbegins => ?_, fun node rest hnode => ?_,
    fun node rest hnode => ?_⟩
  · exact absurd (h.unique .body (by decide) hnext).1 (by decide)
  · exact absurd (h.unique .body (by decide) hnext).1 (by decide)
  · exact absurd (kind_of_shifts h hbegins) (by decide)
  · exact absurd hnode (hsymbol node rest)
  · obtain ⟨item, hitem⟩ := condition_of_symbols h (by decide) (by decide) hnode
    exact absurd hitem (hsymbol item rest)

/-- What follows a statement, in front of either ending, is what may follow one. -/
inductive Continues (r r' : List Char) : List Char → Prop
  /-- The ending, and nothing goes on in front of the other one. -/
  | stop {t : List Char} (hquiet : Quiet (t ++ r')) : Continues r r' t
  /-- A line end. -/
  | line {t t' value : List Char}
      (hnext : Next ⟨[.base], lineBlanks⟩ .newline value (t' ++ r) (t ++ r)) : Continues r r' t
  /-- A semicolon or a closing brace, and no movements behind it in front of the other ending. -/
  | mark {t t' value : List Char} {kind : TokenKind}
      (hkind : kind = .semicolon ∨ kind = .rightBrace)
      (hnext : Next ⟨[.base], lineBlanks⟩ kind value (t' ++ r) (t ++ r))
      (hmore : ¬ (shifts lineBlanks).Begins (t' ++ r')) : Continues r r' t
  /-- A keyword. -/
  | keyword {t t' value : List Char} {kind : TokenKind} (hkind : kind ∈ keywords.map Prod.snd)
      (hnext : Next ⟨[.base], lineBlanks⟩ kind value (t' ++ r) (t ++ r)) : Continues r r' t
  /-- A transition. -/
  | transition {t t' : List Char} {node : Node}
      (h : transition lineBlanks (t ++ r) node (t' ++ r)) : Continues r r' t

/-- Whether what follows the tree of a statement may be read as more of it, as that of a transition
of a finite or of a pushdown automaton may be. -/
def Node.mayGoOn : Node → Bool
  | .finiteTransition .. => true
  | .pushdownTransition .. => true
  | _ => false

/-- Places do not matter to whether a statement may go on. -/
theorem Node.mayGoOn_bare (n : Node) : n.bare.mayGoOn = n.mayGoOn := by
  cases n <;> rfl

/-- A transition of a finite automaton may go on. -/
theorem Recognizer.mayGoOn_of_finite {n : Node} (h : finiteTransition lineBlanks text n.bare rest) :
    n.mayGoOn = true := by
  obtain ⟨_, _, _, -, hnode⟩ := finiteTransition_iff.1 h
  rw [← n.mayGoOn_bare, hnode]
  rfl

/-- A transition of a pushdown automaton may go on. -/
theorem Recognizer.mayGoOn_of_pushdown {n : Node}
    (h : pushdownTransition lineBlanks text n.bare rest) :
    n.mayGoOn = true := by
  obtain ⟨_, _, _, _, _, _, -, -, -, hnode⟩ := pushdownTransition_iff.1 h
  rw [← n.mayGoOn_bare, hnode]
  rfl

/-- Behind a colon there is the end of what is read, or a name. -/
def ColonEnds {β : Type} (G : Recognizer β) : Prop :=
  ∀ text b rest, G text b rest → ∀ colon mid, Next ⟨[.base], lineBlanks⟩ .colon colon mid text →
    mid = rest ∨ ∃ value after, Next ⟨[.base], lineBlanks⟩ .identifier value after mid

namespace ColonEnds

/-- A symbol that begins with a colon is that colon alone. -/
theorem condition : ColonEnds (condition lineBlanks) := fun _ _ _ h _ _ hcolon =>
  .inl (end_of_condition .body hcolon (by decide) h).symm

/-- Symbols for the tapes that begin with a colon are that colon alone, since no bracket comes
first. -/
theorem symbols : ColonEnds (symbols lineBlanks) := fun _ _ _ h _ _ hcolon =>
  .inl (end_of_symbols hcolon (by decide) (by decide) (by decide) h).symm

/-- A symbol, and perhaps symbols to take from the stacks. -/
theorem readAndPop : ColonEnds readAndPop := by
  rintro text _ rest ⟨symbol, mid, hsymbol, pop, _, hpop, -, rfl⟩ colon mid' hcolon
  obtain rfl := end_of_condition .body hcolon (by decide) hsymbol
  rcases symbolsAfter_iff.1 hpop with ⟨value, after, _, hnext, -⟩ | ⟨_, _, _, -, -, -, rfl⟩
  · exact .inr ⟨value, after, hnext⟩
  · exact .inl rfl

end ColonEnds

/-- A transition begins with a name, from behind which the way leads to an arrow; behind a colon
there is the arrow or a name. -/
theorem exists_of_transition (hseam : Seam r r')
    (h : transition lineBlanks (t ++ r) node (t' ++ r)) :
    ∃ first a z, Next ⟨[.base], lineBlanks⟩ .identifier first (a ++ r) (t ++ r) ∧ Path r r' z a ∧
      ∀ colon mid, Next ⟨[.base], lineBlanks⟩ .colon colon mid (a ++ r) →
        ∃ kind value rest, Next ⟨[.base], lineBlanks⟩ kind value rest mid ∧
          (kind = .arrow ∨ kind = .identifier) := by
  -- All three kinds of transition begin with an edge, so it is enough to look at that.
  have hedge : ∀ {β : Type} {G : Recognizer β} {source target : Identifier} {b : β}
      {mid : List Char}, Leads r G →
      G.Shortens → ColonEnds G → t' ++ r <:+ mid → edge G (t ++ r) (source, b, target) mid →
      ∃ first a z, Next ⟨[.base], lineBlanks⟩ .identifier first (a ++ r) (t ++ r) ∧ Path r r' z a ∧
        ∀ colon mid, Next ⟨[.base], lineBlanks⟩ .colon colon mid (a ++ r) →
          ∃ kind value rest, Next ⟨[.base], lineBlanks⟩ kind value rest mid ∧
            (kind = .arrow ∨ kind = .identifier) := by
    intro β G source target b mid hG hshort hcolon hsuffix h
    obtain ⟨d, rfl⟩ := exists_between hsuffix
    obtain ⟨first, a, d, value, z, _, -, -, hfirst, hb, harrow, -, hpath⟩ :=
      path_of_edge hseam hG hshort h
    refine ⟨first, a, z, hfirst, hpath, fun colon mid hnext => ?_⟩
    rcases hcolon _ _ _ hb _ _ hnext with rfl | ⟨value', after, hname⟩
    · exact ⟨_, _, _, harrow, .inl rfl⟩
    · exact ⟨_, _, _, hname, .inr rfl⟩
  rcases h with h | ⟨-, h | ⟨-, h⟩⟩
  · obtain ⟨_, _, _, mid, _, _, _, h, hwrite, hmoves, -⟩ := turingTransition_iff.1 h
    exact hedge Leads.symbols (Shortens.symbols _) .symbols
      ((Shortens.listOf Shortens.tapeShift _ _ _ _ hmoves).trans
        (Shortens.symbols _ _ _ _ hwrite)) h
  · obtain ⟨_, _, _, _, mid, _, h, hpush, -⟩ := pushdownTransition_iff.1 h
    exact hedge Leads.readAndPop Shortens.readAndPop .readAndPop
      (Shortens.symbolsAfter _ _ _ _ _ hpush) h
  · obtain ⟨_, _, _, h, -⟩ := finiteTransition_iff.1 h
    exact hedge (Leads.condition Settings.OfLine.line.symbols) (Shortens.condition _) .condition
      List.suffix_rfl h

namespace Continues

section

variable (hseam : Seam r r')
include hseam

/-- The next word is that of a separator, a closing brace or a statement, unless the other ending is
quiet. -/
theorem next (h : Continues r r' t) : Quiet (t ++ r') ∨ ∃ kind value t₁,
    (kind ∈ [TokenKind.newline, .semicolon, .rightBrace, .identifier] ∨
      kind ∈ keywords.map Prod.snd) ∧
      Next ⟨[.base], lineBlanks⟩ kind value (t₁ ++ r) (t ++ r) ∧
      Next ⟨[.base], lineBlanks⟩ kind value (t₁ ++ r') (t ++ r') := by
  -- Unless the other ending is quiet, both endings begin with the same word, whichever way the
  -- statement goes on.
  cases h with
  | stop hquiet => exact .inl hquiet
  | line hnext =>
    exact .inr ⟨_, _, _, .inl (by decide), hnext, hseam (by decide) .body (by decide) hnext⟩
  | mark hkind hnext =>
    rcases hkind with rfl | rfl
    · exact .inr ⟨_, _, _, .inl (by decide), hnext, hseam (by decide) .body (by decide) hnext⟩
    · exact .inr ⟨_, _, _, .inl (by decide), hnext, hseam (by decide) .body (by decide) hnext⟩
  | keyword hkind hnext =>
    have hend : ∀ kind ∈ keywords.map Prod.snd, kind ≠ .endOfInput := by decide
    exact .inr ⟨_, _, _, .inr hkind, hnext, hseam (by decide) .body (hend _ hkind) hnext⟩
  | transition h =>
    obtain ⟨_, _, _, hnext, -⟩ := exists_of_transition hseam h
    exact .inr ⟨_, _, _, .inl (by decide), hnext, hseam (by decide) .body (by decide) hnext⟩

/-- No colon is next where a statement may go on, in front of the other ending. -/
theorem avoidsColon (h : Continues r r' t) : AvoidsColon r' lineBlanks t := by
  rcases h.next hseam with hquiet | ⟨kind, _, _, hkind, -, hnext⟩
  · exact hquiet.colon
  · intro value rest hcolon
    obtain ⟨rfl, -⟩ := hnext.unique .body (by decide) hcolon
    exact absurd hkind (by decide)

/-- The word in front of symbols for the stacks is next in front of both endings or of neither. -/
theorem sameWord (h : Continues r r' t) : SameWord r r' "push" t := by
  intro value rest hword hvalue
  rcases h.next hseam with hquiet | ⟨kind, value', t₁, hkind, hnext, hnext'⟩
  · exact absurd hvalue (hquiet.push _ _ hword)
  · obtain ⟨rfl, rfl, -⟩ := hnext'.unique .body (by decide) hword
    exact ⟨value', _, hnext, hvalue⟩

/-- No movements on the tapes are next: behind a name and a colon there would be one, but there is
an arrow or another name. -/
theorem not_shifts (h : Continues r r' t) : ¬ (shifts lineBlanks).Begins (t ++ r') := by
  intro hbegins
  cases h with
  | stop hquiet => exact hquiet.shifts hbegins
  | line hnext =>
    exact absurd (kind_of_shifts (hseam (by decide) .body (by decide) hnext) hbegins) (by decide)
  | mark hkind hnext =>
    rcases hkind with rfl | rfl
    · exact absurd (kind_of_shifts (hseam (by decide) .body (by decide) hnext) hbegins) (by decide)
    · exact absurd (kind_of_shifts (hseam (by decide) .body (by decide) hnext) hbegins) (by decide)
  | keyword hkind hnext =>
    have hkinds : ∀ kind ∈ keywords.map Prod.snd, kind ≠ .endOfInput ∧ kind ∉ shiftsKinds := by
      decide
    exact (hkinds _ hkind).2
      (kind_of_shifts (hseam (by decide) .body (hkinds _ hkind).1 hnext) hbegins)
  | transition h =>
    -- Behind the name and a colon there would be a movement, but there is an arrow or another name.
    obtain ⟨first, a, z, hnext, hpath, hcolons⟩ := exists_of_transition hseam h
    obtain ⟨colon, _, kind, move, rest, hcolon, hmove, hkind⟩ :=
      colon_of_shifts (hseam (by decide) .body (by decide) hnext) hbegins
    obtain ⟨b, rfl, hpath', hcolon'⟩ := hpath.symm.word .line hcolon (by decide) (by decide)
    obtain ⟨_, -, -, hmove'⟩ := hpath'.alike.next .line hmove
    obtain ⟨kind', _, _, hnext', hkind'⟩ := hcolons _ _ hcolon'
    obtain ⟨rfl, -⟩ := hmove'.unique .body (by decide) hnext'
    rcases hkind' with rfl | rfl
    · exact absurd hkind (by decide)
    · exact absurd hkind (by decide)

/-- What is followed by movements in front of the other ending is so in front of the one. -/
theorem begins {G : Recognizer Node} (hG : Retraces G)
    (hcondition : ∀ {kind value mid text node rest},
      Next ⟨[.base], lineBlanks⟩ kind value mid text → kind ≠ .leftBracket → kind ≠ .identifier →
      G text node rest → ∃ item, Recognizer.condition lineBlanks text item rest)
    (hquiet : Quiet (t ++ r') → ∀ node rest, G (t ++ r') node rest →
      ¬ (shifts lineBlanks).Begins rest) (h : Continues r r' t) (hnode : G (t ++ r') node rest)
    (hbegins : (shifts lineBlanks).Begins rest) :
    ∃ t', G (t ++ r) node (t' ++ r) ∧ (shifts lineBlanks).Begins (t' ++ r) := by
  -- Where no transition follows, what is next begins no movements, or is a symbol that they do not
  -- follow.
  cases h with
  | stop hstop => exact absurd hbegins (hquiet hstop _ _ hnode)
  | line hnext =>
    have hnext' := hseam (by decide) .body (by decide) hnext
    obtain ⟨item, hitem⟩ := hcondition hnext' (by decide) (by decide) hnode
    exact absurd ⟨item, _, hitem⟩ (not_condition hnext' (.inl rfl))
  | @mark _ _ kind hkind hnext hmore =>
    have hkind' : kind.isSolid = true ∧ kind ≠ .leftBracket ∧ kind ≠ .identifier := by
      rcases hkind with rfl | rfl <;> decide
    have hnext' := hseam (by decide) .body (ne_of_isSolid hkind'.1 (by decide)) hnext
    obtain ⟨item, hitem⟩ := hcondition hnext' hkind'.2.1 hkind'.2.2 hnode
    obtain rfl := end_of_condition .body hnext' hkind'.1 hitem
    exact absurd hbegins hmore
  | keyword hkind hnext =>
    have hkinds : ∀ kind ∈ keywords.map Prod.snd, kind ≠ .endOfInput ∧ kind ≠ .leftBracket ∧
        kind ≠ .identifier := by
      decide
    obtain ⟨hend, hbracket, hname⟩ := hkinds _ hkind
    have hnext' := hseam (by decide) .body hend hnext
    obtain ⟨item, hitem⟩ := hcondition hnext' hbracket hname hnode
    exact absurd ⟨item, _, hitem⟩ (not_condition hnext' (.inr hkind))
  | transition h =>
    obtain ⟨first, a, z, hnext, hpath, -⟩ := exists_of_transition hseam h
    have hpath' := (Walk.word .line hnext (by decide) (by decide)).path hseam hpath
    obtain ⟨t₁, rfl, hpath₁, hnode'⟩ := hG _ _ _ _ _ _ hpath'.symm hnode
    obtain ⟨moves, _, hmoves⟩ := hbegins
    obtain ⟨t₂, rfl, -, hmoves'⟩ := Retraces.shifts _ _ _ _ _ _ hpath₁ hmoves
    exact ⟨t₁, hnode', moves, _, hmoves'⟩

/-- A symbol that is followed by movements in front of the other ending is so in front of the
one. -/
theorem condition (h : Continues r r' t) (hnode : condition lineBlanks (t ++ r') node rest)
    (hbegins : (shifts lineBlanks).Begins rest) :
    ∃ t', Recognizer.condition lineBlanks (t ++ r) node (t' ++ r) ∧
      (shifts lineBlanks).Begins (t' ++ r) :=
  h.begins hseam (Retraces.condition Settings.OfLine.line.symbols) (fun _ _ _ hnode => ⟨_, hnode⟩)
    Quiet.condition hnode hbegins

/-- Symbols that are followed by movements in front of the other ending are so in front of the
one. -/
theorem symbols (h : Continues r r' t) (hnode : symbols lineBlanks (t ++ r') node rest)
    (hbegins : (shifts lineBlanks).Begins rest) :
    ∃ t', Recognizer.symbols lineBlanks (t ++ r) node (t' ++ r) ∧
      (shifts lineBlanks).Begins (t' ++ r) :=
  h.begins hseam Retraces.symbols condition_of_symbols Quiet.symbols hnode hbegins

/-- Symbols behind the word for them that are in front of the other ending are in front of the
one. -/
theorem push (h : Continues r r' t)
    (hname : Next ⟨[.base], lineBlanks⟩ .identifier value mid (t ++ r'))
    (hvalue : .ofList value = "push") (hlist : Recognizer.symbols lineBlanks mid node rest) :
    ∃ rest', symbolsAfter lineBlanks "push" (t ++ r) (some node.items) rest' := by
  -- The word is a name, so what goes on here begins with none of the other tokens.
  cases h with
  | stop hquiet => exact absurd hvalue (hquiet.push _ _ hname)
  | line hnext =>
    exact absurd ((hseam (by decide) .body (by decide) hnext).unique .body (by decide) hname).1
      (by decide)
  | mark hkind hnext =>
    rcases hkind with rfl | rfl
    · exact absurd ((hseam (by decide) .body (by decide) hnext).unique .body (by decide) hname).1
        (by decide)
    · exact absurd ((hseam (by decide) .body (by decide) hnext).unique .body (by decide) hname).1
        (by decide)
  | keyword hkind hnext =>
    have hkinds : ∀ kind ∈ keywords.map Prod.snd, kind ≠ .endOfInput ∧ kind ≠ .identifier := by
      decide
    exact absurd ((hseam (by decide) .body (hkinds _ hkind).1 hnext).unique .body (by decide)
      hname).1 (hkinds _ hkind).2
  | transition h =>
    obtain ⟨first, a, z, hnext, hpath, -⟩ := exists_of_transition hseam h
    obtain ⟨-, rfl, rfl⟩ :=
      (hseam (by decide) .body (by decide) hnext).unique .body (by decide) hname
    obtain ⟨_, rfl, -, hlist'⟩ := Retraces.symbols _ _ _ _ _ _ hpath.symm hlist
    exact ⟨_, symbolsAfter_iff.2 (.inl ⟨_, _, _, hnext, hvalue, hlist', rfl⟩)⟩

end

end Continues

/-! ## Transitions -/

section

variable (hseam : Seam r r')
include hseam

/-- Where symbols for the stacks stand behind their word, symbols that are followed by movements in
front of the other ending are so in front of the one. -/
theorem symbols_of_push {a : List Char} {list : Node}
    (hname : Next ⟨[.base], lineBlanks⟩ .identifier value (a ++ r) (t ++ r))
    (hpush : symbols lineBlanks (a ++ r) list (t' ++ r)) (hend : Continues r r' t')
    (h : symbols lineBlanks (t ++ r') node rest) (hbegins : (shifts lineBlanks).Begins rest) :
    ∃ node' rest', symbols lineBlanks (t ++ r) node' rest' ∧ (shifts lineBlanks).Begins rest' := by
  have hname' := hseam (by decide) .body (by decide) hname
  have halike := hseam.alike_of_word .line hname (by decide)
  have halike' := (Carries.symbols hseam _ _ _ hpush (hend.avoidsColon hseam)).1
  obtain ⟨item, hitem | ⟨-, hitem⟩, -⟩ := tapeSymbol_of_symbols hname' (by decide) h
  · -- The word names a tape; then the symbols behind it are a colon, and the value is what follows
    -- the statement.
    obtain ⟨tape, _, colon, _, value', htape, hcolon, hvalue, -⟩ := qualified_iff.1 hitem
    obtain ⟨-, rfl, rfl⟩ := hname'.unique .body (by decide) htape
    obtain ⟨b, rfl, -, hcolon'⟩ := halike'.symm.next .line hcolon
    obtain rfl :=
      List.append_cancel_right (end_of_symbols hcolon' (by decide) (by decide) (by decide) hpush)
    obtain ⟨t₁, hvalue', hbegins'⟩ := hend.condition hseam hvalue hbegins
    have htapeSymbol : tapeSymbol lineBlanks (t ++ r) _ (t₁ ++ r) :=
      .inl (qualified_iff.2 ⟨_, _, _, _, _, hname, hcolon', hvalue', rfl⟩)
    exact ⟨_, _, symbols_of_tapeSymbol hname (by decide) htapeSymbol, hbegins'⟩
  · -- The word is a symbol; then the movements stand where the symbols for the stacks do.
    obtain rfl := end_of_condition .body hname' (by decide) hitem
    obtain ⟨moves, _, hmoves⟩ := hbegins
    obtain ⟨rfl, hmoves'⟩ := shifts_of_symbols hseam hpush (hend.avoidsColon hseam) hmoves
    obtain ⟨⟨kind', value'⟩, _, ⟨hkind', hsymbol⟩, hnode, rfl⟩ := hitem
    obtain ⟨_, htext, -, hsymbol'⟩ := halike.symm.next Settings.OfLine.line.symbols hsymbol
    obtain rfl := List.append_cancel_right htext
    have htapeSymbol : tapeSymbol lineBlanks (t ++ r) item (a ++ r) := by
      refine .inr ⟨?_, (kind', value'), _, ⟨hkind', hsymbol'⟩, hnode, rfl⟩
      rintro ⟨_, _, hqualified⟩
      obtain ⟨_, _, _, _, _, htape, hcolon, -⟩ := qualified_iff.1 hqualified
      obtain ⟨-, -, rfl⟩ := hname.unique .body (by decide) htape
      exact absurd (kind_of_shifts hcolon ⟨moves, _, hmoves'⟩) (by decide)
    exact ⟨_, _, symbols_of_tapeSymbol hname (by decide) htapeSymbol, moves, _, hmoves'⟩

/-- Behind an edge that is no transition of a Turing machine in front of the one ending, there is
none in front of the other one. -/
theorem not_turing {β : Type} {G : Recognizer β} {source target : Identifier} {b : β}
    (hG : Leads r G) (hshort : G.Shortens) (hedge : edge G (t ++ r) (source, b, target) (t' ++ r))
    (htail : ∀ {node rest}, symbols lineBlanks (t' ++ r') node rest →
      (shifts lineBlanks).Begins rest →
      ∃ node' rest', symbols lineBlanks (t' ++ r) node' rest' ∧ (shifts lineBlanks).Begins rest')
    (h : ¬ (turingTransition lineBlanks).Begins (t ++ r)) :
    ¬ (turingTransition lineBlanks).Begins (t ++ r') := by
  rintro ⟨_, _, hturing⟩
  obtain ⟨_, _, _, _, _, _, moves, hedge', hwrite, hmoves, -⟩ := turingTransition_iff.1 hturing
  obtain ⟨rfl, -, -, hedge''⟩ := edge_retraces hseam hG hshort Retraces.symbols hedge hedge'
  obtain ⟨_, _, hwrite', moves', _, hmoves'⟩ := htail hwrite ⟨moves, _, hmoves⟩
  exact h ⟨_, _, turingTransition_iff.2 ⟨_, _, _, _, _, _, _, hedge'', hwrite', hmoves', rfl⟩⟩

/-- An edge that reads a symbol is one in front of the other ending. -/
theorem edge_condition_carries {e : Identifier × Node × Identifier}
    (h : edge (condition lineBlanks) (t ++ r) e (t' ++ r)) :
    edge (condition lineBlanks) (t ++ r') e (t' ++ r') := by
  have hread : Carries r r' (Alike r r') (condition lineBlanks) (Sees r r' lineBlanks [.arrow]) :=
    (Carries.condition hseam Settings.OfLine.line.symbols).mono (fun _ ht => ht) fun _ _ => trivial
  exact (Carries.edge hseam (Shortens.condition _) hread _ _ _ h trivial).2

/-- An edge that reads what a pushdown automaton does is one in front of the other ending. -/
theorem edge_readAndPop_carries {e : Identifier × (Node × Option (List Node)) × Identifier}
    (h : edge readAndPop (t ++ r) e (t' ++ r)) : edge readAndPop (t ++ r') e (t' ++ r') :=
  (Carries.edge hseam Shortens.readAndPop (Carries.readAndPop hseam) _ _ _ h trivial).2

/-- A transition of a pushdown automaton is one in front of the other ending, and there none of a
Turing machine if it is none in front of the one. -/
theorem pushdownTransition_carries (h : pushdownTransition lineBlanks (t ++ r) node (t' ++ r))
    (hend : Continues r r' t') (hturing : ¬ (turingTransition lineBlanks).Begins (t ++ r)) :
    pushdownTransition lineBlanks (t ++ r') node (t' ++ r') ∧
      ¬ (turingTransition lineBlanks).Begins (t ++ r') := by
  obtain ⟨source, symbol, pop, target, mid, push, hedge, hpush, hsome, rfl⟩ :=
    pushdownTransition_iff.1 h
  obtain ⟨a, rfl⟩ := exists_between (Shortens.symbolsAfter _ _ _ _ _ hpush)
  constructor
  · obtain ⟨-, hpush'⟩ :=
      Carries.symbolsAfter hseam "push" _ _ _ hpush ⟨hend.avoidsColon hseam, hend.sameWord hseam⟩
    exact pushdownTransition_iff.2
      ⟨source, symbol, pop, target, _, push, edge_readAndPop_carries hseam hedge,
        hpush', hsome, rfl⟩
  · refine not_turing hseam Leads.readAndPop Shortens.readAndPop hedge (fun hwrite hmoves => ?_)
      hturing
    -- With a push part, the symbols behind it would be what is written; without one, they follow
    -- the transition.
    rcases symbolsAfter_iff.1 hpush with ⟨value, mid, list, hname, -, hlist, -⟩ |
      ⟨_, _, _, -, -, -, htext⟩
    · obtain ⟨b, rfl⟩ := exists_between (Shortens.symbols _ _ _ _ hlist)
      exact symbols_of_push hseam hname hlist hend hwrite hmoves
    · obtain rfl := List.append_cancel_right htext
      obtain ⟨t₁, hwrite', hmoves'⟩ := hend.symbols hseam hwrite hmoves
      exact ⟨_, _, hwrite', hmoves'⟩

/-- A transition of a finite automaton is none of a pushdown automaton in front of the other ending
if it is none in front of the one. -/
theorem not_pushdown_of_finite (h : finiteTransition lineBlanks (t ++ r) node (t' ++ r))
    (hend : Continues r r' t') (hpushdown : ¬ (pushdownTransition lineBlanks).Begins (t ++ r)) :
    ¬ (pushdownTransition lineBlanks).Begins (t ++ r') := by
  obtain ⟨source, symbol, target, hedge, rfl⟩ := finiteTransition_iff.1 h
  rintro ⟨_, _, hpushdown'⟩
  obtain ⟨_, symbol', pop, _, _, push, hedge', hpush, hsome, -⟩ :=
    pushdownTransition_iff.1 hpushdown'
  obtain ⟨rfl, -, -, hedge''⟩ :=
    edge_retraces hseam (Leads.condition Settings.OfLine.line.symbols) (Shortens.condition _)
      Retraces.readAndPop hedge hedge'
  obtain rfl := pop_eq_none hedge hedge''
  -- So symbols for the stacks would follow, which they would have done in front of the one ending.
  rcases symbolsAfter_iff.1 hpush with ⟨value, mid, list, hname, hvalue, hlist, rfl⟩ |
    ⟨_, _, _, -, -, rfl, -⟩
  · obtain ⟨rest', hpush'⟩ := hend.push hseam hname hvalue hlist
    exact hpushdown ⟨_, _, pushdownTransition_iff.2 ⟨_, _, _, _, _, _, hedge'', hpush', rfl, rfl⟩⟩
  · exact absurd hsome (by decide)

/-- A transition of a finite automaton is one in front of the other ending, and there none of a
Turing machine if it is none in front of the one. -/
theorem finiteTransition_carries (h : finiteTransition lineBlanks (t ++ r) node (t' ++ r))
    (hend : Continues r r' t') (hturing : ¬ (turingTransition lineBlanks).Begins (t ++ r)) :
    finiteTransition lineBlanks (t ++ r') node (t' ++ r') ∧
      ¬ (turingTransition lineBlanks).Begins (t ++ r') := by
  obtain ⟨source, symbol, target, hedge, rfl⟩ := finiteTransition_iff.1 h
  have hleads : Leads r (condition lineBlanks) := Leads.condition Settings.OfLine.line.symbols
  constructor
  · exact finiteTransition_iff.2 ⟨source, symbol, target, edge_condition_carries hseam hedge, rfl⟩
  · refine not_turing hseam hleads (Shortens.condition _) hedge (fun hwrite hmoves => ?_) hturing
    obtain ⟨t₁, hwrite', hmoves'⟩ := hend.symbols hseam hwrite hmoves
    exact ⟨_, _, hwrite', hmoves'⟩

end

end MachineLang
