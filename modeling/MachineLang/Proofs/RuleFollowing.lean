import MachineLang.Proofs.Depths
import MachineLang.Proofs.Together

/-!
# Rules side by side

The rule of a name is followed by itself in the other source of a splice (`RuleFollows`), with calls
that may be deeper there. What is asked for behind a rule is what decides how far it reads: nothing
behind a name, no colon behind a symbol for a tape. Deeper calls may be allowed in the one source as
well (`RuleFollows.lift`), since a rule that succeeds does the same then.
-/

namespace MachineLang

open MachineLang.Parser

variable {J : Splice} {settings : Settings} {P P' : List Char → Prop}
  {Q Q' : Node → List Char → Prop} {d d' e : Nat} {name : String} {kinds ignored : List TokenKind}

/-- The rule of a name is followed by itself, with calls of given depths. -/
def RuleFollows (J : Splice) (settings : Settings) (d d' : Nat) (name : String)
    (P : List Char → Prop) (Q : Node → List Char → Prop) : Prop :=
  ∀ start start', J.view start = J.view' start' → Follows J settings P (J.Same Node.relocated) Q
    (RuleTable.standard.callFrom d name start) (RuleTable.standard.callFrom d' name start')

/-- Every rule goes on in the source. -/
theorem RuleTable.gives_callFrom {s : TokenStream} (hs : Reliable s) (depth : Nat) (name : String)
    (start : Location) :
    (standard.callFrom depth name start).Gives s fun _ => True :=
  (gives_callFrom_shape hs depth name start).imp fun _ _ => trivial

/-- A rule that succeeds does the same with deeper calls. -/
theorem RuleTable.callFrom_of_ok {s t : TokenStream} {node : Node} {start : Location}
    (hle : d ≤ e) (h : standard.callFrom d name start s = (.ok node, t)) :
    standard.callFrom e name start s = (.ok node, t) := by
  rcases refines_callFrom standard hle name start s with ⟨_, _, herror, -⟩ | hsame
  · cases h.symm.trans herror
  · rw [← hsame, h]

namespace RuleFollows

/-- Less may be said of the text, and more asked of the text behind. -/
theorem mono (h : RuleFollows J settings d d' name P Q) (hP : ∀ t, P t → P' t)
    (hQ : ∀ node t, Q' node t → Q node t) : RuleFollows J settings d d' name P' Q' :=
  fun start start' hstart => (h start start' hstart).mono hP (fun _ _ => id) hQ

/-- In the one source calls may be less deep. -/
theorem lift (h : RuleFollows J settings e d' name P Q) (hle : d ≤ e) :
    RuleFollows J settings d d' name P Q :=
  fun start start' hstart =>
    (h start start' hstart).of_ok (fun hs => RuleTable.gives_callFrom hs _ _ _)
    (fun _ _ _ _ _ => RuleTable.callFrom_of_ok hle) fun _ _ _ _ _ => id

/-- Without calls nothing is read, so there is no success to be matched. -/
theorem zero : RuleFollows J settings 0 d' name P Q := by
  intro start start' _
  unfold RuleTable.callFrom
  split
  · exact Follows.throw _
  · exact Follows.endless

/-- A rule does what its parser does. -/
theorem of_find (rule : Combinator) (hfind : RuleTable.standard.find? name = some rule)
    (h : ∀ start start', J.view start = J.view' start' →
      Follows J settings P (J.Same Node.relocated) Q (rule.read .standard d start)
      (rule.read .standard d' start')) : RuleFollows J settings d d' name P Q := by
  intro start start' hstart
  unfold RuleTable.callFrom
  rw [hfind]
  exact h start start' hstart

/-- From the next token on a rule is followed by itself, if that lies inside the text. -/
theorem call (h : RuleFollows J settings d d' name P Q) (hinner : settings.Inner)
    (hP : ∀ t, P t → Stands J settings t) :
    Follows J settings P (J.Same Node.relocated) Q (RuleTable.standard.call d name)
      (RuleTable.standard.call d' name) :=
  (Follows.location hinner hP).bind fun start start' hstart => h start start' hstart

end RuleFollows

/-! ## Single tokens -/

namespace Follows

/-- Tokens that look the same are of the same kind, and are written in the same way. -/
theorem same_token {token token' : Token} (h : J.Same Token.relocated token token') :
    token'.kind = token.kind ∧ token'.value = token.value ∧
      J.Same Span.relocated token.span token'.span :=
  ⟨(congrArg Token.kind h).symm, (congrArg Token.value h).symm, congrArg Token.span h⟩

/-- The name that a token gives to a non-terminal. -/
theorem nonTerminalName {token token' : Token} (h : J.Same Token.relocated token token')
    (P : List Char → Prop) :
    Follows J settings P (J.Same Identifier.relocated) (fun _ => P) (Parser.nonTerminalName token)
      (Parser.nonTerminalName token') := by
  obtain ⟨hkind, hvalue, hspan⟩ := same_token h
  unfold Parser.nonTerminalName
  rw [hkind, hvalue]
  have hname : ∀ name : String, J.Same Identifier.relocated ⟨name, token.span⟩
      ⟨name, token'.span⟩ :=
    fun name => congrArg (Identifier.mk name) hspan
  split
  · exact pure (Q := fun _ => P) (hname _)
  · exact throw _
  · exact pure (Q := fun _ => P) (hname _)

section

variable (hinner : settings.Inner)
include hinner

/-- A name is a single token, of one kind. -/
theorem identifier :
    Follows J settings (Starts J settings [.identifier]) (J.Same Identifier.relocated)
    (fun _ _ => True) Parser.identifier Parser.identifier := by
  refine (expect hinner (by decide)).bind fun token token' h => pure (Q := fun _ _ => True) ?_
  obtain ⟨-, hvalue, hspan⟩ := same_token h.1
  show Identifier.relocated _ _ = Identifier.relocated _ _
  unfold Identifier.relocated
  rw [hvalue, show token.span.relocated _ = _ from hspan]

/-- A symbol written as a character. -/
theorem character :
    Follows J settings (Starts J settings [.character, .quotedCharacter, .namedCharacter])
    (J.Same Node.relocated) (fun _ _ => True) Parser.character Parser.character := by
  refine (expect hinner (by decide)).bind fun token token' h => ?_
  obtain ⟨hkind, hvalue, hspan⟩ := same_token h.1
  -- The value of a token is the same in both sources; only its span is moved.
  have hcharacter : ∀ value : String, J.Same Node.relocated (.character value token.span)
      (.character value token'.span) :=
    fun value => congrArg (Node.character value) hspan
  unfold literalValue
  rw [hkind, hvalue]
  split
  · exact pure (Q := fun _ _ => True) (hcharacter _)
  · split
    · exact pure (Q := fun _ _ => True) (hcharacter _)
    · exact throw _
  · exact pure (Q := fun _ _ => True) (hcharacter _)

/-- A string is a single token; one that is not terminated fails in both sources. -/
theorem string :
    Follows J settings (Starts J settings [.string, .unterminatedString]) (J.Same Node.relocated)
    (fun _ _ => True) Parser.string Parser.string := by
  refine (expect hinner (by decide)).bind fun token token' h => ?_
  obtain ⟨hkind, hvalue, hspan⟩ := same_token h.1
  unfold literalValue
  rw [hkind, hvalue]
  split_ifs
  · exact (throw (R := fun _ _ => False) (Q := fun _ _ => True) _).bind fun _ _ h => h.elim
  · exact pure (Q := fun _ _ => True) (congrArg (Node.string _) hspan)

/-- A reference to a non-terminal is a single token; one that is not closed fails in both
sources. -/
theorem nonTerminal :
    Follows J settings (Starts J settings [.nonTerminal, .unclosedNonTerminal])
      (J.Same Node.relocated)
    (fun _ _ => True) Parser.nonTerminal Parser.nonTerminal := by
  refine (expect hinner (by decide)).bind fun token token' h => ?_
  refine (nonTerminalName h.1 fun _ => True).bind fun id id' hid => pure (Q := fun _ _ => True) ?_
  obtain ⟨hname, hspan⟩ := Identifier.mk.inj hid
  show Node.relocated _ _ = Node.relocated _ _
  rw [Node.relocated, Node.relocated, hname, hspan]

/-- A movement of a head is a single token, whose text says which one it is. -/
theorem shift :
    Follows J settings (Starts J settings [.shiftLeft, .shiftRight, .noShift])
      (J.Same Node.relocated)
    (fun _ _ => True) Parser.shift Parser.shift := by
  refine (expect hinner (by decide)).bind fun token token' h => ?_
  obtain ⟨-, hvalue, hspan⟩ := same_token h.1
  rw [hvalue]
  split
  · exact pure (Q := fun _ _ => True) (congrArg (Node.shift _) hspan)
  · exact throw _

end

end Follows

/-! ## Choices -/

namespace RuleFollows

/-- The leaves for single tokens, by the names of their rules. -/
theorem leaf_token {rule : String} (hrule : rule ∈ ["character", "string", "identifier"])
    (hinner : settings.Inner) (hle : d ≤ d') :
    RuleFollows J settings d d' rule (Starts J settings (Recognizer.symbolKinds rule))
      fun _ _ => True := by
  cases d with
  | zero => exact zero
  | succ d =>
    obtain ⟨d', rfl⟩ := Nat.exists_eq_add_one_of_ne_zero (by omega : d' ≠ 0)
    simp only [List.mem_cons, List.not_mem_nil, or_false] at hrule
    rcases hrule with rfl | rfl | rfl
    · exact of_find (.leaf .character) rfl fun _ _ _ => Follows.character hinner
    · exact of_find (.leaf .string) rfl fun _ _ _ => Follows.string hinner
    · exact of_find (.leaf .identifier) rfl fun _ _ _ =>
        (Follows.identifier hinner).map fun id id' hid => congrArg Node.identifier hid

/-- A choice by the next token goes on with a branch, or with another rule. The token stands in the
text that both sources share, so the choice is the same in both. -/
theorem choose (mode : Option LexMode) (branches : List Branch) (fallback : Option String)
    {B : Branch → List Char → Prop}
    (hfind : RuleTable.standard.find? name = some (.choose mode branches fallback))
    (hinner : settings.Inner)
    (hbranch : ∀ b ∈ branches, RuleFollows J (Follows.inMode settings mode) d d' b.rule (B b) Q)
    (hB : ∀ b ∈ branches, ∀ t, B b t → Stands J (Follows.inMode settings mode) t)
    (hfallback : ∀ other ∈ fallback, RuleFollows J settings d d' other P Q)
    (hP : ∀ t, P t → Stands J (Follows.inMode settings mode) t) :
    RuleFollows J settings (d + 1) (d' + 1) name
      (fun t => Starts J (Follows.inMode settings mode) (branches.map Branch.kind) t ∨
        fallback.isSome ∧ P t) Q := by
  refine of_find _ hfind fun start start' hstart => ?_
  -- Where no branch is chosen, what is asked for in front of the other rule holds.
  have htoken : Follows J settings
      (fun t => Starts J (Follows.inMode settings mode) (branches.map Branch.kind) t ∨
        fallback.isSome ∧ P t)
      (J.Same Token.relocated) (fun token t => Stands J (Follows.inMode settings mode) t ∧
        (branches.find? (fun b => b.kind == token.kind) = none → fallback.isSome ∧ P t))
      (choiceToken mode (branches.map Branch.kind))
        (choiceToken mode (branches.map Branch.kind)) := by
    refine Follows.choiceToken hinner (fun token t hstarts h => ?_) (fun _ _ h => h.1) _
    cases hfound : branches.find? fun b => b.kind == token.kind with
    | none => exact .inr (h.2 hfound)
    | some b =>
      have hkind : b.kind = token.kind := by simpa using List.find?_some hfound
      have hmem : token.kind ∈ branches.map Branch.kind :=
        List.mem_map.2 ⟨b, List.mem_of_find?_eq_some hfound, hkind⟩
      exact .inl (hstarts.mono (List.cons_subset.2 ⟨hmem, List.nil_subset _⟩))
  refine htoken.bind fun token token' hsame => ?_
  obtain ⟨hkind, -, -⟩ := Follows.same_token hsame
  have hlocation : J.view token.location = J.view' token'.location := congrArg Token.location hsame
  rw [hkind]
  dsimp only
  cases hfound : branches.find? fun b => b.kind == token.kind with
  | some b =>
    have hmem := List.mem_of_find?_eq_some hfound
    have hmode : (Follows.inMode settings mode).Inner := by
      cases mode with
      | none => exact hinner
      | some mode => exact hinner.push mode
    have hread := hbranch b hmem token.location token'.location hlocation
    refine (Follows.withMode? hinner.ordinary ?_).weaken
      (fun t ht => (⟨ht, fun h => by cases h⟩ : Stands J (Follows.inMode settings mode) t ∧ _))
    split_ifs
    · exact (Follows.next hmode).bind fun _ _ _ => hread.weaken fun t ht => (hB b hmem t ht).ne_nil
    · exact hread.weaken (hB b hmem)
  | none =>
    cases fallback with
    | none => exact Follows.throw _
    | some other =>
      exact (hfallback other rfl _ _ hlocation).weaken fun t h => ⟨hP t h, fun _ => ⟨rfl, h⟩⟩

/-! ## Lists -/

/-- A list of elements in brackets, with line ends between them, or a single one without
brackets. -/
theorem listOf {element : String} {B E : List TokenKind → List Char → Prop}
    (hfind : RuleTable.standard.find? name = some
      (.list element (some (.leftBracket, .rightBracket)) .comma))
    (helement : ∀ ignored, Settings.OfLine ⟨[.base], ignored⟩ →
      RuleFollows J ⟨[.base], ignored⟩ d d' element (B ignored) fun _ => E ignored)
    (hB : ∀ ignored, Settings.OfLine ⟨[.base], ignored⟩ → ∀ t, B ignored t → Alike J.rest J.rest' t)
    (hE : ∀ ignored, Settings.OfLine ⟨[.base], ignored⟩ → ∀ t,
      Starts J ⟨[.base], ignored⟩ [.comma, .rightBracket] t → E ignored t) :
    RuleFollows J ⟨[.base], lineBlanks⟩ (d + 1) (d' + 1) name
      (fun t => Starts J ⟨[.base], .newline :: lineBlanks⟩ [.leftBracket] t ∨ B lineBlanks t)
      fun _ => E lineBlanks := by
  refine of_find _ hfind fun start start' hstart => ?_
  have hline := Settings.Inner.of_ofLine .line
  -- The next token tells whether there are brackets, and is cut alike in both sources.
  have hcheck : Follows J ⟨[.base], lineBlanks⟩
      (fun t => Starts J ⟨[.base], .newline :: lineBlanks⟩ [.leftBracket] t ∨ B lineBlanks t) Eq
      (fun found t => if found = true then Starts J ⟨[.base], .newline :: lineBlanks⟩ [.leftBracket]
        t else B lineBlanks t)
      (Parser.check .leftBracket) (Parser.check .leftBracket) := by
    refine Follows.check hline _ fun found t h => ?_
    cases found with
    | true => exact ⟨.inl h, (h.alike .brackets (by decide)).stands .line⟩
    | false => exact ⟨.inr h, (hB _ .line t h).stands .line⟩
  refine hcheck.bind fun opened opened' hopened => ?_
  subst hopened
  cases opened with
  | true =>
    have hitem :=
      (helement _ .brackets).call hline.brackets fun t ht => (hB _ .brackets t ht).stands .brackets
    exact (Follows.bracketed hline (by decide) (by decide) (by decide) hitem
      (fun t ht => (hB _ .brackets t ht).stands .brackets) (hE _ .brackets) hstart).strengthen
        fun _ _ _ => trivial
  | false =>
    refine (helement _ .line start start' hstart).bind fun node node' hnode =>
      Follows.pure (Q := fun _ => E lineBlanks) ?_
    -- Without brackets, the list takes the place of its only element.
    have hspan : node.span.relocated J.view = node'.span.relocated J.view' := by
      rw [← Node.span_relocated, ← Node.span_relocated, show node.relocated J.view = _ from hnode]
    show Node.relocated _ _ = Node.relocated _ _
    rw [Node.relocated, Node.relocated, Node.relocatedList_eq_map, Node.relocatedList_eq_map,
      List.map_singleton, List.map_singleton, show node.relocated J.view = _ from hnode, hspan]

/-! ## Alternatives -/

/-- Two alternatives: where the first one fails and the second one succeeds, the first one fails in
the other source. -/
theorem alternative_pair {first second : String} {G G' : Recognizer Node} {n : Nat}
    (hfind : RuleTable.standard.find? name = some (.alternative [first, second]))
    (h : RuleFollows J settings d d first P Q) (h' : RuleFollows J settings d d second P Q)
    (hd : n ≤ d) (hG : RuleRecognizes n settings first G)
    (hG' : RuleRecognizes n settings second G') (hblanks : G.PassesBlanks)
    (hcarry : ∀ {t node t₁}, G' (t ++ J.rest) node.bare (t₁ ++ J.rest) → Q node t₁ →
      ¬ G.Begins (t ++ J.rest')) :
    RuleFollows J settings (d + 1) (d + 1) name P Q := by
  refine of_find _ hfind fun start start' hstart => ?_
  refine Follows.oneOf_cons (h start start' hstart) (fun e e' => ?_) (hG d hd start)
    (hG d hd start') (fun e => (hG' d hd start).oneOf_singleton) hblanks
    (fun hs => RuleTable.gives_callFrom hs _ _ _) (fun _ hnode hQ => hcarry hnode hQ)
    (.invalid .noAlternatives (.point start)) (.invalid .noAlternatives (.point start'))
  exact (h' start start' hstart).oneOf_singleton (fun hs => RuleTable.gives_callFrom hs _ _ _) e e'

/-- Three alternatives: where one fails and a later one succeeds, the one fails in the other
source. -/
theorem alternative_triple {first second third : String} {G G' G'' : Recognizer Node} {n : Nat}
    (hfind : RuleTable.standard.find? name = some (.alternative [first, second, third]))
    (h : RuleFollows J settings d d first P Q) (h' : RuleFollows J settings d d second P Q)
    (h'' : RuleFollows J settings d d third P Q) (hd : n ≤ d)
    (hG : RuleRecognizes n settings first G) (hG' : RuleRecognizes n settings second G')
    (hG'' : RuleRecognizes n settings third G'') (hblanks : G.PassesBlanks)
    (hblanks' : G'.PassesBlanks)
    (hcarry : ∀ {t node t₁}, ¬ G.Begins (t ++ J.rest) →
      (G'.orElse G'') (t ++ J.rest) node.bare (t₁ ++ J.rest) → Q node t₁ →
      ¬ G.Begins (t ++ J.rest'))
    (hcarry' : ∀ {t node t₁}, ¬ G'.Begins (t ++ J.rest) →
      G'' (t ++ J.rest) node.bare (t₁ ++ J.rest) → Q node t₁ → ¬ G'.Begins (t ++ J.rest')) :
    RuleFollows J settings (d + 1) (d + 1) name P Q := by
  refine of_find _ hfind fun start start' hstart => ?_
  -- What is behind the first alternative is a choice of two, and then of one; each is recognized by
  -- itself.
  have hlast : ∀ e, Recognizes settings (Parser.oneOf e [RuleTable.standard.callFrom d third start])
      Node.bare G'' :=
    fun e => (hG'' d hd start).oneOf_singleton
  refine Follows.oneOf_cons (h start start' hstart) (fun e e' => ?_) (hG d hd start)
    (hG d hd start') (fun e => (hG' d hd start).oneOf_cons hlast) hblanks
    (fun hs => RuleTable.gives_callFrom hs _ _ _) (fun hnone hnode hQ => hcarry hnone hnode hQ)
    (.invalid .noAlternatives (.point start)) (.invalid .noAlternatives (.point start'))
  refine Follows.oneOf_cons (h' start start' hstart) (fun e e' => ?_) (hG' d hd start)
    (hG' d hd start') hlast hblanks' (fun hs => RuleTable.gives_callFrom hs _ _ _)
    (fun hnone hnode hQ => hcarry' hnone hnode hQ) e e'
  exact (h'' start start' hstart).oneOf_singleton (fun hs => RuleTable.gives_callFrom hs _ _ _) e e'

end RuleFollows

end MachineLang
