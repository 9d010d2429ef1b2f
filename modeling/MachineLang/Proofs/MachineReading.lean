import MachineLang.Proofs.TransitionRules

/-!
# What is read of machines

A body is read line by line: what separates two statements is skipped in front of the second one, so
the induction over the lines begins in front of the end of a line (`reads_lines`). Around the body
stand the keyword, the name and the names of stacks or tapes, and the machine is a program. All of
it is read as it is written, but for the transitions that only say that they push nothing
(`parseProgram_text`).
-/

namespace MachineLang

open Written

variable {ignored : List TokenKind} {settings : Settings} {kind : TokenKind}
  {value text rest mid : List Char}

/-! ## Statements -/

/-- Whether the next token separates statements. -/
theorem Reads.separator (hnext : Next settings kind value rest text) :
    Reads settings (do if ← Parser.check .newline then return true else Parser.check .semicolon)
      text (· = (kind == .newline || kind == .semicolon)) text := by
  refine (Reads.check hnext .newline).bind ?_
  rintro _ rfl
  cases hnewline : kind == .newline with
  | true => exact Reads.pure rfl
  | false => exact Reads.check hnext .semicolon

/-- Nothing is skipped in front of a statement. -/
theorem Reads.skipSeparatorsWithin_none {steps : Nat} (hnext : Next settings kind value rest text)
    (hother : (kind == .newline || kind == .semicolon) = false) :
    Reads settings (Parser.skipSeparatorsWithin (steps + 1)) text (fun _ => True) text := by
  refine (Reads.separator hnext).bind ?_
  rintro _ rfl
  rw [hother, if_neg Bool.false_ne_true]
  exact Reads.pure trivial

/-- The end of a line is skipped. -/
theorem Reads.skipSeparatorsWithin_newline {steps : Nat}
    (hnext : Next settings .newline value mid text)
    (h : Reads settings (Parser.skipSeparatorsWithin steps) mid (fun _ => True) rest) :
    Reads settings (Parser.skipSeparatorsWithin (steps + 1)) text (fun _ => True) rest := by
  refine (Reads.separator hnext).bind ?_
  rintro _ rfl
  exact (Reads.next hnext).bind fun _ _ => h

section Statement

variable {closing : TokenKind} {item : Parser Node} {P : Node → Prop}

/-- A statement is read behind what separates it from the one in front of it. -/
theorem Reads.statement_item
    (hskip : ∀ steps, text.length < steps →
      Reads settings (Parser.skipSeparatorsWithin steps) text (fun _ => True) mid)
    {after : List Char} (hnext : Next settings kind value after mid) (hne : kind ≠ closing)
    (hitem : Reads settings item mid P rest) :
    Reads settings (Parser.statement closing item) text (fun o => ∃ node, o = some node ∧ P node)
      rest := by
  refine Reads.limit.bind fun steps hsteps => ?_
  refine (hskip steps hsteps).bind fun _ _ => ?_
  refine (Reads.check hnext closing).bind ?_
  rintro _ rfl
  rw [beq_eq_false_iff_ne.2 hne, if_neg Bool.false_ne_true]
  exact hitem.bind fun node hnode => Reads.pure ⟨node, rfl, hnode⟩

/-- There are no more statements at the closing token: the separators in front of it are skipped,
and then it is taken, which ends the loop. -/
theorem Reads.statement_closing
    (hskip : ∀ steps, text.length < steps →
      Reads settings (Parser.skipSeparatorsWithin steps) text (fun _ => True) mid)
    (hnext : Next settings closing value rest mid) :
    Reads settings (Parser.statement closing item) text (· = none) rest := by
  refine Reads.limit.bind fun steps hsteps => ?_
  refine (hskip steps hsteps).bind fun _ _ => ?_
  refine (Reads.check hnext closing).bind ?_
  rintro _ rfl
  rw [beq_self_eq_true, if_pos rfl]
  exact (Reads.next hnext).bind fun _ _ => Reads.pure rfl

/-- A repeated parser that gives a value goes on behind it. -/
theorem Reads.collectWithin_some {step : Parser (Option Node)} {steps : Nat} {before : List Node}
    {Q : List Node → Prop}
    (h : Reads settings step text (fun o => ∃ node, o = some node ∧ P node) mid)
    (hmore : ∀ node, P node →
      Reads settings (Parser.collectWithin step steps (node :: before)) mid Q rest) :
    Reads settings (Parser.collectWithin step (steps + 1) before) text Q rest := by
  refine h.bind ?_
  rintro _ ⟨node, rfl, hnode⟩
  exact hmore node hnode

/-- A repeated parser that gives nothing is done. -/
theorem Reads.collectWithin_none {step : Parser (Option Node)} {steps : Nat} {before : List Node}
    {Q : List Node → Prop} (h : Reads settings step text (· = none) rest)
    (hbefore : Q before.reverse) :
    Reads settings (Parser.collectWithin step (steps + 1) before) text Q rest := by
  refine h.bind ?_
  rintro _ rfl
  exact Reads.pure hbefore

end Statement

/-! ## Lines -/

/-- A keyword is the next token. -/
theorem Next.keyword (hskips : SkipsBlanks ignored) (gap : Gap) {word : String}
    (hlookup : keywords.lookup word = some kind) (hrest : Apart rest) :
    Next ⟨[.base], ignored⟩ kind word.toList rest (gap.chars ++ (word.toList ++ rest)) := by
  obtain ⟨c, cs, hword, hfirst, -⟩ := Lexes.exists_of_keyword hlookup
  obtain ⟨hwhitespace, hnewline, hcomment, -⟩ := Lexes.kind_of_keyword hlookup
  have hlex : Lexes [.base] kind word.toList rest :=
    Lexes.of_keyword (fun a ha => (of_endsLexeme (hrest a ha)).1) hlookup
  refine .behind_gap hskips (.inl rfl) gap hlex ?_ ?_
  · exact hskips.contains_eq_false hwhitespace hnewline hcomment
  · rw [hword]
    exact isSpace_eq_false_of_beginsWord hfirst

/-- The names of a list of names, without their places, are the names that were written. What else
stands in the list, a node of another kind, would not be such a name. -/
theorem identifiersOf_eq {node : Node} {names : List Name}
    (h : node.items.map Node.bare = names.map fun name => .identifier name.id) :
    (Parser.identifiersOf node).map Identifier.bare = names.map Name.id := by
  unfold Parser.identifiersOf
  generalize node.items = nodes at h
  -- By induction on the nodes beside the names; a node without its places is a name only if it is
  -- one.
  induction nodes generalizing names with
  | nil =>
    cases names with
    | nil => rfl
    | cons _ _ => exact absurd h.symm (List.cons_ne_nil _ _)
  | cons x nodes ih =>
    cases names with
    | nil => exact absurd h (List.cons_ne_nil _ _)
    | cons name names =>
      obtain ⟨hx, hnodes⟩ := List.cons.inj h
      cases x with
      | identifier id =>
        have hid : id.bare = name.id := Node.identifier.inj hx
        have hsome : Node.identifier? (.identifier id) = some id := rfl
        rw [List.filterMap_cons_some hsome, List.map_cons, List.map_cons, hid, ih hnodes]
      | _ => exact absurd hx (by simp [Node.bare])

/-- Names in brackets are read as they are written. -/
theorem reads_name_list (names : List Name) (hskips : SkipsBlanks ignored) (first gap : Gap) :
    RuleReads 2 ⟨[.base], ignored⟩ "name_list" (first.chars ++ (namesText gap names ++ rest))
      (fun node => (Parser.identifiersOf node).map Identifier.bare = names.map Name.id) rest :=
  ((Name.readsElements gap).list hskips rfl first names).imp fun _ => identifiersOf_eq

/-- A transition begins with the name of a state, and not with a keyword. So the rule for statements
passes it on to the one for transitions. -/
theorem Written.Transition.exists_text_append (t : Written.Transition) (l : Layout)
    (rest : List Char) :
    ∃ (source : Name) (more : List Char), Apart more ∧ t.text l ++ rest = source.text ++ more := by
  cases t with
  | finite source condition target =>
    refine ⟨source, _, ?_, List.append_assoc _ _ _⟩
    rw [List.append_assoc]
    exact Apart.between l
  | pushdown source condition pop target push either =>
    refine ⟨source, _, ?_, List.append_assoc _ _ _⟩
    rw [List.append_assoc]
    exact Apart.between l
  | turing source read target write shift =>
    refine ⟨source, _, ?_, List.append_assoc _ _ _⟩
    rw [List.append_assoc]
    exact Apart.between l

/-- The choice of the initial state, word by word. -/
theorem Written.Line.initial_append (l : Layout) (state : Name) (rest : List Char) :
    (initial l state).statement ++ rest =
      "initial".toList ++ (l.between.chars ++ (state.text ++ rest)) := by
  unfold statement
  rw [List.append_assoc, List.append_assoc]

/-- The choice of the final states, word by word. -/
theorem Written.Line.final_append (l : Layout) (states : List Name) (rest : List Char) :
    (final l states).statement ++ rest =
      "final".toList ++ (l.between.chars ++ (namesText l.inside states ++ rest)) := by
  unfold statement
  rw [List.append_assoc, List.append_assoc]

namespace Written.Line

variable (line : Line) (hskips : SkipsBlanks ignored) (rest : List Char)
include hskips

/-- The keyword for the initial state is the next token. -/
theorem next_initial (l : Layout) (state : Name) :
    Next ⟨[.base], ignored⟩ .initial "initial".toList (l.between.chars ++ (state.text ++ rest))
      (l.margin.chars ++ ((initial l state).statement ++ rest)) := by
  have hlookup : keywords.lookup "initial" = some .initial := by decide
  rw [initial_append]
  exact Next.keyword hskips l.margin hlookup (Apart.between l)

/-- The keyword for the final states is the next token. -/
theorem next_final (l : Layout) (states : List Name) :
    Next ⟨[.base], ignored⟩ .final "final".toList
      (l.between.chars ++ (namesText l.inside states ++ rest))
      (l.margin.chars ++ ((final l states).statement ++ rest)) := by
  have hlookup : keywords.lookup "final" = some .final := by decide
  rw [final_append]
  exact Next.keyword hskips l.margin hlookup (Apart.between l)

/-- The first token of a transition is the name of a state. -/
theorem next_transition (l : Layout) (t : Written.Transition) :
    ∃ value after, Next ⟨[.base], ignored⟩ .identifier value after
      (l.margin.chars ++ ((transition l t).statement ++ rest)) := by
  obtain ⟨source, more, hapart, htext⟩ := t.exists_text_append l rest
  refine ⟨source.text, more, ?_⟩
  show Next _ _ _ _ (l.margin.chars ++ (t.text l ++ rest))
  rw [htext]
  exact source.next hskips l.margin hapart

/-- A line begins with a statement. -/
theorem next : ∃ kind value after, (kind = .identifier ∨ kind = .initial ∨ kind = .final) ∧
    Next ⟨[.base], ignored⟩ kind value after
      (line.layout.margin.chars ++ (line.statement ++ rest)) := by
  cases line with
  | initial l state => exact ⟨_, _, _, .inr (.inl rfl), next_initial hskips rest l state⟩
  | final l states => exact ⟨_, _, _, .inr (.inr rfl), next_final hskips rest l states⟩
  | transition l t =>
    obtain ⟨value, after, hnext⟩ := next_transition hskips rest l t
    exact ⟨_, _, _, .inl rfl, hnext⟩

/-- A statement is read as it is written, but for a transition that only says that it pushes
nothing. -/
theorem reads (hnewline : ignored.contains .newline = false) :
    RuleReads 8 ⟨[.base], ignored⟩ "statement"
      (line.layout.margin.chars ++ (line.statement ++ (line.layout.margin.chars ++ '\n' :: rest)))
      (·.bare = line.read) (line.layout.margin.chars ++ '\n' :: rest) := by
  -- The first two begin with a keyword, and the last one is what is left if none is met.
  cases line with
  | initial l state =>
    have hinitial : RuleReads 7 ⟨[.base], ignored⟩ "initial"
        (l.between.chars ++ (state.text ++ (l.margin.chars ++ '\n' :: rest)))
        (·.bare = .initial state.id .invalid) (l.margin.chars ++ '\n' :: rest) := by
      refine .leaf (l := .initial) rfl fun depth _ start => ?_
      refine (state.reads_identifier hskips l.between (Apart.line l.margin)).bind fun p hp => ?_
      refine (Reads.spanFrom start).bind fun span _ => Reads.pure ?_
      show Node.initial p.bare .invalid = _
      rw [hp]
    exact .choose_keyword rfl (next_initial hskips _ l state) rfl rfl hinitial
  | final l states =>
    have hfinal : RuleReads 7 ⟨[.base], ignored⟩ "final"
        (l.between.chars ++ (namesText l.inside states ++ (l.margin.chars ++ '\n' :: rest)))
        (·.bare = .final (states.map Name.id) .invalid) (l.margin.chars ++ '\n' :: rest) := by
      refine .leaf (l := .final) rfl fun depth hdepth start => ?_
      refine ((reads_name_list states hskips l.between l.inside).call (by omega : 2 ≤ depth)).bind
        fun list hlist => ?_
      refine (Reads.spanFrom start).bind fun span _ => Reads.pure ?_
      show Node.final _ .invalid = _
      rw [hlist]
    exact .choose_keyword rfl (next_final hskips _ l states) rfl rfl hfinal
  | transition l t =>
    obtain ⟨value, after, hnext⟩ := next_transition hskips (l.margin.chars ++ '\n' :: rest) l t
    exact .choose_fallback rfl hnext rfl (t.reads hskips hnewline l l.margin l.margin)

end Written.Line

/-! ## Bodies -/

/-- The settings in force in a body. -/
def Settings.body : Settings := ⟨[.base], [.whitespace, .comment]⟩

/-- In a body the settings stay as they are when another one begins. -/
theorem Settings.intercept_body : Settings.body.intercept [.newline, .endOfInput] = .body :=
  by decide

/-- The settings of a body are those of a fresh stream that does not skip the ends of lines. -/
theorem Settings.intercept_initial : Settings.initial.intercept [.newline, .endOfInput] = .body :=
  by decide

/-- A line of a body, word by word. -/
theorem Written.Line.text_append (line : Line) (rest : List Char) :
    line.text ++ rest = line.layout.margin.chars ++ (line.statement ++
      (line.layout.margin.chars ++ '\n' :: rest)) := by
  simp only [text, List.append_assoc, List.singleton_append]

/-- A closing brace is the next token. -/
theorem Next.rightBrace : Next .body .rightBrace ['\x7d'] rest ('\x7d' :: rest) :=
  .token Lexes.rightBrace (by decide)

/-- An opening brace behind a gap is the next token. -/
theorem Next.leftBrace (gap : Gap) :
    Next .body .leftBrace ['\x7b'] rest (gap.chars ++ '\x7b' :: rest) :=
  .behind_gap .body (.inl rfl) gap Lexes.leftBrace (by decide) (by decide)

/-- Behind the end of a line the lines of a body are read one by one. -/
theorem reads_lines {depth : Nat} (hdepth : 8 ≤ depth) (lines : List Line) {steps : Nat}
    (hsteps : lines.length < steps) (before : List Node) (gap : Gap) :
    Reads .body
      (Parser.collectWithin
        (Parser.statement .rightBrace (RuleTable.standard.call depth "statement")) steps before)
      (gap.chars ++ '\n' :: (lines.flatMap Line.text ++ '\x7d' :: rest))
      (fun nodes => nodes.map Node.bare = before.reverse.map Node.bare ++ lines.map Line.read)
        rest := by
  have hbody : SkipsBlanks Settings.body.ignored := .body
  have hend : ∀ (gap : Gap) rest, Next .body .newline ['\n'] rest (gap.chars ++ '\n' :: rest) :=
    fun gap _ => Next.newline hbody (by decide) gap
  induction lines generalizing steps before gap with
  | nil =>
    obtain ⟨steps, rfl⟩ := Nat.exists_eq_add_one_of_ne_zero (by omega : steps ≠ 0)
    refine Reads.collectWithin_none
      (Reads.statement_closing (fun steps hsteps => ?_) Next.rightBrace) ?_
    · obtain ⟨steps, rfl⟩ : ∃ n, steps = n + 2 := ⟨steps - 2, by simp at hsteps; omega⟩
      exact .skipSeparatorsWithin_newline (hend gap _)
        (.skipSeparatorsWithin_none Next.rightBrace rfl)
    · rw [List.map_nil, List.append_nil]
  | cons line lines ih =>
    obtain ⟨steps, rfl⟩ := Nat.exists_eq_add_one_of_ne_zero (by omega : steps ≠ 0)
    rw [List.flatMap_cons, List.append_assoc, line.text_append]
    obtain ⟨kind, value, after, hkind, hnext⟩ :=
      line.next hbody (line.layout.margin.chars ++ '\n'
        :: (lines.flatMap Line.text ++ '\x7d' :: rest))
    have hother : (kind == .newline || kind == .semicolon) = false ∧ kind ≠ .rightBrace := by
      rcases hkind with rfl | rfl | rfl <;> decide
    have hitem :=
      (line.reads hbody (lines.flatMap Line.text ++ '\x7d' :: rest) (by decide)).call hdepth
    -- The end of the line before is skipped, and the statement leaves the end of its own line.
    refine Reads.collectWithin_some
      (Reads.statement_item (fun steps hsteps => ?_) hnext hother.2 hitem) fun node hnode => ?_
    · obtain ⟨steps, rfl⟩ : ∃ n, steps = n + 2 := ⟨steps - 2, by simp at hsteps; omega⟩
      exact .skipSeparatorsWithin_newline (hend gap _) (.skipSeparatorsWithin_none hnext hother.1)
    · refine (ih (Nat.lt_of_succ_lt_succ hsteps) (node :: before) line.layout.margin).imp
        fun nodes hnodes => ?_
      rw [hnodes, List.reverse_cons, List.map_append, List.map_singleton, hnode, List.append_assoc,
        List.singleton_append, List.map_cons]

/-- There are no more lines than characters. -/
theorem length_le_length_flatMap_text (lines : List Line) :
    lines.length ≤ (lines.flatMap Line.text).length := by
  induction lines with
  | nil => exact Nat.le_refl 0
  | cons line lines ih =>
    rw [List.flatMap_cons, List.length_append, List.length_cons, Line.text]
    simp only [List.length_append, List.length_singleton]
    omega

/-- A body is read line by line, from its opening brace to its closing one, as the nodes that its
lines stand for, as soon as calls may be nested nine deep. -/
theorem reads_body (lines : List Line) (gap : Gap) (rest : List Char) :
    RuleReads 9 .body "body"
      (gap.chars ++ '\x7b' :: '\n' :: (lines.flatMap Line.text ++ '\x7d' :: rest))
      (·.bare = .root (lines.map Line.read) .invalid) rest := by
  have hopened : ∀ start, Reads .body (Parser.opened (some .leftBrace) start)
      (gap.chars ++ '\x7b' :: '\n' :: (lines.flatMap Line.text ++ '\x7d' :: rest)) (fun _ => True)
      ('\n' :: (lines.flatMap Line.text ++ '\x7d' :: rest)) :=
    fun _ => (Reads.expect (Next.leftBrace gap) (by decide)).map fun _ _ => trivial
  have hfind : RuleTable.standard.find? "body" =
      some (.root "statement" (some .leftBrace) .rightBrace) := rfl
  refine (RuleReads.root (Q := fun nodes => nodes.map Node.bare = lines.map Line.read) hfind hopened
    fun depth hdepth steps hsteps => ?_).imp ?_
  · -- Every line has a character at least, so the steps of the loop suffice for all of them.
    have hlength := length_le_length_flatMap_text lines
    rw [List.length_cons, List.length_append] at hsteps
    rw [Settings.intercept_body]
    exact reads_lines hdepth lines (by omega) [] .empty
  · rintro _ ⟨nodes, span, rfl, hnodes⟩
    show Node.root (Node.bareList nodes) .invalid = _
    rw [Node.bareList_eq_map, hnodes]

/-! ## Declarations -/

/-- The word in front of the names of stacks, which is a name as well. -/
def Written.Name.ofStacks : Name := ⟨'s', "tacks".toList, by decide, by decide, by decide⟩

/-- The word in front of the names of tapes, which is a name as well. -/
def Written.Name.ofTapes : Name := ⟨'t', "apes".toList, by decide, by decide, by decide⟩

/-- The names of stacks or tapes are read as they are written. -/
theorem reads_header {word : String} (name : Name) (hword : name.text = word.toList)
    (part : Option (List Name)) {after : List Char} {depth : Nat} (hdepth : 2 ≤ depth)
    (hnext : Next .body kind value after rest) (hkind : kind ≠ .identifier) :
    Reads .body (Parser.header (RuleTable.standard.call depth) word)
      (partText .space word (part.map (namesText .space)) ++ rest)
      (fun ids => ids.map Identifier.bare = (part.getD []).map Name.id) rest := by
  refine reads_part .body name hword (List.cons_ne_nil _ _) hnext hkind ?_ ?_
  · intro hnone
    rw [Option.map_eq_none_iff.1 hnone]
    rfl
  · intro text hsome
    obtain ⟨names, rfl, rfl⟩ := Option.map_eq_some_iff.1 hsome
    refine ((reads_name_list names .body .space .space).call hdepth).bind fun list hlist => ?_
    exact Reads.pure hlist

/-- What a declaration with a body gives. -/
def MachineKind.declared (kind : MachineKind) (name : Identifier) (tapes : List Identifier)
    (body : Node) (span : Span) : Node :=
  match kind with
  | .finite => .finite name body span
  | .pushdown => .pushdown name tapes body span
  | .turing => .turing name tapes body span

/-- The rest of a declaration is its body, if no equals sign comes next. -/
theorem reads_declaration {depth : Nat} (hdepth : 9 ≤ depth) (lines : List Line) (rest : List Char)
    (kind : MachineKind) (name : Identifier) (tapes : List Identifier) (start : Location) :
    Reads .body (Parser.declaration (RuleTable.standard.call depth) kind name tapes start)
      (Gap.space.chars ++ '\x7b' :: '\n' :: (lines.flatMap Line.text ++ '\x7d' :: rest))
      (fun node => ∃ body span, node = kind.declared name tapes body span ∧
        body.bare = .root (lines.map Line.read) .invalid) rest := by
  refine (Reads.accept_other (Next.leftBrace .space) (by decide)).bind ?_
  rintro _ rfl
  refine ((reads_body lines .space rest).call hdepth).bind fun body hbody => ?_
  refine (Reads.spanFrom start).bind fun span _ => ?_
  cases kind with
  | finite => exact Reads.pure ⟨body, span, rfl, hbody⟩
  | pushdown => exact Reads.pure ⟨body, span, rfl, hbody⟩
  | turing => exact Reads.pure ⟨body, span, rfl, hbody⟩

/-- A declaration that may name stacks or tapes is read as it is written: its name, the names of its
stacks or tapes if they are given, and its body line by line. -/
theorem reads_declaration_header {word : String} (introduction : Name)
    (hword : introduction.text = word.toList) (name : Name) (part : Option (List Name))
    {depth : Nat} (hdepth : 9 ≤ depth) (lines : List Line) (rest : List Char) (kind : MachineKind)
    (start : Location) :
    Reads .body
      (do
        let id ← Parser.identifier
        let ids ← Parser.header (RuleTable.standard.call depth) word
        Parser.declaration (RuleTable.standard.call depth) kind id ids start)
      (Gap.space.chars ++ (name.text ++ (partText .space word (part.map (namesText .space)) ++
        (Gap.space.chars ++ '\x7b' :: '\n' :: (lines.flatMap Line.text ++ '\x7d' :: rest)))))
      (fun node => ∃ id ids body span, node = kind.declared id ids body span ∧ id.bare = name.id ∧
        ids.map Identifier.bare = (part.getD []).map Name.id ∧
        body.bare = .root (lines.map Line.read) .invalid) rest := by
  have hspace : Gap.space.chars ≠ [] := List.cons_ne_nil _ _
  refine (name.reads_identifier .body .space
    (Apart.part hspace word _ (Apart.append_gap .space (.inl hspace)))).bind fun id hid => ?_
  refine (reads_header introduction hword part (by omega : 2 ≤ depth) (Next.leftBrace .space)
    (by decide)).bind fun ids hids => ?_
  refine (reads_declaration hdepth lines rest kind id ids start).imp ?_
  rintro _ ⟨body, span, rfl, hbody⟩
  exact ⟨id, ids, body, span, rfl, hid, hids, hbody⟩

/-- A machine begins with its keyword. -/
theorem Written.Heading.next (heading : Heading) (rest : List Char) :
    Next .body heading.kind heading.keyword.toList (' ' :: rest)
      (heading.keyword.toList ++ ' ' :: rest) := by
  have hlookup : keywords.lookup heading.keyword = some heading.kind := by
    cases heading <;> rfl
  exact Next.keyword .body .empty hlookup (Apart.cons (by decide))

namespace Written.Machine

/-- The text of a machine, part by part. -/
theorem text_append (m : Written.Machine) (rest : List Char) :
    m.text ++ rest = m.heading.keyword.toList ++
      (Gap.space.chars ++
        (m.name.text ++
          (m.heading.parts ++
            (Gap.space.chars ++ '\x7b' :: '\n' ::
              (m.lines.flatMap Line.text ++ '\x7d' :: rest))))) := by
  unfold text body
  rw [List.append_assoc, List.cons_append, List.append_assoc, List.append_assoc, List.cons_append,
    List.cons_append, List.cons_append, List.append_assoc, List.singleton_append]
  rfl

/-- A machine is read as it is written, but for the transitions that only say that they push
nothing. -/
theorem reads (m : Written.Machine) (rest : List Char) :
    RuleReads 11 .body "statement" (m.text ++ rest)
      (·.bare = m.heading.node m.name.id (.root (m.lines.map Line.read) .invalid)) rest := by
  -- The keyword of the heading chooses the rule; behind it only the parameters differ.
  obtain ⟨heading, name, lines⟩ := m
  rw [text_append]
  cases heading with
  | finite =>
    refine .choose_keyword rfl (Heading.finite.next _) rfl rfl ?_
    refine .leaf (l := .finite) rfl fun depth hdepth start => ?_
    have hapart : ∀ rest, Apart (Gap.space.chars ++ rest) :=
      fun rest => Apart.append_gap .space (.inl (List.cons_ne_nil _ _))
    refine (name.reads_identifier .body .space (hapart _)).bind fun id hid => ?_
    refine (reads_declaration hdepth lines rest .finite id [] start).imp ?_
    rintro _ ⟨body, span, rfl, hbody⟩
    show Node.finite id.bare body.bare .invalid = _
    rw [hid, hbody]
    rfl
  | pushdown stackNames =>
    refine .choose_keyword rfl ((Heading.pushdown stackNames).next _) rfl rfl ?_
    refine .leaf (l := .pushdown) rfl fun depth hdepth start => ?_
    refine (reads_declaration_header Name.ofStacks rfl name stackNames hdepth lines rest .pushdown
      start).imp ?_
    rintro _ ⟨id, ids, body, span, rfl, hid, hids, hbody⟩
    show Node.pushdown id.bare (ids.map Identifier.bare) body.bare .invalid = _
    rw [hid, hids, hbody]
    rfl
  | turing tapes =>
    refine .choose_keyword rfl ((Heading.turing tapes).next _) rfl rfl ?_
    refine .leaf (l := .turing) rfl fun depth hdepth start => ?_
    refine (reads_declaration_header Name.ofTapes rfl name tapes hdepth lines rest .turing
      start).imp ?_
    rintro _ ⟨id, ids, body, span, rfl, hid, hids, hbody⟩
    show Node.turing id.bare (ids.map Identifier.bare) body.bare .invalid = _
    rw [hid, hids, hbody]
    rfl

end Written.Machine

/-! ## Programs -/

/-- The end of the source is the next token. -/
theorem Next.endOfInput : Next .body .endOfInput [] [] [] := .stop rfl rfl rfl (by decide)

/-- A written machine has more than one character. -/
theorem Written.Machine.one_lt_length_text (m : Written.Machine) : 1 < m.text.length := by
  unfold text
  simp only [List.length_append, List.length_cons]
  omega

/-- A program that is a machine is read as it is written, but for the transitions that only say that
they push nothing. -/
theorem Written.Machine.reads_module (m : Written.Machine) :
    RuleReads 12 .initial "module" m.text (·.bare = m.programOf (m.lines.map Line.read)) [] := by
  have hfind : RuleTable.standard.find? "module" = some (.root "statement" none .endOfInput) := rfl
  have hopened : ∀ start, Reads .initial (Parser.opened none start) m.text (fun _ => True) m.text :=
    fun _ => Reads.pure trivial
  refine (RuleReads.root (Q := fun nodes => Node.root (nodes.map Node.bare) .invalid =
    m.programOf (m.lines.map Line.read)) hfind hopened fun depth hdepth steps hsteps => ?_).imp ?_
  · rw [Settings.intercept_initial]
    obtain ⟨steps, rfl⟩ : ∃ n, steps = n + 2 := ⟨steps - 2, by have := m.one_lt_length_text; omega⟩
    have hnext : Next .body m.heading.kind _ _ m.text := m.heading.next _
    have hother : (m.heading.kind == .newline || m.heading.kind == .semicolon) = false ∧
        m.heading.kind ≠ .endOfInput := by
      cases m.heading <;> exact ⟨rfl, nofun⟩
    have hitem := (m.reads []).call hdepth
    rw [List.append_nil] at hitem
    -- The machine is the only statement, and the source ends behind it.
    refine Reads.collectWithin_some
      (Reads.statement_item (fun steps hsteps => ?_) hnext hother.2 hitem) fun node hnode => ?_
    · obtain ⟨steps, rfl⟩ := Nat.exists_eq_add_one_of_ne_zero (by omega : steps ≠ 0)
      exact .skipSeparatorsWithin_none hnext hother.1
    · refine Reads.collectWithin_none
        (Reads.statement_closing (fun steps hsteps => ?_) Next.endOfInput) ?_
      · obtain ⟨steps, rfl⟩ := Nat.exists_eq_add_one_of_ne_zero (by omega : steps ≠ 0)
        exact .skipSeparatorsWithin_none Next.endOfInput rfl
      · show Node.root [node.bare] .invalid = _
        rw [hnode]
        rfl
  · rintro _ ⟨nodes, span, rfl, hnodes⟩
    show Node.root (Node.bareList nodes) .invalid = _
    rw [Node.bareList_eq_map, hnodes]

/-- Allowing for the length of the source, the rule of a name is called from the next token on. -/
theorem reads_parse {name : String} {n : Nat} {P : Node → Prop} (hn : n ≤ 78 * (text.length + 1))
    (h : RuleReads n settings name text P rest) :
    Reads settings (RuleTable.standard.parse name) text P rest := by
  refine Reads.location.bind fun start _ => ?_
  have hget : Reads settings (get : Parser TokenStream) text
      (fun s => n ≤ RuleTable.standard.depthLimit s.source) text := by
    refine Reads.of_answer fun s u hs _ htext => ⟨s, Agrees.pure hs s, ?_⟩
    have hlimit : text.length < s.source.utf8ByteSize + 2 := htext ▸ hs.length_rest_lt_limit
    have hrules : 2 * RuleTable.standard.rules.length + 8 = 78 := by decide
    unfold RuleTable.depthLimit
    rw [hrules]
    omega
  exact hget.bind fun s hs => h _ hs start

/-- A fresh stream stands in front of the whole text. -/
theorem Unbuffered.rest_ofSource (text : List Char) :
    (Unbuffered.ofSource (.ofList text)).cursor.rest = text := by
  show (Cursor.ofLocation (String.ofList text).toList .start).rest = text
  rw [Cursor.ofLocation_start, String.toList_ofList]
  rfl

/-- A machine is read as it is written, but for its transitions that only say that they push
nothing. -/
theorem parseProgram_text (m : Written.Machine) :
    ∃ tree tokens, parseProgram (.ofList m.text) = .ok (tree, tokens) ∧
      tree.bare = m.programOf (m.lines.map Line.read) := by
  have hreads := reads_parse (by omega) m.reads_module
  obtain ⟨tree, u, ⟨hresult, -, -, -, -⟩, htree, -⟩ :=
    hreads _ _ (Shows.ofSource (.ofList m.text)) rfl (Unbuffered.rest_ofSource _)
  unfold parseProgram
  generalize RuleTable.standard.parse "module" (.ofSource (.ofList m.text)) = result at *
  obtain ⟨r, s⟩ := result
  obtain rfl : r = .ok tree := hresult
  exact ⟨tree, s.tokens, rfl, htree⟩

/-- A transition is read as it is written unless all that it says is that it pushes nothing. -/
theorem Written.Transition.read_eq_node_iff (t : Written.Transition) :
    t.read = t.node ↔ ¬ t.PushesNothing := by
  cases t with
  | finite source condition target => exact iff_of_true rfl not_false
  | turing source read target write shift => exact iff_of_true rfl not_false
  | pushdown source condition pop target push either =>
    match pop, push with
    | none, some [] => exact iff_of_false Node.noConfusion (not_not_intro trivial)
    | none, none => exact iff_of_true rfl not_false
    | none, some (_ :: _) => exact iff_of_true rfl not_false
    | some _, _ => exact iff_of_true rfl not_false

/-- A line is read as it is written unless its transition only says that it pushes nothing. -/
theorem Written.Line.read_eq_node_iff (line : Line) :
    line.read = line.node ↔ ∀ l t, line = .transition l t → ¬ t.PushesNothing := by
  cases line with
  | initial l state => exact iff_of_true rfl fun _ _ h => Line.noConfusion h
  | final l states => exact iff_of_true rfl fun _ _ h => Line.noConfusion h
  | transition l t =>
    refine t.read_eq_node_iff.trans ⟨?_, fun h => h l t rfl⟩
    rintro h _ _ ⟨rfl, rfl⟩
    exact h

/-- Programs of one machine with the same tree have the same statements. So a body is read in one
way only, whatever machine stands around it. -/
theorem Written.Machine.programOf_inj (m : Written.Machine) {statements others : List Node} :
    m.programOf statements = m.programOf others ↔ statements = others := by
  refine ⟨fun h => ?_, fun h => h ▸ rfl⟩
  have hnode := (List.cons.inj (Node.root.inj h).1).1
  -- The statements are the body of the single declaration, whatever its kind.
  cases hheading : m.heading with
  | finite =>
    rw [hheading] at hnode
    exact (Node.root.inj (Node.finite.inj hnode).2.1).1
  | pushdown stackNames =>
    rw [hheading] at hnode
    exact (Node.root.inj (Node.pushdown.inj hnode).2.2.1).1
  | turing tapes =>
    rw [hheading] at hnode
    exact (Node.root.inj (Node.turing.inj hnode).2.2.1).1

/-- Every machine is read, and all its transitions are read as they are written, each as a
transition of its own kind with its own parts, exactly if none of them only says that it pushes
nothing. -/
theorem parseProgram_transitions_iff (m : Written.Machine) :
    ∃ tree tokens, parseProgram (.ofList m.text) = .ok (tree, tokens) ∧
      (tree.bare = m.programOf (m.lines.map Line.node) ↔
        ∀ l t, Line.transition l t ∈ m.lines → ¬ t.PushesNothing) := by
  obtain ⟨tree, tokens, hparse, htree⟩ := parseProgram_text m
  refine ⟨tree, tokens, hparse, ?_⟩
  rw [htree, m.programOf_inj, List.map_inj_left]
  constructor
  · intro h l t hmem
    exact (Line.read_eq_node_iff _).1 (h _ hmem) l t rfl
  · intro h line hmem
    refine line.read_eq_node_iff.2 ?_
    rintro l t rfl
    exact h l t hmem

/-- A pushdown automaton whose only transition, from `p` to `q`, only says that it pushes
nothing. -/
def Written.Machine.pushingNothing : Written.Machine :=
  let p : Name := ⟨'p', [], beginsWord_p, by decide, by decide⟩
  let q : Name := ⟨'q', [], by decide, by decide, by decide⟩
  let m : Name := ⟨'m', [], by decide, by decide, by decide⟩
  let a : Written.Symbol := .quoted (.plain 'a' (by decide) (by decide) (by decide))
  ⟨.pushdown none, m, [.transition ⟨.empty, .space, List.cons_ne_nil _ _, .empty⟩
    (.pushdown p a none q (some []) rfl)]⟩

/-- A transition that only says that it pushes nothing is read as one of a Turing machine. -/
theorem parseProgram_pushingNothing :
    ∃ tree tokens, parseProgram "pushdown m \x7b\np 'a' -> q push []\n\x7d" = .ok (tree, tokens) ∧
      tree.bare = .root [.pushdown ⟨"m", .invalid⟩ [] (.root [
        .turingTransition ⟨"p", .invalid⟩ [.character "a" .invalid] ⟨"q", .invalid⟩
          [.identifier ⟨"push", .invalid⟩] [] .invalid] .invalid) .invalid] .invalid ∧
      tree.bare ≠ .root [.pushdown ⟨"m", .invalid⟩ [] (.root [
        .pushdownTransition ⟨"p", .invalid⟩ (.character "a" .invalid) [] ⟨"q", .invalid⟩ []
          .invalid] .invalid) .invalid] .invalid := by
  have htext : String.ofList Written.Machine.pushingNothing.text =
      "pushdown m \x7b\np 'a' -> q push []\n\x7d" := by decide
  obtain ⟨tree, tokens, hparse, htree⟩ := parseProgram_text .pushingNothing
  rw [htext] at hparse
  refine ⟨tree, tokens, hparse, htree, fun h => ?_⟩
  cases htree.symm.trans h

end MachineLang
