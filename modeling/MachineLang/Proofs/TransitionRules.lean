import MachineLang.Proofs.SymbolRules

/-!
# What is read of transitions

The rules for the three kinds of transitions are tried in order, that of Turing machines first. On a
line of a finite automaton it fails for want of what is written, and on one of a pushdown automaton
at the word `pop`, or because no movement begins with a symbol. But a pushdown transition that says
nothing of what it pops, and that it pushes nothing, is one of a Turing machine too: it writes the
name `push`, and moves no head (`Written.Transition.reads`).
-/

namespace MachineLang

open Written

variable {ignored : List TokenKind} {kind : TokenKind} {value rest : List Char}

/-! ## Marks of a transition -/

/-- An arrow is the next token. -/
theorem Next.arrow (hskips : SkipsBlanks ignored) (gap : Gap) :
    Next ⟨[.base], ignored⟩ .arrow ['-', '>'] rest (gap.chars ++ '-' :: '>' :: rest) :=
  .behind_gap hskips (.inl rfl) gap Lexes.arrow
    (hskips.contains_eq_false (by decide) (by decide) (by decide)) (by decide)

/-- The end of a line is the next token. -/
theorem Next.newline (hskips : SkipsBlanks ignored) (hnewline : ignored.contains .newline = false)
    (gap : Gap) : Next ⟨[.base], ignored⟩ .newline ['\n'] rest (gap.chars ++ '\n' :: rest) :=
  .behind_gap hskips (.inl rfl) gap Lexes.newline hnewline (by decide)

/-- The end of a line is the next token where a symbol may stand. -/
theorem Next.newline_char (hskips : SkipsBlanks ignored)
    (hnewline : ignored.contains .newline = false) (gap : Gap) :
    Next ⟨[.char, .base], ignored⟩ .newline ['\n'] rest (gap.chars ++ '\n' :: rest) :=
  .behind_gap hskips (.inr rfl) gap Lexes.newline_char hnewline (by decide)

/-- A lexeme ends where its line does. -/
theorem Apart.line (gap : Gap) : Apart (gap.chars ++ '\n' :: rest) :=
  Apart.gap gap (Apart.cons (by decide))

/-- A part that may be left out ends what is in front of it. -/
theorem Apart.part {gap : Gap} (hgap : gap.chars ≠ []) (word : String) (part : Option (List Char))
    (hrest : Apart rest) : Apart (partText gap word part ++ rest) := by
  cases part with
  | none => exact hrest
  | some text =>
    unfold partText
    rw [List.append_assoc]
    exact Apart.append_gap gap (.inl hgap)

/-- A word may begin with the letter of `pop` and `push`. -/
theorem Written.beginsWord_p : Written.beginsWord 'p' = true := by decide

/-- The word in front of what is popped, which is a name as well. -/
def Written.Name.pop : Name := ⟨'p', ['o', 'p'], beginsWord_p, by decide, by decide⟩

/-- The word in front of what is pushed, which is a name as well. -/
def Written.Name.push : Name := ⟨'p', ['u', 's', 'h'], beginsWord_p, by decide, by decide⟩

/-- A part that may be left out is read if the word in front of it is there. -/
theorem reads_part {β : Type} {p : Parser β} {d : β} {P : β → Prop} {gap : Gap} {word : String}
    {part : Option (List Char)} {after : List Char} (hskips : SkipsBlanks ignored) (name : Name)
    (hword : name.text = word.toList) (hgap : gap.chars ≠ [])
    (hnext : Next ⟨[.base], ignored⟩ kind value after rest) (hkind : kind ≠ .identifier)
    (hnone : part = none → P d)
    (hsome : ∀ text, part = some text →
      Reads ⟨[.base], ignored⟩ p (gap.chars ++ (text ++ rest)) P rest) :
    Reads ⟨[.base], ignored⟩ (do
        if ← Parser.checkWord word then
          let _ ← Parser.next
          p
        else pure d)
      (partText gap word part ++ rest) P rest := by
  -- The word is looked for in any case; it is found if and only if the part is there.
  cases part with
  | none =>
    refine (Reads.checkWord hnext word).bind ?_
    rintro _ rfl
    rw [beq_eq_false_iff_ne.2 hkind, Bool.false_and, if_neg Bool.false_ne_true]
    exact Reads.pure (hnone rfl)
  | some text =>
    have htext : partText gap word (some text) ++ rest =
        gap.chars ++ (name.text ++ (gap.chars ++ (text ++ rest))) := by
      simp only [partText, hword, List.append_assoc]
    have hfound : (TokenKind.identifier == .identifier && .ofList name.text == word) = true := by
      rw [hword, String.ofList_toList, beq_self_eq_true, beq_self_eq_true]
      rfl
    have hapart : Apart (gap.chars ++ (text ++ rest)) := Apart.append_gap gap (.inl hgap)
    have hname := name.next hskips gap hapart
    rw [htext]
    refine (Reads.checkWord hname word).bind ?_
    rintro _ rfl
    rw [hfound, if_pos rfl]
    exact (Reads.next hname).bind fun _ _ => hsome text rfl

/-! ## Lists of symbols -/

/-- Symbols in brackets are read as they are written. -/
theorem reads_symbols (xs : List TapeSymbol) (hskips : SkipsBlanks ignored) (first gap : Gap) :
    RuleReads 5 ⟨[.base], ignored⟩ "symbols" (first.chars ++ (Written.symbolsText gap xs ++ rest))
      (·.items.map Node.bare = xs.map TapeSymbol.node) rest :=
  (TapeSymbol.readsElements gap).list hskips rfl first xs

/-- Movements in brackets are read as they are written. -/
theorem reads_shifts (xs : List TapeShift) (hskips : SkipsBlanks ignored) (first gap : Gap) :
    RuleReads 4 ⟨[.base], ignored⟩ "shifts"
      (first.chars ++ (listText gap (xs.map (TapeShift.text gap)) ++ rest))
      (·.items.map Node.bare = xs.map TapeShift.node) rest :=
  (TapeShift.readsElements gap).list hskips rfl first xs

/-- A single symbol is a list of one symbol. -/
theorem Written.Symbol.reads_symbols (x : Written.Symbol) (hskips : SkipsBlanks ignored) (gap : Gap)
    (hrest : Apart rest) :
    RuleReads 5 ⟨[.base], ignored⟩ "symbols" (gap.chars ++ (x.text ++ rest))
      (·.items.map Node.bare = [x.node]) rest := by
  obtain ⟨kind, value, after, hkind, hnext⟩ := x.next_base hskips gap rest
  have hne : kind ≠ .leftBracket := by
    rcases hkind with rfl | rfl <;> decide
  have hsymbol : RuleReads 4 ⟨[.base], ignored⟩ "tape_symbol" (gap.chars ++ (x.text ++ rest))
      (·.bare = x.node) rest := TapeSymbol.reads ⟨none, x⟩ hskips gap gap hrest
  refine (RuleReads.bare rfl hnext hne hsymbol).imp ?_
  rintro _ ⟨item, span, rfl, hitem⟩
  show [item.bare] = _
  rw [hitem]

/-- The word `push` in front of a bracket is read as a list of one name, where symbols may stand: no
colon follows that would make it the name of a tape. -/
theorem reads_symbols_push (hskips : SkipsBlanks ignored) (l : Layout) :
    RuleReads 5 ⟨[.base], ignored⟩ "symbols"
      (l.between.chars ++ ("push".toList ++ (l.between.chars ++ '[' :: rest)))
      (·.items.map Node.bare = [.identifier ⟨"push", .invalid⟩])
        (l.between.chars ++ '[' :: rest) := by
  have hapart : Apart (l.between.chars ++ '[' :: rest) := Apart.between l
  have hread : ignored.contains .identifier = false :=
    hskips.contains_eq_false (by decide) (by decide) (by decide)
  have hlex : Lexes [.char, .base] .identifier "push".toList (l.between.chars ++ '[' :: rest) :=
    Lexes.push fun c hc => (of_endsLexeme (hapart c hc)).1
  have hbase := Name.push.next hskips l.between hapart
  have hchar := Next.behind_gap hskips (.inr rfl) l.between hlex hread (by decide)
  -- No colon follows, so the name is not that of a tape.
  have hqualified : RuleFails 3 ⟨[.base], ignored⟩ "qualified_symbol"
      (l.between.chars ++ ("push".toList ++ (l.between.chars ++ '[' :: rest))) := by
    refine .leaf (l := .qualifiedSymbol) rfl fun _ _ _ => ?_
    refine (Name.push.reads_identifier hskips l.between hapart).bind_fails fun _ _ => ?_
    exact (Fails.expect (Next.leftBracket hskips l.between) (by decide)).bind
  have hidentifier : RuleReads 1 ⟨[.char, .base], ignored⟩ "identifier"
      (l.between.chars ++ ("push".toList ++ (l.between.chars ++ '[' :: rest)))
      (·.bare = .identifier ⟨"push", .invalid⟩) (l.between.chars ++ '[' :: rest) := by
    refine .leaf (l := .identifier) rfl fun _ _ _ => ?_
    refine Reads.map (P := fun id : Identifier => id.bare = ⟨"push", .invalid⟩) ?_ fun id hid => ?_
    · refine (Reads.expect hchar (by decide)).bind fun token htoken => Reads.pure ?_
      unfold Identifier.bare
      rw [htoken.value_eq]
      rfl
    · show Node.identifier id.bare = _
      rw [hid]
  have hcondition : RuleReads 2 ⟨[.base], ignored⟩ "condition"
      (l.between.chars ++ ("push".toList ++ (l.between.chars ++ '[' :: rest)))
      (·.bare = .identifier ⟨"push", .invalid⟩) (l.between.chars ++ '[' :: rest) :=
    .choose_branch rfl hchar rfl rfl hidentifier
  have hsymbol : RuleReads 4 ⟨[.base], ignored⟩ "tape_symbol"
      (l.between.chars ++ ("push".toList ++ (l.between.chars ++ '[' :: rest)))
      (·.bare = .identifier ⟨"push", .invalid⟩) (l.between.chars ++ '[' :: rest) :=
    .alternative rfl (List.forall_mem_singleton.2 hqualified) (hcondition.mono (by decide))
  refine (RuleReads.bare rfl hbase (by decide) hsymbol).imp ?_
  rintro _ ⟨item, span, rfl, hitem⟩
  show [item.bare] = _
  rw [hitem]

/-- No list of symbols begins at the end of a line, so a transition without what is written next is
none of a Turing machine. -/
theorem fails_symbols_newline (hskips : SkipsBlanks ignored)
    (hnewline : ignored.contains .newline = false) (gap : Gap) :
    RuleFails 5 ⟨[.base], ignored⟩ "symbols" (gap.chars ++ '\n' :: rest) := by
  have hbase : Next ⟨[.base], ignored⟩ .newline ['\n'] rest (gap.chars ++ '\n' :: rest) :=
    Next.newline hskips hnewline gap
  have hqualified : RuleFails 3 ⟨[.base], ignored⟩ "qualified_symbol" (gap.chars ++ '\n' :: rest) :=
    .leaf (l := .qualifiedSymbol) rfl fun _ _ _ => fails_qualified hbase (by decide)
  have hcondition : RuleFails 1 ⟨[.base], ignored⟩ "condition" (gap.chars ++ '\n' :: rest) :=
    .choose rfl (Next.newline_char hskips hnewline gap) rfl
  refine .bare rfl hbase (by decide) (.alternative rfl (List.forall_mem_cons.2 ⟨hqualified, ?_⟩))
  exact List.forall_mem_singleton.2 (hcondition.mono (by decide))

/-- No list of movements begins with a symbol in brackets, so what is written like the symbols of a
pushdown automaton is no transition of a Turing machine. -/
theorem fails_shifts_symbols (x : TapeSymbol) (xs : List TapeSymbol) (hskips : SkipsBlanks ignored)
    (first gap : Gap) :
    RuleFails 4 ⟨[.base], ignored⟩ "shifts"
      (first.chars ++ (Written.symbolsText gap (x :: xs) ++ rest)) := by
  have htext : Written.symbolsText gap (x :: xs) ++ rest =
      '[' :: (elementsText gap (x.text gap) (xs.map (TapeSymbol.text gap)) ++ rest) := rfl
  obtain ⟨more, hapart, hmore⟩ :=
    exists_elementsText_append gap (x.text gap) (xs.map (TapeSymbol.text gap)) rest
  rw [htext, hmore]
  refine .bracketed rfl (Next.leftBracket hskips first) fun depth hdepth start => ?_
  -- Behind the bracket stands a symbol, and no movement begins with one.
  obtain ⟨kind, value, after, hkind, hnext⟩ :=
    (TapeSymbol.readsElements gap).next hskips.newline x hapart
  have hopen : Next (Settings.ignore [.newline] ⟨[.base], ignored⟩) .leftBracket ['[']
      (gap.chars ++ (x.text gap ++ more))
        (first.chars ++ '[' :: (gap.chars ++ (x.text gap ++ more))) :=
    Next.leftBracket hskips.newline first
  exact Fails.bracketed hopen hnext hkind
    ((x.fails_tape_shift hskips.newline gap gap more).call hdepth)

namespace Written

/-! ## Transitions of finite automata -/

section Transitions

variable (hskips : SkipsBlanks ignored) (l : Layout) (source target : Name) (condition : Symbol)
include hskips

/-- A transition of a finite automaton is read as it is written, up to the name of its target, if no
word goes on there. -/
theorem reads_finiteTransition (first : Gap) (hrest : Apart rest) :
    RuleReads 6 ⟨[.base], ignored⟩ "finite_transition"
      (first.chars ++ ((Transition.finite source condition target).text l ++ rest))
      (·.bare = (Transition.finite source condition target).node) rest := by
  simp only [Transition.text, List.append_assoc, List.cons_append]
  refine RuleReads.leaf (l := .finiteTransition) rfl fun depth hdepth start => ?_
  refine (source.reads_identifier hskips first (Apart.between l)).bind fun p hp => ?_
  refine ((condition.reads_condition hskips l.between (Apart.between l)).call
    (by omega : 2 ≤ depth)).bind fun c hc => ?_
  refine (Reads.expect (Next.arrow hskips l.between) (by decide)).bind fun _ _ => ?_
  refine (target.reads_identifier hskips l.between hrest).bind fun q hq => ?_
  refine (Reads.spanFrom start).bind fun span _ => Reads.pure ?_
  show Node.finiteTransition p.bare c.bare q.bare .invalid = _
  rw [hp, hc, hq]
  rfl

/-! ## Transitions of pushdown automata -/

omit hskips in
/-- What is popped or pushed is nothing if it is not written. -/
theorem getD_of_map_eq {part : Option (List TapeSymbol)} {read : Option (List Node)}
    (h : read.map (List.map Node.bare) = part.map (List.map TapeSymbol.node)) :
    read.isNone = part.isNone ∧ Node.bareList (read.getD []) = (part.getD []).map
      TapeSymbol.node := by
  rw [Node.bareList_eq_map]
  cases part with
  | none =>
    rw [Option.map_none, Option.map_eq_none_iff] at h
    rw [h]
    exact ⟨rfl, rfl⟩
  | some xs =>
    obtain ⟨nodes, rfl, hnodes⟩ := Option.map_eq_some_iff.1 h
    exact ⟨rfl, hnodes⟩

/-- What is popped or pushed is read as it is written. -/
theorem reads_symbolsAfter {word : String} (name : Name) (hword : name.text = word.toList)
    (part : Option (List TapeSymbol)) {after : List Char} {depth : Nat} (hdepth : 5 ≤ depth)
    (hnext : Next ⟨[.base], ignored⟩ kind value after rest) (hkind : kind ≠ .identifier) :
    Reads ⟨[.base], ignored⟩ (Parser.symbolsAfter (RuleTable.standard.call depth) word)
      (partText l.between word (part.map (symbolsText l.inside)) ++ rest)
      (·.map (List.map Node.bare) = part.map (List.map TapeSymbol.node)) rest := by
  refine reads_part hskips name hword l.between_ne hnext hkind ?_ ?_
  · intro hnone
    rw [Option.map_eq_none_iff.1 hnone]
    rfl
  · intro text hsome
    obtain ⟨xs, rfl, rfl⟩ := Option.map_eq_some_iff.1 hsome
    refine ((reads_symbols xs hskips l.between l.inside).call hdepth).bind fun list hlist => ?_
    exact Reads.pure (congrArg some hlist)

/-- A transition of a pushdown automaton is read as it is written, up to the end of its line, if it
has a part for popping or one for pushing. -/
theorem reads_pushdownTransition (hnewline : ignored.contains .newline = false)
    (pop push : Option (List TapeSymbol)) (either : (pop.isSome || push.isSome) = true)
    (first last : Gap) :
    RuleReads 6 ⟨[.base], ignored⟩ "pushdown_transition"
      (first.chars ++ ((Transition.pushdown source condition pop target push either).text l ++
        (last.chars ++ '\n' :: rest)))
      (·.bare = (Transition.pushdown source condition pop target push either).node)
      (last.chars ++ '\n' :: rest) := by
  simp only [Transition.text, List.append_assoc, List.cons_append]
  refine RuleReads.leaf (l := .pushdownTransition) rfl fun depth hdepth start => ?_
  refine (source.reads_identifier hskips first (Apart.between l)).bind fun p hp => ?_
  refine ((condition.reads_condition hskips l.between
    (Apart.part l.between_ne "pop" _ (Apart.between l))).call (by omega :
      2 ≤ depth)).bind fun c hc => ?_
  refine (reads_symbolsAfter hskips l Name.pop rfl pop hdepth (Next.arrow hskips l.between)
    (by decide)).bind fun popped hpopped => ?_
  refine (Reads.expect (Next.arrow hskips l.between) (by decide)).bind fun _ _ => ?_
  refine (target.reads_identifier hskips l.between
    (Apart.part l.between_ne "push" _ (Apart.line last))).bind fun q hq => ?_
  refine (reads_symbolsAfter hskips l Name.push rfl push hdepth (Next.newline hskips hnewline last)
    (by decide)).bind fun pushed hpushed => ?_
  refine (Reads.spanFrom start).bind fun span _ => ?_
  -- One of the two parts is there, so the rule does not complain that both are missing.
  obtain ⟨hpop, hpopped⟩ := getD_of_map_eq hpopped
  obtain ⟨hpush, hpushed⟩ := getD_of_map_eq hpushed
  have heither : (popped.isNone && pushed.isNone) = false := by
    rw [hpop, hpush, ← Bool.not_eq_true', Bool.not_and, Option.not_isNone, Option.not_isNone]
    exact either
  rw [heither, if_neg Bool.false_ne_true]
  refine Reads.pure ?_
  show Node.pushdownTransition p.bare c.bare (Node.bareList _) q.bare (Node.bareList _) .invalid = _
  rw [hp, hc, hq, hpopped, hpushed]
  rfl

/-- A transition that says nothing of what it pops and pushes is none of a pushdown automaton. -/
theorem fails_pushdownTransition (hnewline : ignored.contains .newline = false) (first last : Gap) :
    RuleFails 6 ⟨[.base], ignored⟩ "pushdown_transition"
      (first.chars ++ ((Transition.finite source condition target).text l ++
        (last.chars ++ '\n' :: rest))) := by
  simp only [Transition.text, List.append_assoc, List.cons_append]
  refine RuleFails.leaf (l := .pushdownTransition) rfl fun depth hdepth start => ?_
  refine (source.reads_identifier hskips first (Apart.between l)).bind_fails fun p hp => ?_
  refine ((condition.reads_condition hskips l.between (Apart.between l)).call
    (by omega : 2 ≤ depth)).bind_fails fun c hc => ?_
  refine (reads_symbolsAfter hskips l Name.pop rfl none hdepth (Next.arrow hskips l.between)
    (by decide)).bind_fails fun popped hpopped => ?_
  refine (Reads.expect (Next.arrow hskips l.between) (by decide)).bind_fails fun _ _ => ?_
  refine (target.reads_identifier hskips l.between (Apart.line last)).bind_fails fun q hq => ?_
  refine (reads_symbolsAfter hskips l Name.push rfl none hdepth (Next.newline hskips hnewline last)
    (by decide)).bind_fails fun pushed hpushed => ?_
  refine (Reads.spanFrom start).bind_fails fun span _ => ?_
  -- Nothing was popped and nothing pushed, and that is the error.
  rw [(getD_of_map_eq hpopped).1, (getD_of_map_eq hpushed).1]
  exact Fails.throw rfl

/-! ## Transitions of Turing machines -/

/-- A transition of a Turing machine is read part by part: if what is read, written and moved is
read in turn, each in front of the next one, so is the whole. -/
theorem reads_turing_parts (first : Gap) {read write moves : List Char}
    {reads writes shifts : List Node}
    (hread : RuleReads 5 ⟨[.base], ignored⟩ "symbols"
      (l.between.chars ++
        (read ++ (l.between.chars ++ '-' :: '>' ::
          (l.between.chars ++ (target.text ++ (l.between.chars ++ write))))))
      (·.items.map Node.bare = reads)
      (l.between.chars ++ '-' :: '>' ::
        (l.between.chars ++ (target.text ++ (l.between.chars ++ write)))))
    (hwrite : RuleReads 5 ⟨[.base], ignored⟩ "symbols" (l.between.chars ++ write)
      (·.items.map Node.bare = writes) moves)
    (hshift : RuleReads 4 ⟨[.base], ignored⟩ "shifts" moves (·.items.map Node.bare = shifts) rest) :
    RuleReads 6 ⟨[.base], ignored⟩ "turing_transition"
      (first.chars ++
        (source.text ++
          (l.between.chars ++
            (read ++ (l.between.chars ++ '-' :: '>' ::
              (l.between.chars ++ (target.text ++ (l.between.chars ++ write))))))))
      (·.bare = .turingTransition source.id reads target.id writes shifts .invalid) rest := by
  refine RuleReads.leaf (l := .turingTransition) rfl fun depth hdepth start => ?_
  refine (source.reads_identifier hskips first (Apart.between l)).bind fun p hp => ?_
  refine (hread.call hdepth).bind fun r hr => ?_
  refine (Reads.expect (Next.arrow hskips l.between) (by decide)).bind fun _ _ => ?_
  refine (target.reads_identifier hskips l.between (Apart.between l)).bind fun q hq => ?_
  refine (hwrite.call hdepth).bind fun w hw => ?_
  refine (hshift.call (by omega : 4 ≤ depth)).bind fun moves hmoves => ?_
  refine (Reads.spanFrom start).bind fun span _ => Reads.pure ?_
  show Node.turingTransition p.bare (Node.bareList _) q.bare (Node.bareList _)
    (Node.bareList _) .invalid =
    _
  rw [hp, hq, Node.bareList_eq_map, Node.bareList_eq_map, Node.bareList_eq_map, hr, hw, hmoves]

/-- A transition of a Turing machine is read as it is written. -/
theorem reads_turingTransition (read write : List TapeSymbol) (shift : List TapeShift)
    (first : Gap) :
    RuleReads 6 ⟨[.base], ignored⟩ "turing_transition"
      (first.chars ++ ((Transition.turing source read target write shift).text l ++ rest))
      (·.bare = (Transition.turing source read target write shift).node) rest := by
  simp only [Transition.text, List.append_assoc, List.cons_append]
  exact reads_turing_parts hskips l source target first
    (reads_symbols read hskips l.between l.inside) (reads_symbols write hskips l.between l.inside)
    (reads_shifts shift hskips l.between l.inside)

/-- No transition of a Turing machine ends before it says what is written. So what is written for a
finite automaton is left to its own rule. -/
theorem fails_turingTransition_finite (hnewline : ignored.contains .newline = false)
    (first last : Gap) :
    RuleFails 6 ⟨[.base], ignored⟩ "turing_transition"
      (first.chars ++ ((Transition.finite source condition target).text l ++
        (last.chars ++ '\n' :: rest))) := by
  simp only [Transition.text, List.append_assoc, List.cons_append]
  refine RuleFails.leaf (l := .turingTransition) rfl fun depth hdepth start => ?_
  refine (source.reads_identifier hskips first (Apart.between l)).bind_fails fun p hp => ?_
  refine ((condition.reads_symbols hskips l.between (Apart.between l)).call hdepth).bind_fails
    fun r hr => ?_
  refine (Reads.expect (Next.arrow hskips l.between) (by decide)).bind_fails fun _ _ => ?_
  refine (target.reads_identifier hskips l.between (Apart.line last)).bind_fails fun q hq => ?_
  -- What is written would stand here, but the line ends.
  exact ((fails_symbols_newline hskips hnewline last).call hdepth).bind

/-- No transition of a Turing machine goes on with `pop` and symbols in brackets, since an arrow has
to follow what is read. -/
theorem fails_turingTransition_pop (popped : List TapeSymbol) (push : Option (List TapeSymbol))
    (either : ((some popped).isSome || push.isSome) = true) (first : Gap) :
    RuleFails 6 ⟨[.base], ignored⟩ "turing_transition"
      (first.chars ++
        ((Transition.pushdown source condition (some popped) target push either).text l ++
          rest)) := by
  simp only [Transition.text, partText, Option.map_some, List.append_assoc, List.cons_append]
  refine RuleFails.leaf (l := .turingTransition) rfl fun depth hdepth start => ?_
  refine (source.reads_identifier hskips first (Apart.between l)).bind_fails fun p hp => ?_
  refine ((condition.reads_symbols hskips l.between (Apart.between l)).call hdepth).bind_fails
    fun r hr => ?_
  -- Behind what is read an arrow would stand.
  exact (Fails.expect (Name.pop.next hskips l.between (Apart.between l)) (by decide)).bind

/-- What a transition pushes cannot be how a Turing machine moves its heads, if there is any. -/
theorem fails_turingTransition_push (x : TapeSymbol) (xs : List TapeSymbol)
    (either : ((none : Option (List TapeSymbol)).isSome || (some (x :: xs)).isSome) = true)
    (first : Gap) :
    RuleFails 6 ⟨[.base], ignored⟩ "turing_transition"
      (first.chars ++ ((Transition.pushdown source condition none target (some (x :: xs))
        either).text l ++
        rest)) := by
  simp only [Transition.text, partText, Option.map_some, Option.map_none, List.append_assoc,
    List.cons_append, List.nil_append]
  refine RuleFails.leaf (l := .turingTransition) rfl fun depth hdepth start => ?_
  refine (source.reads_identifier hskips first (Apart.between l)).bind_fails fun p hp => ?_
  refine ((condition.reads_symbols hskips l.between (Apart.between l)).call hdepth).bind_fails
    fun r hr => ?_
  refine (Reads.expect (Next.arrow hskips l.between) (by decide)).bind_fails fun _ _ => ?_
  refine (target.reads_identifier hskips l.between (Apart.between l)).bind_fails fun q hq => ?_
  -- The word `push` is taken for what is written, so that the symbols behind it have to be
  -- movements.
  refine ((reads_symbols_push hskips l).call hdepth).bind_fails fun w hw => ?_
  exact ((fails_shifts_symbols x xs hskips l.between l.inside).call (by omega : 4 ≤ depth)).bind

/-- A transition that pushes nothing, and says nothing of what it pops, is one of a Turing machine
that writes the name `push` and moves no head. -/
theorem reads_turingTransition_push_nil
    (either :
      ((none : Option (List TapeSymbol)).isSome || (some ([] : List TapeSymbol)).isSome) = true)
    (first : Gap) :
    RuleReads 6 ⟨[.base], ignored⟩ "turing_transition"
      (first.chars ++ ((Transition.pushdown source condition none target (some []) either).text l
        ++ rest))
      (·.bare = (Transition.pushdown source condition none target (some []) either).read) rest := by
  simp only [Transition.text, partText, Option.map_some, Option.map_none, List.append_assoc,
    List.cons_append, List.nil_append]
  exact reads_turing_parts hskips l source target first
    (condition.reads_symbols hskips l.between (Apart.between l)) (reads_symbols_push hskips l)
    (reads_shifts [] hskips l.between l.inside)

end Transitions

/-! ## Which kind is read -/

/-- Whatever its kind, a transition is read as one of its kind, unless all that it says is that it
pushes nothing. -/
theorem Transition.reads (t : Transition) (hskips : SkipsBlanks ignored)
    (hnewline : ignored.contains .newline = false) (l : Layout) (first last : Gap) :
    RuleReads 7 ⟨[.base], ignored⟩ "transition"
      (first.chars ++ (t.text l ++ (last.chars ++ '\n' :: rest))) (·.bare = t.read)
      (last.chars ++ '\n' :: rest) := by
  -- The rules are tried in their order: those in front of the right one fail, but for the last case
  -- below.
  cases t with
  | turing source read target write shift =>
    exact .alternative_head rfl
      (reads_turingTransition hskips l source target read write shift first)
  | finite source condition target =>
    refine .alternative rfl (List.forall_mem_cons.2 ⟨?_, List.forall_mem_singleton.2 ?_⟩)
      (reads_finiteTransition hskips l source target condition first (Apart.line last))
    · exact fails_turingTransition_finite hskips l source target condition hnewline first last
    · exact fails_pushdownTransition hskips l source target condition hnewline first last
  | pushdown source condition pop target push either =>
    match pop, push, either with
    | some popped, push, either =>
      exact .alternative rfl (List.forall_mem_singleton.2
        (fails_turingTransition_pop hskips l source target condition popped push either first))
        (reads_pushdownTransition hskips l source target condition hnewline _ _ either first last)
    | none, some (x :: xs), either =>
      exact .alternative rfl (List.forall_mem_singleton.2
        (fails_turingTransition_push hskips l source target condition x xs either first))
        (reads_pushdownTransition hskips l source target condition hnewline _ _ either first last)
    | none, some [], either =>
      exact .alternative_head rfl
        (reads_turingTransition_push_nil hskips l source target condition either first)

end Written

end MachineLang
