import MachineLang.Proofs.RuleReading

/-!
# Names, symbols and lists

What the rules of the language read of a written name, symbol, movement or list. All of them may
stand behind blanks, and end where a lexeme has to end (`Apart`). A symbol that is no name is read
under the mode of single characters; under the mode of statements its first token is none with which
anything else begins (`Written.Symbol.next_base`), so the alternatives for names and movements fail
on it.
-/

namespace MachineLang

open Written

variable {ignored : List TokenKind} {modes : List LexMode} {kind : TokenKind}
  {value rest : List Char} {c : Char}

/-! ## Blanks -/

/-- Of the tokens of a line, reading skips the blanks, and nothing else but comments. -/
structure SkipsBlanks (ignored : List TokenKind) : Prop where
  /-- Blanks are skipped. -/
  whitespace : ignored.contains .whitespace = true
  /-- Lexemes are not. -/
  others : ∀ kind, ignored.contains kind = true →
    kind = .whitespace ∨ kind = .newline ∨ kind = .comment

namespace SkipsBlanks

/-- A body skips blanks and comments. -/
theorem body : SkipsBlanks [.whitespace, .comment] :=
  ⟨by decide, fun kind => by cases kind <;> decide⟩

/-- In brackets the ends of lines are skipped as well. -/
theorem newline (h : SkipsBlanks ignored) : SkipsBlanks (.newline :: ignored) where
  whitespace := by
    rw [List.contains_cons, h.whitespace, Bool.or_true]
  others kind hkind := by
    rw [List.contains_cons, Bool.or_eq_true, beq_iff_eq] at hkind
    rcases hkind with rfl | hkind
    · exact .inr (.inl rfl)
    · exact h.others kind hkind

/-- A lexeme is not skipped unless it is a blank of one of the three kinds. -/
theorem contains_eq_false (h : SkipsBlanks ignored) (hwhitespace : kind ≠ .whitespace)
    (hnewline : kind ≠ .newline) (hcomment : kind ≠ .comment) : ignored.contains kind = false := by
  by_contra hcontains
  rcases h.others kind (Bool.not_eq_false _ ▸ hcontains) with hkind | hkind | hkind
  · exact hwhitespace hkind
  · exact hnewline hkind
  · exact hcomment hkind

end SkipsBlanks

/-- A lexeme behind a gap is the next token, if blanks are skipped. -/
theorem Next.behind_blanks (hwhitespace : ignored.contains .whitespace = true)
    (hmodes : modes = [.base] ∨ modes = [.char, .base]) (gap : Gap)
    (hlex : Lexes modes kind value rest) (hread : ignored.contains kind = false)
    (hhead : value.head?.any isSpace = false) :
    Next ⟨modes, ignored⟩ kind value rest (gap.chars ++ (value ++ rest)) := by
  have hnext : Next ⟨modes, ignored⟩ kind value rest (value ++ rest) := .token hlex hread
  by_cases hgap : gap.chars = []
  · rw [hgap]
    exact hnext
  · refine .skip (Lexes.space hmodes hgap gap.blank ?_) hwhitespace hnext
    rw [List.head?_append_of_ne_nil _ hlex.value_ne]
    intro c hc
    rw [Option.mem_def.1 hc] at hhead
    exact hhead

/-- A lexeme behind a gap is the next token. -/
theorem Next.behind_gap (hskips : SkipsBlanks ignored)
    (hmodes : modes = [.base] ∨ modes = [.char, .base]) (gap : Gap)
    (hlex : Lexes modes kind value rest) (hread : ignored.contains kind = false)
    (hhead : value.head?.any isSpace = false) :
    Next ⟨modes, ignored⟩ kind value rest (gap.chars ++ (value ++ rest)) :=
  behind_blanks hskips.whitespace hmodes gap hlex hread hhead

/-! ## Where lexemes end -/

/-- Whether a lexeme ends in front of a character. -/
def endsLexeme (c : Char) : Bool := isSpace c || [',', ']', ':', '\n'].contains c

/-- A lexeme may end in front of the text. -/
def Apart (text : List Char) : Prop := ∀ c ∈ text.head?, endsLexeme c = true

/-- Every blank is one of three characters. -/
theorem isSpace_iff : isSpace c = true ↔ c = ' ' ∨ c = '\t' ∨ c = '\r' := by
  simp only [isSpace, CharSet.contains, List.any_cons, List.any_nil, SetItem.contains,
    Bool.or_false, Bool.or_eq_true, beq_iff_eq, @eq_comm Char c]

/-- No word goes on where a lexeme ends, and no arrow does. -/
theorem of_endsLexeme (h : endsLexeme c = true) :
    continuesWord c = false ∧ beginsWord c = false ∧ c ≠ '>' := by
  unfold endsLexeme at h
  rw [Bool.or_eq_true, isSpace_iff] at h
  rcases h with (rfl | rfl | rfl) | h
  · decide
  · decide
  · decide
  · simp only [List.contains_cons, List.contains_nil, Bool.or_false, Bool.or_eq_true,
      beq_iff_eq] at h
    rcases h with rfl | rfl | rfl | rfl <;> decide

/-- No word begins with a blank. -/
theorem isSpace_eq_false_of_beginsWord (h : beginsWord c = true) : isSpace c = false := by
  by_contra hspace
  rcases isSpace_iff.1 (Bool.not_eq_false _ ▸ hspace) with rfl | rfl | rfl
  · exact absurd h (by decide)
  · exact absurd h (by decide)
  · exact absurd h (by decide)

namespace Apart

/-- A lexeme ends in front of a character that ends it. -/
theorem cons (h : endsLexeme c = true) : Apart (c :: rest) := by
  intro a ha
  obtain rfl : c = a := Option.some.inj ha
  exact h

/-- A lexeme ends in front of a gap. -/
theorem append_gap (gap : Gap) (h : gap.chars ≠ [] ∨ Apart rest) : Apart (gap.chars ++ rest) := by
  cases hchars : gap.chars with
  | nil => exact h.resolve_left fun hne => hne hchars
  | cons a as =>
    have ha := List.all_eq_true.1 gap.blank a (hchars ▸ List.mem_cons_self)
    refine cons ?_
    unfold endsLexeme
    rw [ha, Bool.true_or]

/-- A lexeme ends in front of what is kept apart from it. -/
theorem between (l : Layout) : Apart (l.between.chars ++ rest) := append_gap _ (.inl l.between_ne)

/-- A lexeme ends in front of the bracket or the comma behind it. -/
theorem gap (gap : Gap) (h : Apart rest) : Apart (gap.chars ++ rest) := append_gap _ (.inr h)

end Apart

/-! ## Names -/

/-- A name is the next token behind a gap, if what follows it does not go on with it. -/
theorem Written.Name.next (n : Name) (hskips : SkipsBlanks ignored) (gap : Gap)
    (hrest : Apart rest) :
    Next ⟨[.base], ignored⟩ .identifier n.text rest (gap.chars ++ (n.text ++ rest)) := by
  have hword :=
    Lexes.word (fun c hc => (of_endsLexeme (hrest c hc)).1) n.first_begins n.others_continue
  rw [n.lookup_eq] at hword
  refine .behind_gap hskips (.inl rfl) gap hword (hskips.contains_eq_false ?_ ?_ ?_) ?_
  · decide
  · decide
  · decide
  · exact isSpace_eq_false_of_beginsWord n.first_begins

/-- A name is read as it is written. -/
theorem Written.Name.reads_identifier (n : Name) (hskips : SkipsBlanks ignored) (gap : Gap)
    (hrest : Apart rest) :
    Reads ⟨[.base], ignored⟩ Parser.identifier (gap.chars ++ (n.text ++ rest))
      (·.bare = n.id) rest := by
  refine (Reads.expect (n.next hskips gap hrest) (by decide)).bind fun token htoken => Reads.pure ?_
  unfold Identifier.bare
  rw [htoken.value_eq]
  rfl

/-- The rule for names reads a name. -/
theorem Written.Name.reads (n : Name) (hskips : SkipsBlanks ignored) (gap : Gap)
    (hrest : Apart rest) :
    RuleReads 1 ⟨[.base], ignored⟩ "identifier" (gap.chars ++ (n.text ++ rest))
      (·.bare = .identifier n.id) rest := by
  refine .leaf (l := .identifier) rfl fun depth _ start => ?_
  refine (n.reads_identifier hskips gap hrest).map fun id hid => ?_
  show Node.identifier id.bare = _
  rw [hid]

/-! ## Symbols -/

/-- The body of a literal stands for the characters that are meant, whether they are written plainly
or with a backslash in front. -/
theorem unescape_flatMap_text {d : Char} (xs : List (LiteralChar d)) :
    unescape (xs.flatMap LiteralChar.text) = xs.map LiteralChar.value := by
  induction xs with
  | nil => rfl
  | cons x xs ih =>
    rw [List.flatMap_cons, List.map_cons, ← ih]
    cases x with
    | plain c hdelimiter hbackslash hnewline =>
      show unescape (c :: xs.flatMap LiteralChar.text) = c :: unescape (xs.flatMap LiteralChar.text)
      rw [unescape]
      · exact fun h => absurd h hbackslash
      · exact fun _ _ h => absurd h hbackslash
    | escaped c hnewline => rfl

/-- What stands between delimiters is left when they are taken away. -/
theorem unquote_literal (a b : Char) (body : List Char) : unquote (a :: (body ++ [b])) = body :=
  List.dropLast_concat

/-- The known names of characters are words. -/
theorem exists_of_namedCharacter? {name : String}
    (h : (Parser.namedCharacter? name).isSome = true) :
    ∃ c cs, name.toList = c :: cs ∧ beginsWord c = true ∧ cs.all beginsWord = true := by
  have hcases : name = "eps" ∨ name = "epsilon" ∨ name = "blank" ∨ name = "tab" ∨
      name = "newline" := by
    unfold Parser.namedCharacter? at h
    split at h
    all_goals simp_all
  rcases hcases with rfl | rfl | rfl | rfl | rfl
  · exact ⟨'e', "ps".toList, by decide⟩
  · exact ⟨'e', "psilon".toList, by decide⟩
  · exact ⟨'b', "lank".toList, by decide⟩
  · exact ⟨'t', "ab".toList, by decide⟩
  · exact ⟨'n', "ewline".toList, by decide⟩

/-- The name of a character behind a dollar sign is the next token where a symbol may stand. -/
theorem Next.named {name : String} {cs : List Char} (hname : name.toList = c :: cs)
    (hc : beginsWord c = true) (hcs : cs.all beginsWord = true) (hskips : SkipsBlanks ignored)
    (gap : Gap) (hrest : Apart rest) :
    Next ⟨[.char, .base], ignored⟩ .namedCharacter ('$' :: name.toList) rest
      (gap.chars ++ ('$' :: name.toList ++ rest)) := by
  have hlex : Lexes [.char, .base] .namedCharacter ('$' :: name.toList) rest := by
    rw [hname]
    exact Lexes.named hc hcs fun a ha => (of_endsLexeme (hrest a ha)).2.1
  have hread : ignored.contains .namedCharacter = false :=
    hskips.contains_eq_false (by decide) (by decide) (by decide)
  exact .behind_gap hskips (.inr rfl) gap hlex hread rfl

namespace Written.Symbol

/-- A symbol begins with a token with which no name, movement or bracket begins, unless its mode is
in force. -/
theorem next_base (x : Written.Symbol) (hskips : SkipsBlanks ignored) (gap : Gap)
    (rest : List Char) :
    ∃ kind value after, (kind = .invalid ∨ kind = .string) ∧
      Next ⟨[.base], ignored⟩ kind value after (gap.chars ++ (x.text ++ rest)) := by
  -- What begins a symbol in its mode is an invalid character or a text outside of it.
  have hinvalid : ignored.contains .invalid = false :=
    hskips.contains_eq_false (by decide) (by decide) (by decide)
  have hstring : ignored.contains .string = false :=
    hskips.contains_eq_false (by decide) (by decide) (by decide)
  cases x with
  | quoted c =>
    have hlex : Lexes [.base] .invalid ['\''] (c.text ++ ['\''] ++ rest) := Lexes.quote_base
    have hnext := Next.behind_gap hskips (.inl rfl) gap hlex hinvalid (by decide)
    exact ⟨_, _, _, .inl rfl, hnext⟩
  | named name known =>
    have hlex : Lexes [.base] .invalid ['$'] (name.toList ++ rest) := Lexes.dollar_base
    have hnext := Next.behind_gap hskips (.inl rfl) gap hlex hinvalid (by decide)
    exact ⟨_, _, _, .inl rfl, hnext⟩
  | string body =>
    have hlex : Lexes [.base] .string (string body).text rest := Lexes.string (by decide) body
    exact ⟨_, _, _, .inr rfl, .behind_gap hskips (.inl rfl) gap hlex hstring rfl⟩

/-- A quoted character is read as it is written, whatever follows it: the rule for symbols finds the
quoted token and takes off its quotes and the backslash. -/
theorem reads_quoted (c : LiteralChar '\'') (hskips : SkipsBlanks ignored) (gap : Gap) :
    RuleReads 2 ⟨[.base], ignored⟩ "condition" (gap.chars ++ ((quoted c).text ++ rest))
      (·.bare = (quoted c).node) rest := by
  have hlex : Lexes [.char, .base] .quotedCharacter (quoted c).text rest :=
    Lexes.quoted (by decide) c
  have hread : ignored.contains .quotedCharacter = false :=
    hskips.contains_eq_false (by decide) (by decide) (by decide)
  have hnext := Next.behind_gap hskips (.inr rfl) gap hlex hread rfl
  refine .choose_branch rfl hnext rfl rfl (.leaf (l := .character) rfl fun depth _ start => ?_)
  refine (Reads.expect hnext (by decide)).bind fun token htoken => ?_
  rw [htoken.kind_eq]
  refine Reads.pure ?_
  -- The value is the text of the token without its quotes and backslashes.
  have hvalue : Parser.literalValue token = .ofList [c.value] := by
    have hbody := unescape_flatMap_text [c]
    rw [List.flatMap_singleton] at hbody
    unfold Parser.literalValue
    rw [htoken.value_eq, String.toList_ofList, text, unquote_literal, hbody]
    rfl
  show Node.character (Parser.literalValue token) .invalid = _
  rw [hvalue]
  rfl

/-- A character is read by its name, as the character that is known under this name. An unknown name
would be an error. -/
theorem reads_named {name : String} (known : (Parser.namedCharacter? name).isSome = true)
    (hskips : SkipsBlanks ignored) (gap : Gap) (hrest : Apart rest) :
    RuleReads 2 ⟨[.base], ignored⟩ "condition" (gap.chars ++ ((named name known).text ++ rest))
      (·.bare = (named name known).node) rest := by
  obtain ⟨c, cs, hname, hc, hcs⟩ := exists_of_namedCharacter? known
  have hnext := Next.named hname hc hcs hskips gap hrest
  refine .choose_branch rfl hnext rfl rfl (.leaf (l := .character) rfl fun depth _ start => ?_)
  refine (Reads.expect hnext (by decide)).bind fun token htoken => ?_
  -- Without its dollar sign the token is the name that was written.
  have hname : String.ofList (token.value.toList.drop 1) = name := by
    rw [htoken.value_eq, String.toList_ofList, List.drop_one, List.tail_cons, String.ofList_toList]
  have hvalue : Parser.namedCharacter? (.ofList (token.value.toList.drop 1)) =
      some ((Parser.namedCharacter? name).get known) := by
    rw [hname, Option.some_get]
  rw [htoken.kind_eq]
  dsimp only
  rw [hvalue]
  exact Reads.pure rfl

/-- A string is read as it is written. -/
theorem reads_string (body : List (LiteralChar '"')) (hskips : SkipsBlanks ignored) (gap : Gap) :
    RuleReads 2 ⟨[.base], ignored⟩ "condition" (gap.chars ++ ((string body).text ++ rest))
      (·.bare = (string body).node) rest := by
  have hlex : Lexes [.char, .base] .string (string body).text rest := Lexes.string (by decide) body
  have hread : ignored.contains .string = false :=
    hskips.contains_eq_false (by decide) (by decide) (by decide)
  have hnext := Next.behind_gap hskips (.inr rfl) gap hlex hread rfl
  refine .choose_branch rfl hnext rfl rfl (.leaf (l := .string) rfl fun depth _ start => ?_)
  refine (Reads.expect hnext (by decide)).bind fun token htoken => ?_
  -- Reading the literal undoes the escapes with which it was written.
  have hvalue : Parser.literalValue token = .ofList (body.map LiteralChar.value) := by
    unfold Parser.literalValue
    rw [htoken.value_eq, String.toList_ofList, text, unquote_literal, unescape_flatMap_text]
  rw [htoken.kind_eq, if_neg (by decide)]
  refine Reads.pure ?_
  show Node.string (Parser.literalValue token) .invalid = _
  rw [hvalue]
  rfl

/-- A symbol is read as it is written. -/
theorem reads_condition (x : Symbol) (hskips : SkipsBlanks ignored) (gap : Gap)
    (hrest : Apart rest) :
    RuleReads 2 ⟨[.base], ignored⟩ "condition" (gap.chars ++ (x.text ++ rest))
      (·.bare = x.node) rest := by
  cases x with
  | quoted c => exact reads_quoted c hskips gap
  | named name known => exact reads_named known hskips gap hrest
  | string body => exact reads_string body hskips gap

end Written.Symbol

/-! ## Tapes -/

/-- What is for a named tape stands behind its name and a colon. -/
theorem Written.OnTape.text_append {α : Type} (gap : Gap) (t : α → List Char) (tape : Name) (x : α)
    (rest : List Char) : OnTape.text gap t ⟨some tape, x⟩ ++ rest =
      tape.text ++ (gap.chars ++ ':' :: (gap.chars ++ (t x ++ rest))) := by
  unfold text
  simp only [List.append_assoc, List.cons_append]

/-- A name ends in front of a colon. -/
theorem Apart.colon (gap : Gap) : Apart (gap.chars ++ ':' :: rest) :=
  Apart.gap gap (Apart.cons (by decide))

/-- A colon is the next token. -/
theorem Next.colon (hskips : SkipsBlanks ignored) (gap : Gap) :
    Next ⟨[.base], ignored⟩ .colon [':'] rest (gap.chars ++ ':' :: rest) :=
  .behind_gap hskips (.inl rfl) gap Lexes.colon
    (hskips.contains_eq_false (by decide) (by decide) (by decide)) (by decide)

/-- A value for a named tape is read as it is written. -/
theorem reads_qualified (tape : Name) (hskips : SkipsBlanks ignored) (first gap : Gap)
    {rule : String} {n depth : Nat} {start : Location} {node : Node} (hdepth : n ≤ depth)
    (h : RuleReads n ⟨[.base], ignored⟩ rule (gap.chars ++ (value ++ rest)) (·.bare = node) rest) :
    Reads ⟨[.base], ignored⟩ (Parser.qualified (RuleTable.standard.call depth) rule start)
      (first.chars ++ (tape.text ++ (gap.chars ++ ':' :: (gap.chars ++ (value ++ rest)))))
      (·.bare = .qualified tape.id node .invalid) rest := by
  refine (tape.reads_identifier hskips first (Apart.colon gap)).bind fun id hid => ?_
  refine (Reads.expect (Next.colon hskips gap) (by decide)).bind fun _ _ => ?_
  refine (h.call hdepth).bind fun x hx => ?_
  refine (Reads.spanFrom start).bind fun span _ => Reads.pure ?_
  show Node.qualified id.bare x.bare .invalid = _
  rw [hid, hx]

/-- No value for a named tape begins with a token that is no name. -/
theorem fails_qualified {text after : List Char} {rule : String} {depth : Nat} {start : Location}
    (hnext : Next ⟨[.base], ignored⟩ kind value after text) (hkind : kind ≠ .identifier) :
    Fails ⟨[.base], ignored⟩ (Parser.qualified (RuleTable.standard.call depth) rule start)
      text := by
  have hkinds : [TokenKind.identifier].contains kind = false := by
    rw [List.contains_cons, beq_eq_false_iff_ne.2 hkind]
    rfl
  exact ((Fails.expect hnext hkinds).bind).bind

namespace Written.TapeSymbol

/-- A symbol for a tape is read as it is written. -/
theorem reads (x : TapeSymbol) (hskips : SkipsBlanks ignored) (first gap : Gap)
    (hrest : Apart rest) :
    RuleReads 4 ⟨[.base], ignored⟩ "tape_symbol" (first.chars ++ (x.text gap ++ rest))
      (·.bare = x.node) rest := by
  obtain ⟨_ | tape, symbol⟩ := x
  · -- The symbol does not begin with a name, so it is for no named tape.
    obtain ⟨kind, value, after, hkind, hnext⟩ := symbol.next_base hskips first rest
    have hne : kind ≠ .identifier := by
      rcases hkind with rfl | rfl <;> decide
    have hfails : RuleFails 3 ⟨[.base], ignored⟩ "qualified_symbol"
        (first.chars ++ (symbol.text ++ rest)) :=
      .leaf (l := .qualifiedSymbol) rfl fun _ _ _ => fails_qualified hnext hne
    have hreads := (symbol.reads_condition hskips first hrest).mono (by decide : 2 ≤ 3)
    exact .alternative rfl (List.forall_mem_singleton.2 hfails) hreads
  · rw [text, OnTape.text_append]
    refine .alternative_head rfl ?_
    refine .leaf (l := .qualifiedSymbol) rfl fun depth hdepth start => ?_
    exact reads_qualified tape hskips first gap hdepth (symbol.reads_condition hskips gap hrest)

end Written.TapeSymbol

/-- Movements are written with one character each. -/
theorem Lexes.shift (d : Direction) (hrest : Apart rest) :
    ∃ kind, [TokenKind.shiftLeft, .shiftRight, .noShift].contains kind = true ∧
      Lexes [.base] kind [d.toChar] rest := by
  cases d with
  | left => exact ⟨.shiftLeft, by decide, Lexes.shiftLeft⟩
  | right => exact ⟨.shiftRight, by decide, Lexes.shiftRight⟩
  | stay => exact ⟨.noShift, by decide, Lexes.noShift fun c hc => (of_endsLexeme (hrest c hc)).2.2⟩

namespace Written.TapeShift

/-- A movement begins with its only character. -/
theorem next_direction (d : Direction) (hskips : SkipsBlanks ignored) (gap : Gap)
    (hrest : Apart rest) :
    ∃ kind, [TokenKind.shiftLeft, .shiftRight, .noShift].contains kind = true ∧
      Next ⟨[.base], ignored⟩ kind [d.toChar] rest (gap.chars ++ (d.toChar :: rest)) := by
  obtain ⟨kind, hkind, hlex⟩ := Lexes.shift d hrest
  have hread : ignored.contains kind = false := by
    refine hskips.contains_eq_false ?_ ?_ ?_ <;>
    · rintro rfl
      exact absurd hkind (by decide)
  have hhead : [d.toChar].head?.any isSpace = false := by
    cases d <;> decide
  exact ⟨kind, hkind, .behind_gap hskips (.inl rfl) gap hlex hread hhead⟩

/-- A movement is read as it is written. -/
theorem reads_direction (d : Direction) (hskips : SkipsBlanks ignored) (gap : Gap)
    (hrest : Apart rest) :
    RuleReads 1 ⟨[.base], ignored⟩ "shift" (gap.chars ++ (d.toChar :: rest))
      (·.bare = .shift d .invalid) rest := by
  refine .leaf (l := .shift) rfl fun depth _ start => ?_
  obtain ⟨kind, hkind, hnext⟩ := next_direction d hskips gap hrest
  refine (Reads.expect hnext hkind).bind fun token htoken => ?_
  have hdirection : token.value.toList.head?.bind Direction.ofChar? = some d := by
    rw [htoken.value_eq, String.toList_ofList]
    exact d.ofChar?_toChar
  rw [hdirection]
  exact Reads.pure rfl

/-- A movement for a tape is read as it is written, with the name of the tape in front of it or
without. -/
theorem reads (x : TapeShift) (hskips : SkipsBlanks ignored) (first gap : Gap)
    (hrest : Apart rest) :
    RuleReads 3 ⟨[.base], ignored⟩ "tape_shift" (first.chars ++ (x.text gap ++ rest))
      (·.bare = x.node) rest := by
  obtain ⟨_ | tape, d⟩ := x
  · -- Without a tape the movement comes first, so the rule for a named tape fails and the other one
    -- is tried.
    obtain ⟨kind, hkind, hnext⟩ := next_direction d hskips first hrest
    have hne : kind ≠ .identifier := by
      rintro rfl
      exact absurd hkind (by decide)
    have hfails : RuleFails 2 ⟨[.base], ignored⟩ "qualified_shift"
        (first.chars ++ (d.toChar :: rest)) :=
      .leaf (l := .qualifiedShift) rfl fun _ _ _ => fails_qualified hnext hne
    have hreads := (reads_direction d hskips first hrest).mono (by decide : 1 ≤ 2)
    exact .alternative rfl (List.forall_mem_singleton.2 hfails) hreads
  · rw [text, OnTape.text_append]
    refine .alternative_head rfl ?_
    refine .leaf (l := .qualifiedShift) rfl fun depth hdepth start => ?_
    exact reads_qualified tape hskips first gap hdepth (reads_direction d hskips gap hrest)

end Written.TapeShift

/-- No movement begins with a symbol, even if a tape is named in front of it. So the rule for
movements leaves what is written like symbols to other rules. -/
theorem Written.TapeSymbol.fails_tape_shift (x : TapeSymbol) (hskips : SkipsBlanks ignored)
    (first gap : Gap) (rest : List Char) :
    RuleFails 3 ⟨[.base], ignored⟩ "tape_shift" (first.chars ++ (x.text gap ++ rest)) := by
  -- The single movements are neither symbols nor names.
  have hshift : ∀ {kind value after text}, kind = .invalid ∨ kind = .string ∨ kind = .identifier →
      Next ⟨[.base], ignored⟩ kind value after text →
      RuleFails 1 ⟨[.base], ignored⟩ "shift" text := by
    rintro kind value after text hkind hnext
    refine .leaf (l := .shift) rfl fun _ _ _ => (Fails.expect hnext ?_).bind
    rcases hkind with rfl | rfl | rfl <;> decide
  obtain ⟨_ | tape, symbol⟩ := x
  · obtain ⟨kind, value, after, hkind, hnext⟩ := symbol.next_base hskips first rest
    have hne : kind ≠ .identifier := by
      rcases hkind with rfl | rfl <;> decide
    have hqualified : RuleFails 2 ⟨[.base], ignored⟩ "qualified_shift"
        (first.chars ++ (symbol.text ++ rest)) :=
      .leaf (l := .qualifiedShift) rfl fun _ _ _ => fails_qualified hnext hne
    have hsingle := (hshift (hkind.imp_right .inl) hnext).mono (by decide : 1 ≤ 2)
    refine .alternative rfl
      (List.forall_mem_cons.2 ⟨hqualified, List.forall_mem_singleton.2 hsingle⟩)
  · rw [TapeSymbol.text, OnTape.text_append]
    obtain ⟨kind, value, after, hkind, hnext⟩ := symbol.next_base hskips gap rest
    have hqualified : RuleFails 2 ⟨[.base], ignored⟩ "qualified_shift"
        (first.chars ++ (tape.text
          ++ (gap.chars ++ ':' :: (gap.chars ++ (symbol.text ++ rest))))) := by
      refine .leaf (l := .qualifiedShift) rfl fun depth hdepth start => ?_
      refine (tape.reads_identifier hskips first (Apart.colon gap)).bind_fails fun _ _ => ?_
      refine (Reads.expect (Next.colon hskips gap) (by decide)).bind_fails fun _ _ => ?_
      exact ((hshift (hkind.imp_right .inl) hnext).call hdepth).bind
    have hsingle : RuleFails 2 ⟨[.base], ignored⟩ "shift"
        (first.chars ++ (tape.text
          ++ (gap.chars ++ ':' :: (gap.chars ++ (symbol.text ++ rest))))) :=
      (hshift (.inr (.inr rfl)) (tape.next hskips first (Apart.colon gap))).mono (by decide)
    exact .alternative rfl
      (List.forall_mem_cons.2 ⟨hqualified, List.forall_mem_singleton.2 hsingle⟩)

/-! ## Lists -/

section Lists

variable {α : Type} {n : Nat} {name element : String} {gap : Gap} {t : α → List Char}
  {node : α → Node}

/-- A rule reads elements of a list as they are written. -/
structure ReadsElements (n : Nat) (element : String) (gap : Gap) (t : α → List Char)
    (node : α → Node) :
    Prop where
  /-- No element begins with a closing bracket. -/
  next : ∀ {ignored}, SkipsBlanks ignored → ∀ x {rest}, Apart rest → ∃ kind value after,
    kind ≠ .rightBracket ∧ Next ⟨[.base], ignored⟩ kind value after (gap.chars ++ (t x ++ rest))
  /-- Each element is read. -/
  reads : ∀ {ignored}, SkipsBlanks ignored → ∀ x {rest}, Apart rest →
    RuleReads n ⟨[.base], ignored⟩ element (gap.chars ++ (t x ++ rest)) (·.bare = node x) rest

/-- Names are read in lists, one behind the other. -/
theorem Written.Name.readsElements (gap : Gap) :
    ReadsElements 1 "identifier" gap Name.text fun name => .identifier name.id where
  next hskips x _ hrest := ⟨_, _, _, by decide, x.next hskips gap hrest⟩
  reads hskips x _ hrest := x.reads hskips gap hrest

/-- Symbols are read in lists, with or without the name of a tape. -/
theorem Written.TapeSymbol.readsElements (gap : Gap) :
    ReadsElements 4 "tape_symbol" gap (TapeSymbol.text gap) TapeSymbol.node where
  next := by
    rintro _ hskips ⟨_ | tape, symbol⟩ rest -
    · obtain ⟨kind, value, after, hkind, hnext⟩ := symbol.next_base hskips gap rest
      refine ⟨kind, value, after, ?_, hnext⟩
      rcases hkind with rfl | rfl <;> decide
    · rw [text, OnTape.text_append]
      exact ⟨_, _, _, by decide, tape.next hskips gap (Apart.colon gap)⟩
  reads hskips x _ hrest := x.reads hskips gap gap hrest

/-- Movements are read in lists, with or without the name of a tape. -/
theorem Written.TapeShift.readsElements (gap : Gap) :
    ReadsElements 3 "tape_shift" gap (TapeShift.text gap) TapeShift.node where
  next := by
    rintro _ hskips ⟨_ | tape, d⟩ rest hrest
    · obtain ⟨kind, hkind, hnext⟩ := next_direction d hskips gap hrest
      refine ⟨kind, _, _, ?_, hnext⟩
      rintro rfl
      exact absurd hkind (by decide)
    · rw [text, OnTape.text_append]
      exact ⟨_, _, _, by decide, tape.next hskips gap (Apart.colon gap)⟩
  reads hskips x _ hrest := x.reads hskips gap gap hrest

/-- An opening bracket is the next token. -/
theorem Next.leftBracket (hskips : SkipsBlanks ignored) (gap : Gap) :
    Next ⟨[.base], ignored⟩ .leftBracket ['['] rest (gap.chars ++ '[' :: rest) :=
  .behind_gap hskips (.inl rfl) gap Lexes.leftBracket
    (hskips.contains_eq_false (by decide) (by decide) (by decide)) (by decide)

/-- A closing bracket is the next token. -/
theorem Next.rightBracket (hskips : SkipsBlanks ignored) (gap : Gap) :
    Next ⟨[.base], ignored⟩ .rightBracket [']'] rest (gap.chars ++ ']' :: rest) :=
  .behind_gap hskips (.inl rfl) gap Lexes.rightBracket
    (hskips.contains_eq_false (by decide) (by decide) (by decide)) (by decide)

/-- A comma is the next token. -/
theorem Next.comma (hskips : SkipsBlanks ignored) (gap : Gap) :
    Next ⟨[.base], ignored⟩ .comma [','] rest (gap.chars ++ ',' :: rest) :=
  .behind_gap hskips (.inl rfl) gap Lexes.comma
    (hskips.contains_eq_false (by decide) (by decide) (by decide)) (by decide)

/-- The elements of a list are read one after the other, with commas between them, up to the closing
bracket, if each of them is read in front of either. -/
theorem ReadsElements.elementsWithin (h : ReadsElements n element gap t node)
    (hskips : SkipsBlanks ignored) {depth : Nat} (hdepth : n ≤ depth) (x : α) (xs : List α)
    {steps : Nat} (hsteps : xs.length < steps) (before : List Node) :
    Reads ⟨[.base], ignored⟩
      (Parser.elementsWithin .comma (RuleTable.standard.call depth element) steps before)
      (elementsText gap (t x) (xs.map t) ++ rest)
      (fun nodes => nodes.map Node.bare = before.reverse.map Node.bare ++ node x :: xs.map node)
      (gap.chars ++ ']' :: rest) := by
  -- By induction on the elements; the first one is kept apart from the others, since each is read
  -- before it is known whether a comma follows.
  induction xs generalizing x steps before with
  | nil =>
    obtain ⟨steps, rfl⟩ := Nat.exists_eq_add_one_of_ne_zero (by omega : steps ≠ 0)
    have htext : elementsText gap (t x) ([].map t) ++ rest =
        gap.chars ++ (t x ++ (gap.chars ++ ']' :: rest)) := by
      simp only [List.map_nil, elementsText, List.append_assoc, List.singleton_append]
    have hapart : Apart (gap.chars ++ ']' :: rest) := Apart.gap gap (Apart.cons (by decide))
    rw [htext]
    refine Reads.elementsWithin_singleton ((h.reads hskips x hapart).call hdepth)
      (Next.rightBracket hskips gap) (by decide) fun last hlast => ?_
    rw [List.reverse_cons, List.map_append, List.map_singleton, hlast, List.map_nil]
  | cons y ys ih =>
    obtain ⟨steps, rfl⟩ := Nat.exists_eq_add_one_of_ne_zero (by omega : steps ≠ 0)
    have htext : elementsText gap (t x) ((y :: ys).map t) ++ rest =
        gap.chars ++ (t x ++
          (gap.chars ++ ',' :: (elementsText gap (t y) (ys.map t) ++ rest))) := by
      simp only [List.map_cons, elementsText, List.append_assoc, List.cons_append]
    have hapart : Apart (gap.chars ++ ',' :: (elementsText gap (t y) (ys.map t) ++ rest)) :=
      Apart.gap gap (Apart.cons (by decide))
    rw [htext]
    refine Reads.elementsWithin_cons ((h.reads hskips x hapart).call hdepth) (Next.comma hskips gap)
      fun first hfirst => ?_
    refine (ih y (Nat.lt_of_succ_lt_succ hsteps) (first :: before)).imp fun nodes hnodes => ?_
    rw [hnodes, List.reverse_cons, List.map_append, List.map_singleton, hfirst, List.append_assoc,
      List.singleton_append, List.map_cons]

/-- There are no more elements than characters. -/
theorem length_lt_length_elementsText (gap : Gap) (x : List Char) (xs : List (List Char)) :
    xs.length < (elementsText gap x xs).length := by
  induction xs generalizing x with
  | nil =>
    simp only [elementsText, List.length_append, List.length_nil, List.length_singleton]
    omega
  | cons y ys ih =>
    have hrest := ih y
    simp only [elementsText, List.length_append, List.length_cons]
    omega

/-- The first element stands behind a gap, and ends there. -/
theorem exists_elementsText_append (gap : Gap) (x : List Char) (xs : List (List Char))
    (rest : List Char) :
    ∃ more, Apart more ∧ elementsText gap x xs ++ rest = gap.chars ++ (x ++ more) := by
  cases xs with
  | nil =>
    refine ⟨gap.chars ++ ']' :: rest, Apart.gap gap (Apart.cons (by decide)), ?_⟩
    simp only [elementsText, List.append_assoc, List.singleton_append]
  | cons y ys =>
    refine ⟨gap.chars ++ ',' :: (elementsText gap y ys ++ rest),
      Apart.gap gap (Apart.cons (by decide)), ?_⟩
    simp only [elementsText, List.append_assoc, List.cons_append]

/-- A list is read as it is written, in its brackets, whatever follows it. It has at least one
element, as all lists that can be written have. -/
theorem ReadsElements.list (h : ReadsElements n element gap t node) (hskips : SkipsBlanks ignored)
    (hfind : RuleTable.standard.find? name =
      some (.list element (some (.leftBracket, .rightBracket)) .comma)) (first :
        Gap) (xs : List α) :
    RuleReads (n + 1) ⟨[.base], ignored⟩ name (first.chars ++ (listText gap (xs.map t) ++ rest))
      (fun list => list.items.map Node.bare = xs.map node) rest := by
  cases xs with
  | nil =>
    have htext : listText gap ([].map t) ++ rest = '[' :: (gap.chars ++ ']' :: rest) := by
      simp only [List.map_nil, listText, List.cons_append, List.append_assoc, List.nil_append]
    rw [htext]
    refine .bracketed hfind (Next.leftBracket hskips first) fun depth hdepth start => ?_
    exact Reads.bracketed_nil (Q := fun nodes => nodes.map Node.bare = [].map node)
      (Next.leftBracket hskips.newline first) (Next.rightBracket hskips.newline gap) rfl
  | cons x xs =>
    have htext : listText gap ((x :: xs).map t) ++ rest =
        '[' :: (elementsText gap (t x) (xs.map t) ++ rest) := rfl
    rw [htext]
    refine .bracketed hfind (Next.leftBracket hskips first) fun depth hdepth start => ?_
    -- The first element does not begin with the closing bracket, so the list is not taken for the
    -- empty one.
    have hnext : ∃ kind value after, kind ≠ .rightBracket ∧
        Next ⟨[.base], .newline :: ignored⟩ kind value after
          (elementsText gap (t x) (xs.map t) ++ rest) := by
      obtain ⟨more, hapart, hmore⟩ := exists_elementsText_append gap (t x) (xs.map t) rest
      rw [hmore]
      exact h.next hskips.newline x hapart
    obtain ⟨kind, value, after, hkind, hnext⟩ := hnext
    have hopen : Next (Settings.ignore [.newline] ⟨[.base], ignored⟩) .leftBracket ['[']
        (elementsText gap (t x) (xs.map t) ++ rest)
        (first.chars ++ '[' :: (elementsText gap (t x) (xs.map t) ++ rest)) :=
      Next.leftBracket hskips.newline first
    refine Reads.bracketed_elements (Q := fun nodes => nodes.map Node.bare = (x :: xs).map node)
      hopen hnext hkind (fun steps hsteps => ?_) (Next.rightBracket hskips.newline gap)
    have hlength := length_lt_length_elementsText gap (t x) (xs.map t)
    rw [List.length_append] at hsteps
    rw [List.length_map] at hlength
    exact h.elementsWithin hskips.newline hdepth x xs (by omega) []

end Lists

end MachineLang
