import MachineLang.Proofs.Munching

/-!
# Lexemes

The tokens of the text of a written machine. `Lexes` says that a token stands in front of a text,
under given modes. Which rules apply to it is found by its first character: a word is a keyword or
an identifier (`Lexes.word`), and a literal ends at its delimiter (`Lexes.quoted`, `Lexes.string`).
-/

namespace MachineLang

open Written

/-! ## Rules in force -/

/-- A rule in force belongs to one of the modes. -/
theorem exists_mem_rules {modes : List LexMode} {r : Rule} (hr : r ∈ activeRules modes) :
    ∃ m : LexMode, r ∈ m.rules := by
  induction modes with
  | nil => exact absurd hr List.not_mem_nil
  | cons m outer ih =>
    rcases List.mem_append.1 hr with hr | hr
    · exact ⟨m, hr⟩
    · exact ih (List.mem_of_mem_filter hr)

/-- A rule for what no other mode has a rule for is in force wherever its mode is. -/
theorem mem_activeRules_of_owner {modes : List LexMode} {m : LexMode} (hm : m ∈ modes) {r : Rule}
    (hr : r ∈ m.rules) (howns : ∀ m' : LexMode, m' ≠ m → m'.owns r.kind = false) :
    r ∈ activeRules modes := by
  induction modes with
  | nil => exact absurd hm List.not_mem_nil
  | cons m' outer ih =>
    by_cases heq : m' = m
    · subst heq
      exact List.mem_append_left _ hr
    · have houter := ih ((List.mem_cons.1 hm).resolve_left fun h => heq h.symm)
      refine List.mem_append_right _ (List.mem_filter.2 ⟨houter, ?_⟩)
      rw [howns m' heq]
      rfl

/-- A rule that takes more than every other one is the longest match. -/
theorem longestMatch_of_mem {rules : List Rule} {r : Rule} {text : List Char} (hr : r ∈ rules)
    (hpos : 0 < r.pattern.munch text)
    (hothers : ∀ r' ∈ rules, r' = r ∨ r'.pattern.munch text < r.pattern.munch text) :
    longestMatch rules text = (r.kind, r.pattern.munch text) := by
  obtain ⟨before, after, rfl, hbefore⟩ := List.eq_append_cons_of_mem hr
  obtain ⟨hfirst, hsecond⟩ := List.forall_mem_append.1 hothers
  refine longestMatch_append_cons hpos (fun r' hr' => ?_) fun r' hr' => ?_
  · exact (hfirst r' hr').resolve_left fun heq => hbefore (heq ▸ hr')
  · rcases hsecond r' (List.mem_cons_of_mem r hr') with rfl | hlt
    · exact Nat.le_refl _
    · exact Nat.le_of_lt hlt

namespace Rule

/-- The rule for strings: anything between two quotes, where a backslash takes the next character
with it. -/
def string : Rule := ⟨.string, .seq (.char '"') (.seq (.star (literalChar '"')) (.char '"'))⟩

/-- The rule for strings that do not end. -/
def unterminatedString : Rule := ⟨.unterminatedString, .seq (.char '"') (.star (literalChar '"'))⟩

/-- The rule for quoted characters: one character, or an escaped one, between single quotes. -/
def quotedCharacter : Rule :=
  ⟨.quotedCharacter, .seq (.char '\'') (.seq (literalChar '\'') (.char '\''))⟩

end Rule

/-! ## Tokens in front of a text -/

/-- Under the modes, a token of a kind takes `value` off the text and leaves `rest`. -/
structure Lexes (modes : List LexMode) (kind : TokenKind) (value rest : List Char) : Prop where
  /-- It is not the end token. -/
  kind_ne : kind ≠ .endOfInput
  /-- It takes something. -/
  value_ne : value ≠ []
  /-- It is cut off. -/
  lex_eq : ∀ l, Cursor.lex (activeRules modes) ⟨l, value ++ rest⟩ =
    (⟨kind, .ofList value, l, l.advance value⟩, ⟨l.advance value, rest⟩)

namespace Lexes

variable {modes : List LexMode} {kind : TokenKind} {value rest : List Char} {c : Char}

/-- The longest match is cut off. -/
theorem of_longestMatch (hvalue : value ≠ [])
    (h : longestMatch (activeRules modes) (value ++ rest) = (kind, value.length)) :
    Lexes modes kind value rest := by
  obtain ⟨c, cs, rfl⟩ := List.exists_cons_of_ne_nil hvalue
  refine ⟨?_, hvalue, fun l => ?_⟩
  · have hkind := longestMatch_ne_endOfInput modes (c :: cs ++ rest)
    rw [h] at hkind
    exact hkind
  · unfold Cursor.lex
    rw [List.cons_append] at h ⊢
    simp only [h, List.length_cons, Nat.add_one_ne_zero, if_false, List.take_succ_cons,
      List.drop_succ_cons, List.take_left, List.drop_left]

/-- A character to which no rule applies is an invalid token. -/
theorem invalid (hfilter : (activeRules modes).filter (fun r => !r.silent c) = []) :
    Lexes modes .invalid [c] rest := by
  refine ⟨by decide, List.cons_ne_nil c [], fun l => ?_⟩
  unfold Cursor.lex
  rw [List.singleton_append]
  simp only [longestMatch_of_filter_eq_nil rest hfilter, if_true]
  rfl

/-- If only the rule for one character applies to it, the character is a token. -/
theorem single (hfilter : (activeRules modes).filter (fun r => !r.silent c) = [⟨kind, .char c⟩]) :
    Lexes modes kind [c] rest := by
  have hmunch : (Pattern.char c).munch (c :: rest) = 1 := by
    unfold Pattern.munch Pattern.char
    rw [Pattern.munchFrom_set]
    exact if_pos (beq_self_eq_true c)
  refine of_longestMatch (List.cons_ne_nil c []) ?_
  rw [List.singleton_append, longestMatch_of_filter_eq_singleton hfilter (by rw [hmunch]; decide),
    hmunch]
  rfl

/-! ## Punctuation -/

/-- The end of a line is a token whatever stands behind it. -/
theorem newline : Lexes [.base] .newline ['\n'] rest := single (by decide)

/-- The end of a line where a symbol may stand. -/
theorem newline_char : Lexes [.char, .base] .newline ['\n'] rest := single (by decide)

/-- An opening brace is a token whatever stands behind it. -/
theorem leftBrace : Lexes [.base] .leftBrace ['\x7b'] rest := single (by decide)

/-- A closing brace is a token whatever stands behind it. -/
theorem rightBrace : Lexes [.base] .rightBrace ['\x7d'] rest := single (by decide)

/-- An opening bracket is a token whatever stands behind it. -/
theorem leftBracket : Lexes [.base] .leftBracket ['['] rest := single (by decide)

/-- A closing bracket is a token whatever stands behind it. -/
theorem rightBracket : Lexes [.base] .rightBracket [']'] rest := single (by decide)

/-- A comma is a token whatever stands behind it. -/
theorem comma : Lexes [.base] .comma [','] rest := single (by decide)

/-- A colon is a token whatever stands behind it. -/
theorem colon : Lexes [.base] .colon [':'] rest := single (by decide)

/-- A movement to the left is a token whatever stands behind it. -/
theorem shiftLeft : Lexes [.base] .shiftLeft ['<'] rest := single (by decide)

/-- A movement to the right is a token whatever stands behind it. -/
theorem shiftRight : Lexes [.base] .shiftRight ['>'] rest := single (by decide)

/-- The rules that apply to a dash. -/
theorem filter_dash : (activeRules [.base]).filter (fun r => !r.silent '-') =
    [.word .arrow "->", .word .noShift "-"] := by
  decide

/-- An arrow is longer than the dash with which it begins, and so it is the token. -/
theorem arrow : Lexes [.base] .arrow ['-', '>'] rest := by
  have harrow : (Rule.word .arrow "->").pattern.munch ('-' :: '>' :: rest) = 2 := by
    rw [Rule.munch_word]
    exact if_pos (List.prefix_append ['-', '>'] rest)
  refine of_longestMatch (List.cons_ne_nil _ _) ?_
  show longestMatch _ ('-' :: '>' :: rest) = (.arrow, 2)
  rw [longestMatch_filter, filter_dash, ← harrow]
  show longestMatch ([] ++ .word .arrow "->" :: [.word .noShift "-"]) _ = _
  refine longestMatch_append_cons (by rw [harrow]; decide) (List.forall_mem_nil _) ?_
  rw [List.forall_mem_singleton, harrow, Rule.munch_word]
  split <;> decide

/-- A dash is the sign for no movement, unless an arrow begins with it, which is longer. -/
theorem noShift (hrest : ∀ c ∈ rest.head?, c ≠ '>') : Lexes [.base] .noShift ['-'] rest := by
  have hdash : (Rule.word .noShift "-").pattern.munch ('-' :: rest) = 1 := by
    rw [Rule.munch_word]
    exact if_pos (List.prefix_append ['-'] rest)
  -- The arrow also begins with a dash, and would be longer if it matched.
  have harrow : ¬ "->".toList <+: '-' :: rest := by
    rintro ⟨more, hmore⟩
    obtain rfl : '>' :: more = rest := (List.cons.inj hmore).2
    exact hrest '>' rfl rfl
  refine of_longestMatch (List.cons_ne_nil _ _) ?_
  show longestMatch _ ('-' :: rest) = (.noShift, 1)
  rw [longestMatch_filter, filter_dash, ← hdash]
  show longestMatch ([.word .arrow "->"] ++ .word .noShift "-" :: []) _ = _
  refine longestMatch_append_cons (by rw [hdash]; decide) ?_ (List.forall_mem_nil _)
  rw [List.forall_mem_singleton, hdash, Rule.munch_word, if_neg harrow]
  decide

/-- The rule for blank space within a line. -/
def spaceRule : Rule := ⟨.whitespace, .plus (.set (.oneOf [.one ' ', .one '\t', .one '\r']))⟩

/-- Blank space is one token, up to the first character that is none of it. -/
theorem space {gap : List Char} (hmodes : modes = [.base] ∨ modes = [.char, .base]) (hne : gap ≠ [])
    (hgap : gap.all isSpace = true) (hrest : ∀ c ∈ rest.head?, isSpace c = false) :
    Lexes modes .whitespace gap rest := by
  obtain ⟨c, cs, rfl⟩ := List.exists_cons_of_ne_nil hne
  obtain ⟨hc, hcs⟩ := List.forall_mem_cons.1 (List.all_eq_true.1 hgap)
  -- The first character leaves a single rule, so the longest match is the run of blanks.
  have hfilter : (activeRules modes).filter (fun r => !r.silent c) = [spaceRule] := by
    simp only [isSpace, CharSet.contains, List.any_cons, List.any_nil, SetItem.contains,
      Bool.or_false, Bool.or_eq_true, beq_iff_eq] at hc
    rcases hmodes with rfl | rfl <;> rcases hc with rfl | rfl | rfl <;> decide
  have hmunch : spaceRule.pattern.munch (c :: (cs ++ rest)) = (c :: cs).length := by
    show (Pattern.plus (.set _)).munchFrom 0 0 (c :: cs ++ rest) = _
    rw [Pattern.munchFrom_plus_set hc hcs hrest, Nat.zero_add]
  refine of_longestMatch hne ?_
  rw [List.cons_append,
    longestMatch_of_filter_eq_singleton hfilter (by rw [hmunch]; exact Nat.succ_pos _), hmunch]
  rfl

/-! ## Words -/

/-- The rule for names: a letter or an underscore, and further ones or digits behind it. -/
def identifierRule : Rule :=
  ⟨.identifier, .seq (.set (.oneOf Rule.letter)) (.star (.set (.oneOf Rule.letterOrDigit)))⟩

/-- The rules of statements: those for spacing, those for keywords, the one for names, and
others. -/
theorem activeRules_base : activeRules [.base] =
    (Rule.base.take 3 ++ keywords.map fun word => Rule.word word.2 word.1) ++
      identifierRule :: Rule.base.drop 20 := by
  decide

/-- A character with which a word may begin is an ASCII character. -/
theorem toNat_lt_of_beginsWord (h : beginsWord c = true) : c.toNat < 128 := by
  simp only [beginsWord, CharSet.contains, Rule.letter, List.any_cons, List.any_nil,
    SetItem.contains, Bool.or_false, Bool.or_eq_true, Bool.and_eq_true, decide_eq_true_eq,
    beq_iff_eq] at h
  rcases h with h | h | rfl
  · exact Nat.lt_of_le_of_lt (show c.toNat ≤ 'Z'.toNat from h.2) (by decide)
  · exact Nat.lt_of_le_of_lt (show c.toNat ≤ 'z'.toNat from h.2) (by decide)
  · decide

/-- Only the rules for keywords and for names apply to words. -/
theorem silent_of_beginsWord (h : beginsWord c = true) {r : Rule}
    (hr : r ∈ Rule.base.take 3 ++ Rule.base.drop 20) : r.silent c = true := by
  have hall : ∀ n < 128, beginsWord (Char.ofNat n) = true →
      (Rule.base.take 3 ++ Rule.base.drop 20).all (Rule.silent (Char.ofNat n)) = true := by
    decide +kernel
  have hc := hall c.toNat (toNat_lt_of_beginsWord h)
  rw [Char.ofNat_toNat] at hc
  exact List.all_eq_true.1 (hc h) r hr

/-- A word that stands at the beginning of a longer text is a beginning of the word there, because
the character behind that one can belong to no word. -/
theorem prefix_of_prefix_append {word cs : List Char} (hword : ∀ c ∈ word, continuesWord c = true)
    (hrest : ∀ c ∈ rest.head?, continuesWord c = false) (h : word <+: cs ++ rest) :
    word <+: cs := by
  induction word generalizing cs with
  | nil => exact List.nil_prefix
  | cons a word ih =>
    obtain ⟨ha, hword⟩ := List.forall_mem_cons.1 hword
    cases cs with
    | nil =>
      obtain ⟨more, hmore⟩ := h
      -- The word would go on into the rest, whose first character cannot belong to a word.
      have hhead : a ∈ rest.head? := by
        rw [← List.nil_append rest, ← hmore]
        rfl
      rw [hrest a hhead] at ha
      exact absurd ha Bool.false_ne_true
    | cons b cs =>
      rw [List.cons_append, List.cons_prefix_cons] at h
      obtain ⟨rfl, h⟩ := h
      exact List.cons_prefix_cons.2 ⟨rfl, ih hword h⟩

/-- A keyword stands in the table with its kind. -/
theorem mem_keywords {word : String} (h : keywords.lookup word = some kind) :
    (word, kind) ∈ keywords := by
  obtain ⟨before, after, hkeywords, -⟩ := List.lookup_eq_some_iff.1 h
  rw [hkeywords]
  exact List.mem_append_right _ List.mem_cons_self

/-- A keyword is a word: it has the form of a name, and only the table of keywords tells them
apart. -/
theorem exists_of_keyword {word : String} (h : keywords.lookup word = some kind) :
    ∃ c cs, word.toList = c :: cs ∧ beginsWord c = true ∧ cs.all continuesWord = true := by
  -- A check of the table of keywords.
  have hwords : ∀ p ∈ keywords, p.1.toList.head?.any beginsWord = true ∧
      p.1.toList.tail.all continuesWord = true := by
    decide
  obtain ⟨hfirst, hothers⟩ := hwords _ (mem_keywords h)
  dsimp only at hfirst hothers
  cases hword : word.toList with
  | nil =>
    rw [hword] at hfirst
    exact absurd hfirst Bool.false_ne_true
  | cons c cs =>
    rw [hword] at hfirst hothers
    exact ⟨c, cs, rfl, hfirst, hothers⟩

/-- No keyword is a blank or the end of the source. -/
theorem kind_of_keyword {word : String} (h : keywords.lookup word = some kind) :
    kind ≠ .whitespace ∧ kind ≠ .newline ∧ kind ≠ .comment ∧ kind ≠ .endOfInput := by
  have hkinds : ∀ p ∈ keywords, p.2 ≠ .whitespace ∧ p.2 ≠ .newline ∧ p.2 ≠ .comment ∧
      p.2 ≠ .endOfInput := by
    decide
  exact hkinds _ (mem_keywords h)

section Word

variable {keyword : String} {cs : List Char} (hrest : ∀ c ∈ rest.head?, continuesWord c = false)
include hrest

/-- The rule for names takes a whole word. -/
theorem munch_identifierRule (hfirst : beginsWord c = true)
    (hothers : cs.all continuesWord = true) :
    identifierRule.pattern.munch (c :: cs ++ rest) = (c :: cs).length := by
  have hletter : (CharSet.oneOf Rule.letter).contains c = true := hfirst
  show Pattern.munchFrom _ 0 0 (c :: (cs ++ rest)) = _
  rw [identifierRule, Pattern.munchFrom_seq_set, if_pos hletter,
    Pattern.munchFrom_star_set (List.all_eq_true.1 hothers) hrest, List.length_cons]
  omega

/-- The rule for a keyword takes no more than the word that stands there. -/
theorem munch_keyword_le (hkeyword : keyword.toList.all continuesWord = true) :
    (Rule.word kind keyword).pattern.munch (cs ++ rest) ≤ cs.length := by
  rw [Rule.munch_word]
  split
  · next hprefix =>
      exact (prefix_of_prefix_append (List.all_eq_true.1 hkeyword) hrest hprefix).length_le
  · exact Nat.zero_le _

/-- The rule for a keyword takes less than any other word that stands there. -/
theorem munch_keyword_lt (hkeyword : keyword.toList.all continuesWord = true)
    (hne : keyword ≠ .ofList cs) (hcs : cs ≠ []) :
    (Rule.word kind keyword).pattern.munch (cs ++ rest) < cs.length := by
  rw [Rule.munch_word]
  split
  · next hprefix =>
    have hbegins := prefix_of_prefix_append (List.all_eq_true.1 hkeyword) hrest hprefix
    refine Nat.lt_of_le_of_ne hbegins.length_le fun hlength => hne ?_
    rw [← hbegins.eq_of_length hlength, String.ofList_toList]
  · exact List.length_pos_iff.2 hcs

/-- A word is one lexeme where no character that continues words comes behind it: a keyword if it is
listed as one, and otherwise an identifier. -/
theorem word (hfirst : beginsWord c = true) (hothers : cs.all continuesWord = true) :
    Lexes [.base] ((keywords.lookup (.ofList (c :: cs))).getD .identifier) (c :: cs) rest := by
  have hidentifier := munch_identifierRule hrest hfirst hothers
  have hne : c :: cs ≠ [] := List.cons_ne_nil c cs
  have hpos : 0 < (c :: cs).length := Nat.succ_pos _
  have hsilent : ∀ r ∈ Rule.base.take 3 ++ Rule.base.drop 20,
      r.pattern.munch (c :: cs ++ rest) = 0 :=
    fun r hr => Rule.munch_of_silent (silent_of_beginsWord hfirst hr)
  obtain ⟨hspacing, hmarks⟩ := List.forall_mem_append.1 hsilent
  have hplain : ∀ word ∈ keywords, word.1.toList.all continuesWord = true := by decide
  refine of_longestMatch hne ?_
  rw [activeRules_base]
  cases hlookup : keywords.lookup (.ofList (c :: cs)) with
  | none =>
    -- All keywords are shorter, so the rule for names takes most.
    rw [← hidentifier]
    refine longestMatch_append_cons (hidentifier ▸ hpos) ?_ fun r hr => ?_
    · rw [hidentifier, List.forall_mem_append]
      refine ⟨fun r hr => hspacing r hr ▸ hpos, List.forall_mem_map.2 fun word hword => ?_⟩
      have hother := bne_iff_ne.1 (List.lookup_eq_none_iff.1 hlookup word hword)
      exact munch_keyword_lt hrest (hplain word hword) (Ne.symm hother) hne
    · rw [hmarks r hr]
      exact Nat.zero_le _
  | some kind =>
    -- The keywords in front of this one are shorter, and the rules behind it take no more.
    obtain ⟨before, after, hkeywords, hbefore⟩ := List.lookup_eq_some_iff.1 hlookup
    have hmunch : (Rule.word kind (.ofList (c :: cs))).pattern.munch (c :: cs ++ rest) =
        (c :: cs).length := by
      rw [Rule.munch_word, String.toList_ofList, if_pos (List.prefix_append _ _)]
    rw [hkeywords] at hplain ⊢
    obtain ⟨hplainBefore, hplainAfter⟩ := List.forall_mem_append.1 hplain
    obtain ⟨-, hplainAfter⟩ := List.forall_mem_cons.1 hplainAfter
    rw [List.map_append, List.map_cons, ← List.append_assoc, List.append_assoc _ (_ :: _),
      List.cons_append, ← hmunch]
    refine longestMatch_append_cons (hmunch ▸ hpos) ?_ ?_
    · rw [hmunch, List.forall_mem_append]
      refine ⟨fun r hr => hspacing r hr ▸ hpos, List.forall_mem_map.2 fun word hword => ?_⟩
      have hother := bne_iff_ne.1 (hbefore word hword)
      exact munch_keyword_lt hrest (hplainBefore word hword) (Ne.symm hother) hne
    · rw [hmunch, List.forall_mem_append, List.forall_mem_cons]
      refine ⟨List.forall_mem_map.2 fun word hword => ?_, Nat.le_of_eq hidentifier, fun r hr => ?_⟩
      · exact munch_keyword_le hrest (hplainAfter word hword)
      rw [hmarks r hr]
      exact Nat.zero_le _

/-- A keyword is cut off as it is. -/
theorem of_keyword {word : String} (hlookup : keywords.lookup word = some kind) :
    Lexes [.base] kind word.toList rest := by
  obtain ⟨c, cs, hword, hfirst, hothers⟩ := exists_of_keyword hlookup
  have hlex := Lexes.word hrest hfirst hothers
  rw [← hword, String.ofList_toList, hlookup] at hlex
  exact hlex

end Word

/-! ## Symbols -/

/-- The rule for a single character. -/
def characterRule : Rule := ⟨.character, .set .nonBlank⟩

/-- A single character is no longer than one. -/
theorem munch_characterRule_le (cs : List Char) : characterRule.pattern.munch (c :: cs) ≤ 1 := by
  show (Pattern.set _).munchFrom 0 0 (c :: cs) ≤ 1
  rw [Pattern.munchFrom_set]
  split <;> decide

/-- The word `push` where a symbol may stand is a name and not a single character, since the longest
match counts, and it is no keyword itself. -/
theorem push (hrest : ∀ c ∈ rest.head?, continuesWord c = false) :
    Lexes [.char, .base] .identifier "push".toList rest := by
  -- Three rules look at a `p`: the word is too long for the one of single characters, and is no
  -- keyword, but it is a name.
  have hfilter : (activeRules [.char, .base]).filter (fun r => !r.silent 'p') =
      [characterRule, .word .pushdown "pushdown", .word .print "print"] ++ [identifierRule] := by
    decide
  have hothers : ['u', 's', 'h'].all continuesWord = true := by decide
  have hidentifier : identifierRule.pattern.munch ('p' :: (['u', 's', 'h'] ++ rest)) = 4 :=
    munch_identifierRule hrest (by decide) hothers
  have hkeyword : ∀ kind keyword, keyword.toList.all continuesWord = true →
      keyword ≠ .ofList "push".toList →
      (Rule.word kind keyword).pattern.munch ('p' :: (['u', 's', 'h'] ++ rest)) < 4 :=
    fun _ _ hkeyword hne => munch_keyword_lt hrest hkeyword hne (List.cons_ne_nil _ _)
  refine of_longestMatch (List.cons_ne_nil _ _) ?_
  show longestMatch _ ('p' :: (['u', 's', 'h'] ++ rest)) = (.identifier, 4)
  rw [longestMatch_filter, hfilter, ← hidentifier]
  refine longestMatch_append_cons (by rw [hidentifier]; decide) ?_ (List.forall_mem_nil _)
  rw [hidentifier, List.forall_mem_cons, List.forall_mem_cons, List.forall_mem_singleton]
  exact ⟨Nat.lt_of_le_of_lt (munch_characterRule_le _) (by decide),
    hkeyword .pushdown "pushdown" (by decide) (by decide), hkeyword .print "print" (by decide)
      (by decide)⟩

/-- Where only one mode has rules of a kind, its rule cuts off what it takes if every other rule
takes less. -/
theorem of_owner {r : Rule} {m : LexMode} (hm : m ∈ modes) (hr : r ∈ m.rules)
    (howns : ∀ m' : LexMode, m' ≠ m → m'.owns r.kind = false) (hvalue : value ≠ [])
    (hmunch : r.pattern.munch (value ++ rest) = value.length)
    (hothers : ∀ m' : LexMode, ∀ r' ∈ m'.rules, r' = r ∨
      r'.pattern.munch (value ++ rest) < value.length) :
    Lexes modes r.kind value rest := by
  refine of_longestMatch hvalue ?_
  rw [longestMatch_of_mem (mem_activeRules_of_owner hm hr howns), hmunch]
  · rw [hmunch]
    exact List.length_pos_iff.2 hvalue
  · intro r' hr'
    obtain ⟨m', hm'⟩ := exists_mem_rules hr'
    rw [hmunch]
    exact hothers m' r' hm'

/-- A quoted character is one lexeme wherever a symbol may stand, whatever comes behind its closing
quote, because each other rule takes less than the whole of it. -/
theorem quoted (hchar : .char ∈ modes) (x : LiteralChar '\'') :
    Lexes modes .quotedCharacter ('\'' :: (x.text ++ ['\''])) rest := by
  have howns : ∀ m : LexMode, m ≠ .char → m.owns Rule.quotedCharacter.kind = false := by
    intro m hm
    cases m with
    | char => exact absurd rfl hm
    | _ => rfl
  have hothers : ∀ m : LexMode, ∀ r ∈ m.rules, r = Rule.quotedCharacter ∨ r = characterRule ∨
      r.silent '\'' = true := by
    intro m
    cases m <;> decide
  have hmunch : Rule.quotedCharacter.pattern.munch ('\'' :: (x.text ++ '\'' :: rest)) =
      x.text.length + 2 := by
    have hopening : (CharSet.one '\'').contains '\'' = true := by decide
    show (Pattern.seq (.set (.one '\'')) _).munchFrom 0 0 _ = _
    rw [Pattern.munchFrom_seq_set, if_pos hopening, Pattern.munchFrom_literalChar, Pattern.char,
      Pattern.munchFrom_set, if_pos hopening]
    omega
  have hvalue : '\'' :: (x.text ++ ['\'']) ++ rest = '\'' :: (x.text ++ '\'' :: rest) := by
    rw [List.cons_append, List.append_assoc, List.singleton_append]
  have hlength : ('\'' :: (x.text ++ ['\''])).length = x.text.length + 2 := by
    rw [List.length_cons, List.length_append, List.length_singleton]
  -- The rule belongs to one mode; all others match a single character or nothing here.
  refine of_owner hchar (by decide) howns (List.cons_ne_nil _ _) (by rw [hvalue, hmunch, hlength])
    fun m r hr => ?_
  rw [hvalue, hlength]
  rcases hothers m r hr with rfl | rfl | hsilent
  · exact .inl rfl
  · exact .inr (Nat.lt_of_le_of_lt (munch_characterRule_le _) (by omega))
  · rw [Rule.munch_of_silent hsilent]
    exact .inr (Nat.succ_pos _)

/-- The rule for named characters: a dollar sign with letters behind it. -/
def namedRule : Rule := ⟨.namedCharacter, .seq (.char '$') (.plus (.set (.oneOf Rule.letter)))⟩

/-- A named character where a symbol may stand takes all the letters behind the dollar sign, which
is longer than the single character that the sign could be. -/
theorem named {c : Char} {cs : List Char} (hc : beginsWord c = true)
    (hcs : cs.all beginsWord = true) (hrest : ∀ c ∈ rest.head?, beginsWord c = false) :
    Lexes [.char, .base] .namedCharacter ('$' :: c :: cs) rest := by
  -- Behind a dollar sign two rules may match, and the one for a single character is shorter.
  have hfilter : (activeRules [.char, .base]).filter (fun r => !r.silent '$') =
      [] ++ namedRule :: [characterRule] := by
    decide
  have hmunch : namedRule.pattern.munch ('$' :: (c :: cs ++ rest)) = cs.length + 2 := by
    have hopening : (CharSet.one '$').contains '$' = true := by decide
    show (Pattern.seq (.set (.one '$')) _).munchFrom 0 0 _ = _
    rw [Pattern.munchFrom_seq_set, if_pos hopening,
      Pattern.munchFrom_plus_set hc (List.all_eq_true.1 hcs) hrest, List.length_cons]
    omega
  refine of_longestMatch (List.cons_ne_nil _ _) ?_
  rw [List.cons_append, longestMatch_filter, hfilter, longestMatch_append_cons, hmunch]
  · rfl
  · rw [hmunch]
    exact Nat.succ_pos _
  · exact List.forall_mem_nil _
  · rw [List.forall_mem_singleton, hmunch]
    exact Nat.le_trans (munch_characterRule_le _) (Nat.le_add_left 1 _)

/-- A string is one lexeme wherever the rules of statements are in force: it reaches to its closing
quote, past every quote that is escaped, whatever comes behind. -/
theorem string (hbase : .base ∈ modes) (xs : List (LiteralChar '"')) :
    Lexes modes .string ('"' :: (xs.flatMap LiteralChar.text ++ ['"'])) rest := by
  have howns : ∀ m : LexMode, m ≠ .base → m.owns Rule.string.kind = false := by
    intro m hm
    cases m with
    | base => exact absurd rfl hm
    | _ => rfl
  -- A rule of any mode is one of the three that match at a quote, or is silent there.
  have hothers : ∀ m : LexMode, ∀ r ∈ m.rules,
      r = Rule.string ∨ r = Rule.unterminatedString ∨ r = characterRule ∨ r.silent '"' = true := by
    intro m
    cases m <;> decide
  generalize hbody : xs.flatMap LiteralChar.text = body
  have hopening : (CharSet.one '"').contains '"' = true := by decide
  have hstring : Rule.string.pattern.munch ('"' :: (body ++ '"' :: rest)) = body.length + 2 := by
    show (Pattern.seq (.set (.one '"')) _).munchFrom 0 0 _ = _
    rw [Pattern.munchFrom_seq_set, if_pos hopening, ← hbody,
      Pattern.munchFrom_literalBody (by decide)]
    omega
  have hunterminated : Rule.unterminatedString.pattern.munch ('"' :: (body ++ '"' :: rest)) =
      body.length + 1 := by
    show (Pattern.seq (.set (.one '"')) _).munchFrom 0 0 _ = _
    rw [Pattern.munchFrom_seq_set, if_pos hopening, ← hbody,
      Pattern.munchFrom_star_literalChar (by decide)]
    omega
  have hvalue : '"' :: (body ++ ['"']) ++ rest = '"' :: (body ++ '"' :: rest) := by
    rw [List.cons_append, List.append_assoc, List.singleton_append]
  have hlength : ('"' :: (body ++ ['"'])).length = body.length + 2 := by
    rw [List.length_cons, List.length_append, List.length_singleton]
  refine of_owner hbase (by decide) howns (List.cons_ne_nil _ _) (by rw [hvalue, hstring, hlength])
    fun m r hr => ?_
  rw [hvalue, hlength]
  rcases hothers m r hr with rfl | rfl | rfl | hsilent
  · exact .inl rfl
  · -- The rule for strings that do not end stops in front of the closing quote.
    rw [hunterminated]
    exact .inr (Nat.lt_succ_self _)
  · exact .inr (Nat.lt_of_le_of_lt (munch_characterRule_le _) (by omega))
  · rw [Rule.munch_of_silent hsilent]
    exact .inr (Nat.succ_pos _)

/-- A quote where no symbol may stand. -/
theorem quote_base : Lexes [.base] .invalid ['\''] rest := invalid (by decide)

/-- A dollar sign where no symbol may stand. -/
theorem dollar_base : Lexes [.base] .invalid ['$'] rest := invalid (by decide)

end Lexes

end MachineLang
