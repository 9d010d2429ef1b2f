import MachineLang.Proofs.ProgramFollowing

/-!
# Literals of all texts

Every text can be written as a literal: a backslash stands in front of each character that would end
the literal or begin an escape, and a line end is written by its letter (`literal`). Under every
stack of modes in which the rules of statements are in force, and whatever follows, such a literal
is one token, and the rule for strings reads it as the text that was written (`literal_readsBack`).
The same goes for a single character where a symbol may stand. For the delimiter ends the token
nowhere but at its end: each character that is written is one `LiteralChar`.
-/

namespace MachineLang

open MachineLang.Parser Written

variable {modes : List LexMode} {kind : TokenKind} {kinds : List TokenKind} {value rest : List Char}
  {d : Char} {s : TokenStream}

/-! ## Writing literals -/

/-- A character as it is written between delimiters `d`. -/
def escape (d c : Char) : List Char :=
  if c = '\n' then ['\\', 'n'] else if c = '\\' ∨ c = d then ['\\', c] else [c]

/-- A text as a literal between delimiters `d`. -/
def literal (d : Char) (text : String) : List Char := d :: (text.toList.flatMap (escape d) ++ [d])

/-- A character that is written is one of a literal, and the one that is meant. -/
theorem exists_literalChar (hd : escapedChar d = d) (c : Char) :
    ∃ x : LiteralChar d, x.text = escape d c ∧ x.value = c := by
  unfold escape
  split_ifs with hnewline hescape
  · exact ⟨.escaped 'n' (by decide), rfl, hnewline.symm⟩
  · refine ⟨.escaped c hnewline, rfl, ?_⟩
    rcases hescape with rfl | rfl
    · rfl
    · exact hd
  · exact ⟨.plain c (fun h => hescape (.inr h)) (fun h => hescape (.inl h)) hnewline, rfl, rfl⟩

/-- Characters that are written are some of a literal, and the ones that are meant. -/
theorem exists_literalChars (hd : escapedChar d = d) (cs : List Char) :
    ∃ xs : List (LiteralChar d), xs.flatMap LiteralChar.text = cs.flatMap (escape d) ∧
      xs.map LiteralChar.value = cs := by
  induction cs with
  | nil => exact ⟨[], rfl, rfl⟩
  | cons c cs ih =>
    obtain ⟨x, htext, hvalue⟩ := exists_literalChar hd c
    obtain ⟨xs, htexts, hvalues⟩ := ih
    refine ⟨x :: xs, ?_, ?_⟩
    · rw [List.flatMap_cons, List.flatMap_cons, htext, htexts]
    · rw [List.map_cons, hvalue, hvalues]

/-- A literal stands for the text that was written. -/
theorem unescape_unquote_literal (hd : escapedChar d = d) (text : String) :
    unescape (unquote (literal d text)) = text.toList := by
  obtain ⟨xs, htexts, hvalues⟩ := exists_literalChars hd text.toList
  unfold literal
  rw [unquote_literal, ← htexts, unescape_flatMap_text, hvalues]

/-- A literal between double quotes is one string. -/
theorem lexes_string (hbase : .base ∈ modes) (text : String) :
    Lexes modes .string (literal '"' text) rest := by
  obtain ⟨xs, htexts, -⟩ := exists_literalChars (by decide : escapedChar '"' = '"') text.toList
  unfold literal
  rw [← htexts]
  exact Lexes.string hbase xs

/-- A character between single quotes is one quoted character. -/
theorem lexes_quoted (hchar : .char ∈ modes) (c : Char) :
    Lexes modes .quotedCharacter (literal '\'' (.singleton c)) rest := by
  obtain ⟨x, htext, -⟩ := exists_literalChar (by decide : escapedChar '\'' = '\'') c
  have hliteral : literal '\'' (.singleton c) = '\'' :: (x.text ++ ['\'']) := by
    unfold literal
    rw [String.toList_singleton, List.flatMap_singleton, htext]
  rw [hliteral]
  exact Lexes.quoted hchar x

/-! ## Reading literals -/

/-- A lexeme that is not skipped is the next token of a stream that stands in front of it. -/
theorem Reliable.nextToken_of_lexes (hlex : Lexes s.settings.modes kind value rest)
    (hread : s.settings.ignored.contains kind = false) (htext : s.text = value ++ rest) :
    s.nextToken = ⟨kind, .ofList value, s.place, s.place.advance value⟩ := by
  obtain ⟨htoken, -⟩ := Unbuffered.token_eq (u := s.unbuffered) rfl htext hlex
  have hskip : s.unbuffered.skip = s.unbuffered := by
    refine Unbuffered.skip_of_not_isIgnored (htoken ▸ hlex.kind_ne) ?_
    rw [htoken]
    exact Bool.eq_false_iff.1 hread
  unfold TokenStream.nextToken
  rw [hskip, htoken]
  rfl

/-- A lexeme that is expected is read. -/
theorem Reliable.exists_expect (hs : Reliable s) (hlex : Lexes s.settings.modes kind value rest)
    (hread : s.settings.ignored.contains kind = false) (htext : s.text = value ++ rest)
    (hkinds : kinds.contains kind = true) : ∃ t,
      Parser.expect kinds s = (.ok ⟨kind, .ofList value, s.place, s.place.advance value⟩, t) ∧
        t.text = rest := by
  have hnext : Next s.settings kind value rest s.text := htext ▸ .token hlex hread
  obtain ⟨token, t, hexpect, -, hrest⟩ := (Reads.expect hnext hkinds).exists_apply hs rfl rfl
  obtain ⟨-, -, htook, -⟩ := (Meets.expect hs kinds).of_eq_ok hexpect
  rw [← Reliable.nextToken_of_lexes hlex hread htext, ← htook.token_eq]
  exact ⟨t, hexpect, hrest⟩

/-- Under the modes, whatever follows, the text is one token, and the rule of a name reads it as a
node that has the range of the text. -/
structure ReadsBack (modes : List LexMode) (kind : TokenKind) (name : String) (value : List Char)
    (node : Span → Node) : Prop where
  /-- It is cut off as one token. -/
  lex_eq : ∀ rest l, Cursor.lex (activeRules modes) ⟨l, value ++ rest⟩ =
    (⟨kind, .ofList value, l, l.advance value⟩, ⟨l.advance value, rest⟩)
  /-- It is read as the node. -/
  parse_eq : ∀ rest s, Reliable s → s.settings.modes = modes → s.text = value ++ rest → ∃ t,
    RuleTable.standard.parse name s = (.ok (node ⟨s.place, s.place.advance value⟩), t) ∧
      t.text = rest

/-- A lexeme is read back by a leaf that expects tokens of its kind and makes the node of one. -/
theorem ReadsBack.of_leaf {name : String} {l : Leaf} {node : Span → Node}
    {make : Token → Parser Node} (hlex : ∀ rest, Lexes modes kind value rest)
    (hfind : RuleTable.standard.find? name = some (.leaf l))
    (hleaf : ∀ rule start, l.read rule start = (Parser.expect kinds >>= make))
    (hkinds : kinds.contains kind = true) (hblank : kind.isBlank = false)
    (hmake : ∀ start t, make ⟨kind, .ofList value, start, start.advance value⟩ t =
      (.ok (node ⟨start, start.advance value⟩), t)) :
    ReadsBack modes kind name value node where
  lex_eq rest := (hlex rest).lex_eq
  parse_eq rest s hs hmodes htext := by
    subst hmodes
    obtain ⟨start, t, hlocation, -⟩ : ∃ start t, Parser.location s = (.ok start, t) ∧ True :=
      ⟨_, _, rfl, trivial⟩
    obtain ⟨ht, hlater, -, hstays⟩ := (Meets.location hs).of_eq_ok hlocation
    -- A token that is no blank is skipped nowhere, whatever is ignored.
    have hread : t.settings.ignored.contains kind = false := by
      rw [hlater.settings_eq, ← Bool.not_eq_true, List.contains_iff_mem]
      intro hmem
      rcases hs.ordinary.isBlank kind hmem with hskipped | hend
      · exact Bool.false_ne_true (hblank.symm.trans hskipped)
      · exact (hlex rest).kind_ne hend
    have hplace : t.place = s.place := congrArg Unbuffered.place hstays.unbuffered_eq
    obtain ⟨r, hexpect, hrest⟩ :=
      ht.exists_expect (hlater.settings_eq ▸ hlex rest) hread (hstays.text_eq.trans htext) hkinds
    refine ⟨r, ?_, hrest⟩
    obtain ⟨depth, hdepth⟩ := RuleTable.exists_depth t.source
    rw [RuleTable.parse_apply hfind hlocation, ← hdepth]
    show (l.read _ start) t = _
    rw [hleaf, Parser.bind_apply, hexpect, hplace]
    exact hmake s.place r

/-- A literal is read as the text that was written. -/
theorem literalValue_literal (hd : escapedChar d = d) (text : String) (l l' : Location) :
    Parser.literalValue ⟨kind, .ofList (literal d text), l, l'⟩ = text := by
  unfold Parser.literalValue
  rw [String.toList_ofList, unescape_unquote_literal hd, String.ofList_toList]

/-- Every text is read back from its literal, and every character from its quoted form where a
symbol may stand. -/
theorem literal_readsBack (hbase : .base ∈ modes) :
    (∀ text : String, ReadsBack modes .string "string" (literal '"' text) (.string text)) ∧
      (.char ∈ modes → ∀ c : Char, ReadsBack modes .quotedCharacter "character"
        (literal '\'' (.singleton c)) (.character (.singleton c))) := by
  refine ⟨fun text => ?_, fun hchar c => ?_⟩
  · refine .of_leaf (fun _ => lexes_string hbase text) rfl (fun _ _ => rfl) (by decide) rfl
      fun start t => ?_
    rw [literalValue_literal (by decide)]
    rfl
  · refine .of_leaf (fun _ => lexes_quoted hchar c) rfl (fun _ _ => rfl) (by decide) rfl
      fun start t => ?_
    dsimp only
    rw [literalValue_literal (by decide)]
    rfl

/-- A text of what has to be escaped, and of what does not: a backslash, a quote, a line end,
another quote, a letter that is not an ASCII character, and a backslash at the end. -/
def awkward : String := "\\\"\n'λ\\"

/-- That text is read back, also from the start of a source where symbols of a grammar may stand; so
is a quote. -/
theorem literal_readsBack_awkward :
    literal '"' awkward = "\"\\\\\\\"\\n'λ\\\\\"".toList ∧
      (∃ t, RuleTable.standard.parse "string"
        ((TokenStream.ofSource "\"\\\\\\\"\\n'λ\\\\\"\" 'x'").apply
          ⟨[.char, .grammar, .base], lineBlanks⟩) =
            (.ok (.string awkward ⟨.start, ⟨13, 1, 13⟩⟩), t) ∧ t.text = "\" 'x'".toList) ∧
      ReadsBack [.char, .grammar, .base] .quotedCharacter "character" "'\\''".toList
        (.character "'") := by
  obtain ⟨hstrings, hcharacters⟩ := @literal_readsBack [.char, .grammar, .base] (by decide)
  have hordinary : Settings.Ordinary ⟨[.char, .grammar, .base], lineBlanks⟩ :=
    ⟨by decide, by decide⟩
  refine ⟨by decide, ?_, hcharacters (by decide) '\''⟩
  exact (hstrings awkward).parse_eq _ _ ((Reliable.ofSource _).apply hordinary).1 rfl rfl

end MachineLang
