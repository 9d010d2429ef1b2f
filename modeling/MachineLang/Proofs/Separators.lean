import MachineLang.Proofs.BraceSeams
import MachineLang.Proofs.ProgramFollowing
import MachineLang.Proofs.Spans

/-!
# Statements and their separators

Two bodies, one behind the other, read as both do when a line end or a semicolon stands between them
(`readBody_append`). Blanks alone are enough as well if no transition of a finite or of a pushdown
automaton stands in front of them, or if the text behind them does not begin with what such a
transition may go on with (`Resumes`).
-/

namespace MachineLang

open MachineLang.Parser

variable {text rest gap joint t value : List Char} {kind : TokenKind} {node : Node} {c : Char}

/-! ## Where statements may end -/

/-- The text begins with what a transition in front of it may go on with: the word in front of
symbols for the stacks, or symbols for the tapes and movements on them. -/
def Resumes (text : List Char) : Prop :=
  (∃ rest, Next ⟨[.base], lineBlanks⟩ .identifier "push".toList rest text) ∨
    ∃ node rest, Recognizer.symbols lineBlanks text node rest ∧
      (Recognizer.shifts lineBlanks).Begins rest

/-- A token that may stand behind a statement is next, and no movements on the tapes are. -/
structure Opens (text : List Char) : Prop where
  /-- A token that may stand behind a statement is next. -/
  exists_next : ∃ kind ∈ openingKinds, ∃ value rest, Next ⟨[.base], lineBlanks⟩ kind value rest text
  /-- No movements are next. -/
  shifts : ¬ (Recognizer.shifts lineBlanks).Begins text

/-- A character that ends a word is a blank or a separator. -/
theorem isSpace_or_of_mem_wordEnds (hc : c ∈ wordEnds) :
    Written.isSpace c = true ∨ c = '\n' ∨ c = ';' :=
  of_mem_wordEnds (p := fun c => Written.isSpace c = true ∨ c = '\n' ∨ c = ';') (by decide) hc

/-- A line end is next where it stands, since a line does not skip it. -/
theorem Next.lineEnd (rest : List Char) :
    Next ⟨[.base], lineBlanks⟩ .newline ['\n'] rest ('\n' :: rest) :=
  .token Lexes.newline (by decide)

/-- A semicolon is next where it stands, whatever follows it. -/
theorem Next.semicolon (rest : List Char) :
    Next ⟨[.base], lineBlanks⟩ .semicolon [';'] rest (';' :: rest) :=
  .token (Lexes.single (by decide)) (by decide)

namespace Opens

/-- Blanks do not matter to what may stand behind a statement. -/
theorem blanks (hgap : gap.all Written.isSpace = true) (h : Opens text) : Opens (gap ++ text) := by
  obtain ⟨⟨kind, hkind, value, rest, hnext⟩, hshifts⟩ := h
  refine ⟨⟨kind, hkind, value, rest, (Next.blanks_iff .body (by decide) hgap).2 hnext⟩,
    fun hbegins => hshifts ?_⟩
  exact ((Recognizer.PassesBlanks.shifts .body).begins_iff hgap).1 hbegins

/-- No movements begin with a separator. -/
theorem of_separator (hnext : Next ⟨[.base], lineBlanks⟩ kind value rest text)
    (hkind : kind = .newline ∨ kind = .semicolon) : Opens text := by
  have hkinds : kind ∈ openingKinds ∧ kind ∉ Recognizer.shiftsKinds := by
    rcases hkind with rfl | rfl <;> decide
  exact ⟨⟨kind, hkinds.1, value, rest, hnext⟩,
    fun hbegins => hkinds.2 (Recognizer.kind_of_shifts hnext hbegins)⟩

/-- Blanks and separators in front do not matter. -/
theorem append (hjoint : ∀ c ∈ joint, c ∈ wordEnds) (h : Opens text) : Opens (joint ++ text) := by
  -- By induction on the separators. A blank passes the question on to what is behind it; a line end
  -- or a semicolon answers it.
  induction joint with
  | nil => exact h
  | cons c joint ih =>
    obtain ⟨hc, hothers⟩ := List.forall_mem_cons.1 hjoint
    rcases isSpace_or_of_mem_wordEnds hc with hspace | rfl | rfl
    · have hblank : [c].all Written.isSpace = true := by
        rw [List.all_cons, hspace]
        rfl
      rw [List.cons_append, ← List.singleton_append]
      exact (ih hothers).blanks hblank
    · exact of_separator (.lineEnd _) (.inl rfl)
    · exact of_separator (.semicolon _) (.inr rfl)

end Opens

/-- No quote comes first in what may stand behind a statement, because no statement begins with one,
so that the lexeme there would be invalid. -/
theorem Opens.head_ne (h : Opens text) : ∀ c ∈ text.head?, c ≠ '\'' := by
  rintro c hc rfl
  obtain ⟨cs, rfl⟩ : ∃ cs, text = '\'' :: cs := List.head?_eq_some_iff.1 hc
  obtain ⟨kind, hkind, value, rest, hnext⟩ := h.exists_next
  have hkinds : ∀ kind ∈ openingKinds, kind ≠ .invalid := by decide
  -- No lexeme of a statement begins with a quote: what is cut there is invalid.
  have hfirst : ∀ {kind : TokenKind} {value rest : List Char}, Lexes [.base] kind value rest →
      kind ≠ .invalid →
      value ++ rest ≠ '\'' :: cs := by
    intro kind value rest hlex hkind heq
    obtain ⟨c, value, rfl⟩ := List.exists_cons_of_ne_nil hlex.value_ne
    exact (hlex.first_ne hkind).1 (List.cons.inj heq).1
  generalize htext : '\'' :: cs = text at hnext
  cases hnext with
  | token hlex => exact hfirst hlex (hkinds kind hkind) htext.symm
  | stop => cases htext
  | @skip skipped _ _ hlex hskip =>
    refine hfirst hlex ?_ htext.symm
    rintro rfl
    exact absurd hskip (by decide)

namespace Quiet

/-- Blanks do not matter to whether anything of a transition goes on. -/
theorem blanks (hgap : gap.all Written.isSpace = true) (h : Quiet text) : Quiet (gap ++ text) where
  colon _ _ hnext := h.colon _ _ ((Next.blanks_iff .body (by decide) hgap).1 hnext)
  push _ _ hnext := h.push _ _ ((Next.blanks_iff .body (by decide) hgap).1 hnext)
  shifts hbegins := h.shifts (((Recognizer.PassesBlanks.shifts .body).begins_iff hgap).1 hbegins)
  condition _ _ hnode := h.condition _ _ ((Recognizer.PassesBlanks.condition .body hgap).1 hnode)
  symbols _ _ hnode := h.symbols _ _ ((Recognizer.PassesBlanks.symbols .body hgap).1 hnode)

/-- Nothing of a transition goes on in front of a semicolon, if no movements follow it. -/
theorem of_semicolon (hmore : ¬ (Recognizer.shifts lineBlanks).Begins rest) :
    Quiet (';' :: rest) := by
  have hnext := Next.semicolon rest
  refine ⟨fun _ _ h => ?_, fun _ _ h => ?_, fun hbegins => ?_, fun node rest' hnode => ?_,
    fun node rest' hnode => ?_⟩
  · exact absurd (hnext.unique .body (by decide) h).1 (by decide)
  · exact absurd (hnext.unique .body (by decide) h).1 (by decide)
  · exact absurd (Recognizer.kind_of_shifts hnext hbegins) (by decide)
  · rw [Recognizer.end_of_condition .body hnext (by decide) hnode]
    exact hmore
  · rw [Recognizer.end_of_symbols hnext (by decide) (by decide) (by decide) hnode]
    exact hmore

/-- Nothing goes on where the text behind a statement does not resume a transition. -/
theorem of_opens (h : Opens text) (hmore : ¬ Resumes text) : Quiet text := by
  obtain ⟨⟨kind, hkind, value, rest, hnext⟩, hshifts⟩ := h
  have hkinds : ∀ kind ∈ openingKinds, kind ≠ .colon ∧ kind ≠ .leftBracket := by decide
  obtain ⟨hcolon, hbracket⟩ := hkinds kind hkind
  refine ⟨fun _ _ h => ?_, fun value rest h hpush => ?_, hshifts, fun node rest hnode hbegins => ?_,
    fun node rest hnode hbegins => hmore (.inr ⟨node, rest, hnode, hbegins⟩)⟩
  · exact hcolon (hnext.unique .body (by decide) h).1
  · refine hmore (.inl ⟨rest, ?_⟩)
    rw [← hpush, String.toList_ofList]
    exact h
  · -- A symbol that movements follow is one for a tape, for behind a name there is no colon then.
    refine hmore (.inr ⟨_, rest, Recognizer.symbols_of_tapeSymbol hnext hbracket (.inr ⟨?_, hnode⟩),
      hbegins⟩)
    rintro ⟨_, _, hqualified⟩
    obtain ⟨_, _, _, _, _, htape, hcolon, -⟩ := Recognizer.qualified_iff.1 hqualified
    obtain rfl := Recognizer.end_of_condition .body htape (by decide) hnode
    exact absurd (Recognizer.kind_of_shifts hcolon hbegins) (by decide)

/-- In front of a separator nothing goes on, nor does it behind blanks and separators where nothing
goes on: a statement that is complete ends there. -/
theorem append (hjoint : ∀ c ∈ joint, c ∈ wordEnds) (h : Opens text)
    (hquiet : '\n' ∈ joint ∨ ';' ∈ joint ∨ Quiet text) : Quiet (joint ++ text) := by
  induction joint with
  | nil => exact (hquiet.resolve_left List.not_mem_nil).resolve_left List.not_mem_nil
  | cons c joint ih =>
    obtain ⟨hc, hothers⟩ := List.forall_mem_cons.1 hjoint
    rcases isSpace_or_of_mem_wordEnds hc with hspace | rfl | rfl
    · have hne : ∀ {d : Char}, Written.isSpace d = false → d ∈ c :: joint → d ∈ joint := by
        rintro d hd (_ | ⟨_, hmem⟩)
        · rw [hspace] at hd
          exact absurd hd.symm Bool.false_ne_true
        · exact hmem
      have hquiet' := ih hothers (hquiet.imp (hne (by decide)) (.imp_left (hne (by decide))))
      have hblank : [c].all Written.isSpace = true := by
        rw [List.all_cons, hspace]
        rfl
      rw [List.cons_append, ← List.singleton_append]
      exact hquiet'.blanks hblank
    · exact of_newline (.lineEnd _)
    · exact of_semicolon (h.append hothers).shifts

end Quiet

/-- A statement may end in front of what opens, if it may not go on or nothing of it does. -/
theorem Opens.endsStatement {J : Splice} (h : Opens (t ++ J.rest'))
    (hquiet : node.mayGoOn = true → Quiet (t ++ J.rest')) :
    EndsStatement J node t where
  operands := .inr fun kind value rest hnext => by
    have hkinds : ∀ kind ∈ openingKinds, infixOperators.lookup kind = none := by decide
    obtain ⟨kind', hkind', value', rest', hnext'⟩ := h.exists_next
    rw [(hnext.unique .body (by decide) hnext').1]
    exact hkinds kind' hkind'
  shifts := h.shifts
  continues hgoes := .stop (hquiet hgoes)

/-! ## At the closing brace -/

/-- A lexeme is a text of the rule for its kind. -/
theorem Lexes.exists_matches {modes : List LexMode} (h : Lexes modes kind value rest)
    (hkind : kind ≠ .invalid) :
    ∃ r ∈ activeRules modes, r.kind = kind ∧ r.pattern.Matches value := by
  obtain ⟨r, hr, hrule, hmunch⟩ := h.exists_rule hkind
  have hpos : 0 < r.pattern.munch (value ++ rest) := hmunch ▸ List.length_pos_of_ne_nil h.value_ne
  obtain ⟨v, hfront, hmatches, hlength⟩ := Pattern.exists_of_munch_pos hpos
  obtain rfl : v = value := by
    rw [List.prefix_iff_eq_take.1 hfront, ← hlength, hmunch, List.take_left]
  exact ⟨r, hr, hrule, hmatches⟩

/-- A comment goes on up to the end of the line: with any other character behind it, it would have
taken this one as well. -/
theorem Lexes.eq_newline_of_comment (h : Lexes [.base] .comment value (c :: rest)) : c = '\n' := by
  have hrule : ∀ r ∈ activeRules [.base], r.kind = .comment → r = .comment := by decide
  obtain ⟨r, hr, hkind, hmatches⟩ := h.exists_matches (by decide)
  obtain rfl := hrule r hr hkind
  by_contra hc
  have hset : ∀ {cs : List Char}, (Pattern.star (.set (.noneOf [.one '\n']))).Matches cs →
      (Pattern.star (.set (.noneOf [.one '\n']))).Matches (cs ++ [c]) := by
    intro cs hcs
    rw [Pattern.matches_star_set_iff] at hcs ⊢
    refine List.forall_mem_append.2 ⟨hcs, List.forall_mem_singleton.2 ?_⟩
    simp [CharSet.contains, SetItem.contains, Ne.symm hc]
  obtain ⟨cs, rfl, hcs⟩ := Pattern.matches_char_seq_iff.1 hmatches
  obtain ⟨cs', rfl, hcs'⟩ := Pattern.matches_char_seq_iff.1 hcs
  -- With another character behind it, the comment would have gone on.
  have hlonger : Rule.comment.pattern.Matches (('/' :: '/' :: cs') ++ [c]) :=
    Pattern.matches_char_seq_iff.2 ⟨_, rfl, Pattern.matches_char_seq_iff.2 ⟨_, rfl, hset hcs'⟩⟩
  have hfront : ('/' :: '/' :: cs') ++ [c] <+: ('/' :: '/' :: cs') ++ c :: rest := ⟨rest, by simp⟩
  have hle := Nat.le_trans (Pattern.le_munch hlonger hfront) (h.munch_le hr)
  rw [List.length_append, List.length_singleton] at hle
  omega

/-- White space consists of blanks: spaces, tabs and carriage returns. -/
theorem Lexes.all_isSpace_of_whitespace (h : Lexes [.base] .whitespace value rest) :
    value.all Written.isSpace = true := by
  have hrule : ∀ r ∈ activeRules [.base], r.kind = .whitespace → r = .whitespace := by decide
  obtain ⟨r, hr, hkind, hmatches⟩ := h.exists_matches (by decide)
  obtain rfl := hrule r hr hkind
  exact List.all_eq_true.2 (Pattern.matches_star_set_iff.1 (Pattern.matches_star_of_plus hmatches))

/-- There are only blanks in front of a closing brace that is next, where the text ends behind
it. -/
theorem Closing.exists_blanks (h : Closing .rightBrace [] text) :
    ∃ gap, text = gap ++ ['\x7d'] ∧ gap.all Written.isSpace = true := by
  obtain ⟨value, h⟩ := h
  induction h with
  | token hlex =>
    have hrule : ∀ m : LexMode, ∀ r ∈ m.rules, r.kind = .rightBrace →
        r = .word .rightBrace "\x7d" := by
      intro m
      cases m <;> decide
    rw [hlex.eq_word (by decide) hrule]
    exact ⟨[], rfl, rfl⟩
  | stop hkind => cases hkind
  | @skip skipped first text hlex hskip hnext ih =>
    obtain ⟨gap, rfl, hgap⟩ := ih
    have hskipped : skipped = .whitespace ∨ skipped = .comment := by
      simpa [lineBlanks] using hskip
    rcases hskipped with rfl | rfl
    · refine ⟨first ++ gap, (List.append_assoc _ _ _).symm, ?_⟩
      rw [List.all_append, hlex.all_isSpace_of_whitespace, hgap, Bool.and_self]
    · -- Behind a comment there is a line end, which is neither a blank nor the brace.
      cases gap with
      | nil => exact absurd hlex.eq_newline_of_comment (by decide)
      | cons d gap =>
        rw [hlex.eq_newline_of_comment] at hgap
        exact absurd hgap (by simp [Written.isSpace, CharSet.contains, SetItem.contains])

/-! ## Reading a body -/

/-- The statements of the body of a machine, without places, if the text in braces is such a body
and nothing is left behind it. -/
def readBody (text : String) : Option (List Node) :=
  let result := RuleTable.standard.parse "body" (.ofSource ("\x7b" ++ text ++ "\x7d"))
  match result.1 with
  | .ok (.root statements _) =>
    if result.2.text.isEmpty then some (statements.map Node.bare) else none
  | _ => none

/-- A stream in front of a text in braces, behind the opening one. -/
structure Inside (text : String) (s : TokenStream) : Prop where
  /-- The stream is reliable. -/
  reliable : Reliable s
  /-- It reads the text in braces. -/
  source_eq : s.source = "\x7b" ++ text ++ "\x7d"
  /-- It reads line by line. -/
  settings_eq : s.settings = ⟨[.base], lineBlanks⟩
  /-- The text and the closing brace are ahead. -/
  text_eq : s.text = text.toList ++ ['\x7d']

/-- The braces take a byte each. -/
theorem utf8ByteSize_braces (text : String) :
    ("\x7b" ++ text ++ "\x7d").utf8ByteSize = text.utf8ByteSize + 2 := by
  rw [String.utf8ByteSize_append, String.utf8ByteSize_append, show "\x7b".utf8ByteSize = 1 from rfl,
    show "\x7d".utf8ByteSize = 1 from rfl]
  omega

/-- How much may be read inside of a text in braces. -/
theorem Inside.limit_eq {text : String} {s : TokenStream} (hs : Inside text s) :
    s.limit = text.utf8ByteSize + 4 := by
  rw [TokenStream.limit, hs.source_eq, utf8ByteSize_braces]

/-- How a body is read: its statements up to the closing brace, line by line, from a stream that
stands behind the opening one. Calls may be nested as deep as the length of the text allows. -/
theorem exists_inside (text : String) : ∃ s start depth, Inside text s ∧
    depth + 1 = RuleTable.standard.depthLimit ("\x7b" ++ text ++ "\x7d") ∧ ∀ result t,
      Parser.statementsWithin .rightBrace (RuleTable.standard.call depth "statement") s.limit
        (s.limit - 1) [] s = (result, t) →
      RuleTable.standard.parse "body" (.ofSource ("\x7b" ++ text ++ "\x7d")) =
        (result.map (Node.root · ⟨start, t.lastEnd⟩), t.apply .initial) := by
  generalize hsource : "\x7b" ++ text ++ "\x7d" = source
  obtain ⟨start, r, hlocation, -⟩ : ∃ start r, Parser.location (.ofSource source) = (.ok start, r) ∧
      True :=
    ⟨_, _, rfl, trivial⟩
  obtain ⟨hr, hlater, -, hstays⟩ := (Meets.location (Reliable.ofSource source)).of_eq_ok hlocation
  have hahead : r.text = '\x7b' :: (text.toList ++ ['\x7d']) := by
    have hwhole : (TokenStream.ofSource source).text = source.toList :=
      IsPlace.textFrom_eq [] source.toList
    rw [hstays.text_eq, hwhole, ← hsource, String.toList_append, String.toList_append]
    rfl
  -- The opening brace is read first; behind it the settings change to those of statements.
  have hnext : Next r.settings .leftBrace ['\x7b'] (text.toList ++ ['\x7d']) r.text := by
    rw [hahead, show r.settings = .initial from hlater.settings_eq]
    exact .token Lexes.leftBrace (by decide)
  obtain ⟨token, u, hexpect, -, hu⟩ :=
    (Reads.expect hnext (by decide : [TokenKind.leftBrace].contains .leftBrace = true)).exists_apply
      hr rfl rfl
  obtain ⟨hreliable, hlater', -, -⟩ := (Meets.expect hr [.leftBrace]).of_eq_ok hexpect
  have hordinary := (Settings.Inner.of_ofLine .line).ordinary
  have hsettings : u.settings = .initial := hlater'.settings_eq.trans hlater.settings_eq
  have hsame : u.source = source := hlater'.source_eq.trans hlater.source_eq
  obtain ⟨hs, hunbuffered, -⟩ := hreliable.apply hordinary
  obtain ⟨depth, hdepth⟩ := RuleTable.exists_depth source
  refine ⟨u.apply ⟨[.base], lineBlanks⟩, token.location, depth, ⟨hs, ?_, ?_, ?_⟩, hdepth, ?_⟩
  · rw [TokenStream.source_apply, hsame, hsource]
  · exact congrArg Unbuffered.settings hunbuffered
  · unfold TokenStream.text
    rw [hunbuffered]
    exact hu
  · intro result t h
    have hfind : RuleTable.standard.find? "body" = some
        (.root "statement" (some .leftBrace) .rightBrace) := rfl
    have hopened : Parser.opened (some .leftBrace) start r = (.ok token.location, u) := by
      show (Token.location <$> Parser.expect [.leftBrace] : Parser Location) r = _
      rw [map_eq_pure_bind, bind_apply, hexpect]
      rfl
    rw [RuleTable.parse_apply hfind hlocation, show r.source = source
      from hlater.source_eq, ← hdepth]
    show Parser.statements (some .leftBrace) .rightBrace (RuleTable.standard.call depth "statement")
      start r = _
    unfold Parser.statements
    rw [bind_apply, hopened]
    exact withSettings_statements hsettings token.location h

section

variable {body : String} {nodes : List Node}

/-- What was read when a body was read: its statements, as they are found between the braces, with
nothing left in front of the closing one. -/
theorem exists_of_readBody (h : readBody body = some nodes) : ∃ s depth news t, Inside body s ∧
    depth + 1 = RuleTable.standard.depthLimit ("\x7b" ++ body ++ "\x7d") ∧
      news.map Node.bare = nodes ∧ t.text = [] ∧
      Parser.statementsWithin .rightBrace (RuleTable.standard.call depth "statement") s.limit
        (s.limit - 1) [] s = (.ok news, t) := by
  obtain ⟨s, start, depth, hs, hdepth, hparse⟩ := exists_inside body
  obtain ⟨ht, -, -⟩ : (Parser.statementsWithin .rightBrace
      (RuleTable.standard.call depth "statement") s.limit (s.limit - 1) []).Gives s fun _ => True :=
    gives_statementsWithin (fun r hr => RuleTable.gives_call hr depth "statement") hs.reliable
  unfold readBody at h
  generalize hresult :
    Parser.statementsWithin .rightBrace (RuleTable.standard.call depth "statement") s.limit
    (s.limit - 1) [] s =
    outcome at ht
  -- A body that is read gives its statements and leaves nothing in front of the closing brace.
  obtain ⟨e | news, t⟩ := outcome
  · rw [hparse _ _ hresult] at h
    cases h
  · rw [hparse _ _ hresult] at h
    dsimp only [Except.map] at h
    rw [ht.text_apply .initial] at h
    split_ifs at h with hempty
    exact ⟨s, depth, news, t, hs, hdepth, Option.some.inj h, List.isEmpty_iff.1 hempty, hresult⟩

/-- A body is read if its statements are, on every stream that stands behind the opening brace, with
nothing left in front of the closing one. -/
theorem readBody_of_statementsWithin (h : ∀ s depth, Inside body s →
      depth + 1 = RuleTable.standard.depthLimit ("\x7b" ++ body ++ "\x7d") → ∃ news t,
        news.map Node.bare = nodes ∧ t.text = [] ∧
        Parser.statementsWithin .rightBrace (RuleTable.standard.call depth "statement") s.limit
          (s.limit - 1) [] s = (.ok news, t)) :
    readBody body = some nodes := by
  obtain ⟨s, start, depth, hs, hdepth, hparse⟩ := exists_inside body
  obtain ⟨ht, -, -⟩ : (Parser.statementsWithin .rightBrace
      (RuleTable.standard.call depth "statement") s.limit (s.limit - 1) []).Gives s fun _ => True :=
    gives_statementsWithin (fun r hr => RuleTable.gives_call hr depth "statement") hs.reliable
  obtain ⟨news, t, rfl, hempty, hresult⟩ := h s depth hs hdepth
  rw [hresult] at ht
  unfold readBody
  rw [hparse _ _ hresult]
  dsimp only [Except.map]
  rw [ht.text_apply .initial, hempty]
  rfl

end

/-! ## One body behind the other -/

/-- Blanks and separators are skipped up to the next statement, in no more rounds than there are
characters, and blanks at the end are left to the statement. -/
theorem Parser.exists_skipSeparatorsWithin {s : TokenStream} (hs : Reliable s)
    (hsettings : s.settings = ⟨[.base], lineBlanks⟩) (hgap : gap.all Written.isSpace = true)
    (hjoint : ∀ c ∈ joint, c ∈ wordEnds) (htext : s.text = gap ++ (joint ++ rest)) :
    ∃ n r gap', n ≤ joint.length ∧ Reliable r ∧ Later s r ∧ gap'.all Written.isSpace = true ∧
      r.text = gap' ++ rest ∧
      ∀ k, skipSeparatorsWithin (n + k) s = skipSeparatorsWithin k r := by
  induction joint generalizing s gap with
  | nil => exact ⟨0, s, gap, Nat.le_refl 0, hs, .refl s, hgap, htext, fun k => by rw [Nat.zero_add]⟩
  | cons c joint ih =>
    obtain ⟨hc, hothers⟩ := List.forall_mem_cons.1 hjoint
    have hseparator : ∀ {kind : TokenKind} {value : List Char}, kind.isSeparator = true →
        Next ⟨[.base], lineBlanks⟩ kind value (joint ++ rest) (c :: (joint ++ rest)) →
        ∃ n r gap', n ≤ (c :: joint).length ∧ Reliable r ∧ Later s r ∧
          gap'.all Written.isSpace = true ∧
          r.text = gap' ++ rest ∧ ∀ k, skipSeparatorsWithin (n + k) s =
            skipSeparatorsWithin k r := by
      intro kind value hkind hnext
      have hnext' : Next s.settings kind value (joint ++ rest) s.text := by
        rw [hsettings, htext]
        exact (Next.blanks_iff .body (by decide) hgap).2 hnext
      obtain ⟨token, t, ht, hlater, htook, -, hskip⟩ :=
        skipSeparatorsWithin_of_separator hs hnext' hkind
      obtain ⟨htext', -⟩ := Reliable.text_of_took hnext' (TokenKind.ne_of_isSeparator hkind) htook
      obtain ⟨n, r, gap', hn, hr, hlater', hgap', hrest, hmore⟩ :=
        ih ht (hlater.settings_eq.trans hsettings)
          (rfl : ([] : List Char).all Written.isSpace = true) hothers htext'
      refine ⟨n + 1, r, gap', Nat.succ_le_succ hn, hr, hlater.trans hlater', hgap', hrest,
        fun k => ?_⟩
      rw [Nat.add_right_comm, hskip, hmore]
    -- A blank makes the gap longer, and anything else is a separator.
    rcases isSpace_or_of_mem_wordEnds hc with hspace | rfl | rfl
    · have hblank : (gap ++ [c]).all Written.isSpace = true := by
        rw [List.all_append, hgap, List.all_cons, hspace]
        rfl
      obtain ⟨n, r, gap', hn, hr⟩ :=
        ih hs hsettings hblank hothers (by rw [htext, List.append_assoc]; rfl)
      exact ⟨n, r, gap', Nat.le_succ_of_le hn, hr⟩
    · exact hseparator (by decide) (.lineEnd _)
    · exact hseparator (by decide) (.semicolon _)

/-- A text in front of two endings, without regard to places. -/
def Splice.placeless {rest rest' : List Char} (hseam : Seam rest rest') : Splice where
  view _ := .invalid
  view' _ := .invalid
  rest := rest
  rest' := rest'
  next _ _ := rfl
  total l := ⟨l, rfl⟩
  seam := hseam

/-- Trees that look the same without regard to places are the same without places. -/
theorem Splice.map_bare_of_same {rest rest' : List Char} {hseam : Seam rest rest'}
    {nodes nodes' : List Node}
    (h : (placeless hseam).Same (fun f => List.map (Node.relocated f)) nodes nodes') :
    nodes.map Node.bare = nodes'.map Node.bare := by
  have hbare : (Node.bare : Node → Node) = Node.relocated fun _ => .invalid :=
    funext fun node => node.relocated_invalid.symm
  rw [hbare]
  exact h

/-- There are no more statements than characters, since every statement takes at least one. So the
rounds of the loop are enough for longer texts as well. -/
theorem RuleTable.length_le_of_statementsWithin {s t : TokenStream} (hs : Reliable s)
    {closing : TokenKind} {depth : Nat} {nodes : List Node}
    (h : Parser.statementsWithin closing (standard.call depth "statement") s.limit (s.limit - 1) []
      s = (.ok nodes, t)) :
    nodes.length ≤ s.text.length := by
  -- Every statement takes some text.
  have hstep : ∀ t, Reliable t → (Parser.statement closing (standard.call depth "statement")).Meets
      t fun found r =>
      ∀ node ∈ found, r.text.length < t.text.length := by
    intro t ht
    refine (Meets.limit ht).bind fun steps _ _ _ hlimit => ?_
    subst hlimit
    refine (meets_skipSeparatorsWithin ht _).bind fun _ r hr hlater _ => ?_
    refine (Meets.check hr closing).bind fun closed q hq hlater' _ => ?_
    split_ifs
    · exact (Meets.next hq).bind fun _ q' hq' _ _ => Meets.pure hq' fun node hnode =>
        absurd hnode (by simp)
    · have hitem : (standard.call depth "statement").Meets q (Grows q q.nextPlace) :=
        meets_call (fun _ hrule _ _ hs hplace hstart => Combinator.meets_read hrule hs hplace
          hstart) (by decide) hq
      refine hitem.bind fun node q' hq' _ hnode => Meets.pure hq' fun _ _ => ?_
      exact Nat.lt_of_lt_of_le hnode.length_lt (ht.length_text_le hq (hlater.trans hlater'))
  have hcollect : (Parser.collect
      (Parser.statement closing (standard.call depth "statement"))).Meets s fun nodes _ =>
      nodes.length ≤ s.text.length := by
    refine Meets.collect hs (I := fun nodes t => nodes.length + t.text.length ≤ s.text.length) ?_ ?_
    · rw [List.length_nil, Nat.zero_add]
    · intro nodes t ht hlater hI
      refine (hstep t ht).imp fun found r _ _ hfound => ?_
      cases found with
      | none =>
        show nodes.reverse.length ≤ _
        rw [List.length_reverse]
        omega
      | some node =>
        have hlt := hfound node rfl
        show (node :: nodes).length + _ ≤ _
        rw [List.length_cons]
        omega
  rw [← collect_statement] at h
  exact (hcollect.of_eq_ok h).2.2

section

variable {first second : String} {s s' t : TokenStream} {item item' : Parser Node}
  {nodes : List Node} {tail : List Char}

/-- In front of something else the statements of a body are read that are read in front of the
closing brace; then the stream stands in front of what follows, perhaps with blanks between. -/
theorem Inside.statementsWithin_front (hseam : Seam ['\x7d'] tail) (hs : Inside first s)
    (hitem : Follows (.placeless hseam) ⟨[.base], lineBlanks⟩
      (fun t => Closes (.placeless hseam) t ∧ Stands (.placeless hseam) ⟨[.base], lineBlanks⟩ t)
      (Splice.Same (.placeless hseam) Node.relocated) (EndsStatement (.placeless hseam)) item item')
    (hitem' : ∀ s, Reliable s → item'.Gives s fun _ => True) (hopens : Opens tail)
    (hquiet : ∀ node ∈ nodes, node.mayGoOn = true → Quiet tail)
    (h : Parser.statementsWithin .rightBrace item s.limit (s.limit - 1) [] s = (.ok nodes, t))
    (ht : t.text = []) (hs' : Reliable s') (hsettings' : s'.settings = ⟨[.base], lineBlanks⟩)
    (htext' : s'.text = first.toList ++ tail) (hle : s.limit ≤ s'.limit) :
    ∃ (news : List Node) (left : Nat) (r : TokenStream) (gap : List Char),
      news.map Node.bare = nodes.map Node.bare ∧ Reliable r ∧ Later s' r ∧
      gap.all Written.isSpace = true ∧ r.text = gap ++ tail ∧
      s'.limit ≤ left + first.toList.length ∧
      ∀ more, Parser.statementsWithin .rightBrace item' s'.limit (nodes.length + more) [] s' =
        Parser.statementsWithin .rightBrace item' left more news.reverse r := by
  have hblank : ∀ {gap : List Char} {node : Node}, gap.all Written.isSpace = true →
      (node.mayGoOn = true → Quiet tail) →
      EndsStatement (.placeless hseam) node gap := fun hgap hnode =>
    (hopens.blanks hgap).endsStatement fun hgoes => (hnode hgoes).blanks hgap
  -- In front of the closing brace only blanks are left, which end every statement in front of the
  -- tail as well.
  obtain ⟨text, htext, -, news, hnews, -, hmore⟩ := Beside.statementsWithin (J := .placeless hseam)
    (Q := fun t => EndsPlain (.placeless hseam) t ∧ ∀ node ∈ nodes,
      EndsStatement (.placeless hseam) node t)
    (fun t h => ⟨h.ends, fun node _ => h.endsStatement node⟩) (fun _ => And.left)
    (fun text h => by
      obtain ⟨gap, rfl, hgap⟩ := (ht ▸ h).exists_blanks
      exact ⟨gap, rfl, (@hblank _ (.root [] .invalid) hgap fun h => by cases h).toEndsPlain,
        fun node hnode => hblank hgap (hquiet node hnode)⟩)
    hitem hitem' (fun node hnode t h => h.2 node hnode) hs.reliable hs.settings_eq h
  obtain rfl : nodes = news := hnews
  obtain rfl : first.toList = text := List.append_cancel_right (hs.text_eq.symm.trans htext)
  have hbeside : Beside (.placeless hseam) first.toList s s' :=
    ⟨hs.reliable, hs', hsettings'.trans hs.settings_eq.symm, rfl, hle, hs.text_eq, [], rfl,
      rfl, htext'⟩
  obtain ⟨news, left, text, r, r', hsame, hbeside', hlater, hend, -, hmin, hall⟩ :=
    hmore s' s'.limit hbeside hle
  obtain ⟨gap', hgap', -, hahead⟩ := hbeside'.exists_gap
  obtain ⟨gap, hgap, hblanks⟩ := (ht ▸ hend).exists_blanks
  obtain rfl : text = gap := List.append_cancel_right (hbeside'.text_eq.symm.trans hgap)
  refine ⟨news, left, r', gap' ++ text, (Splice.map_bare_of_same hsame).symm, hbeside'.reliable',
    hlater, ?_, ?_, ?_, fun more => ?_⟩
  · rw [List.all_append, hgap', hblanks, Bool.and_self]
  · rw [List.append_assoc]
    exact hahead
  · rwa [Nat.min_self] at hmin
  · rw [hall, List.append_nil]

/-- The statements of a body are read as they are where another body ends with them, behind whatever
was read before: the same closing brace comes behind both. -/
theorem Inside.statementsWithin_back (hs : Inside second s) (hseam : Seam [] [])
    (hitem : Follows (.placeless hseam) ⟨[.base], lineBlanks⟩
      (fun t => Closes (.placeless hseam) t ∧ Stands (.placeless hseam) ⟨[.base], lineBlanks⟩ t)
      (Splice.Same (.placeless hseam) Node.relocated) (EndsStatement (.placeless hseam)) item item')
    (hitem' : ∀ s, Reliable s → item'.Gives s fun _ => True)
    (h : Parser.statementsWithin .rightBrace item s.limit (s.limit - 1) [] s = (.ok nodes, t))
    (ht : t.text = []) :
    Opens (second.toList ++ ['\x7d']) ∧
      ∀ r left more before gap, Reliable r → r.settings = ⟨[.base], lineBlanks⟩ →
        gap.all Written.isSpace = true → r.text = gap ++ (second.toList ++ ['\x7d']) →
        s.limit ≤ r.limit → s.limit ≤ left →
        ∃ (news : List Node) (t' : TokenStream), news.map Node.bare = nodes.map Node.bare ∧
          t'.text = [] ∧
          Parser.statementsWithin .rightBrace item' left (nodes.length + more) before r =
            (.ok (before.reverse ++ news), t') := by
  -- Behind the closing brace nothing follows in either text.
  have hstop : ∀ text, Closing .rightBrace [] text → Closes (.placeless hseam) text := by
    rintro text ⟨value, hnext⟩
    have hend : Next ⟨[.base], lineBlanks⟩ .endOfInput [] [] [] := .stop rfl rfl rfl (by decide)
    have hends : EndsPlain (.placeless hseam) [] :=
      ⟨.inr fun _ _ _ hnext => (hend.unique .body (by decide) hnext).1 ▸ rfl, fun hbegins =>
        absurd (Recognizer.kind_of_shifts hend hbegins) (by decide)⟩
    exact hends.rightBrace (t := text) (by rw [← List.append_nil text] at hnext; exact hnext)
  obtain ⟨text, htext, hcloses, news, hnews, -, hmore⟩ :=
    Beside.statementsWithin (J := .placeless hseam) (fun _ => id) (fun _ => Closes.ends)
      (fun text h => ⟨text, (List.append_nil text).symm, hstop text (ht ▸ h)⟩) hitem hitem'
      (fun node _ _ h => h.endsStatement node) hs.reliable hs.settings_eq h
  obtain rfl : nodes = news := hnews
  obtain rfl : second.toList ++ ['\x7d'] = text :=
    hs.text_eq.symm.trans (htext.trans (List.append_nil text))
  have hopens : Opens (second.toList ++ ['\x7d']) := by
    obtain ⟨kind, hkind, value, rest, hnext⟩ := hcloses.opens
    have hshifts := hcloses.ends.shifts
    rw [show (second.toList ++ ['\x7d']) ++ (Splice.placeless hseam).rest = _
      from List.append_nil _] at hnext
    rw [show (second.toList ++ ['\x7d']) ++ (Splice.placeless hseam).rest' = _
      from List.append_nil _] at hshifts
    exact ⟨⟨kind, hkind, value, rest, hnext⟩, hshifts⟩
  refine ⟨hopens, fun r left more before gap hr hsettings hgap htext' hle hleft => ?_⟩
  have hbeside : Beside (.placeless hseam) (second.toList ++ ['\x7d']) s r :=
    ⟨hs.reliable, hr, hsettings.trans hs.settings_eq.symm, rfl, hle, htext, gap, hgap, rfl,
      htext'.trans (congrArg (gap ++ ·) (List.append_nil _).symm)⟩
  obtain ⟨news, left', text, u, u', hsame, hbeside', hlater, hend, hleft', -, hall⟩ :=
    hmore r left hbeside hleft
  obtain ⟨value, hnext⟩ := hend
  have hend' : Closing .rightBrace [] u'.text := by
    obtain ⟨gap', hgap', -, hahead⟩ := hbeside'.exists_gap
    rw [hahead]
    exact ⟨value, (Next.blanks_iff .body (by decide) hgap').2 (hbeside'.text_eq ▸ ht ▸ hnext)⟩
  obtain ⟨t', ht', hempty⟩ : ∃ t', Parser.statementsWithin .rightBrace item' left' more
      (news.reverse ++ before) u' =
      (.ok _, t') ∧ t'.text = [] :=
    statementsWithin_of_closing hbeside'.reliable' (hlater.settings_eq.trans hsettings)
      hend' rfl hleft'
  refine ⟨news, t', (Splice.map_bare_of_same hsame).symm, hempty, ?_⟩
  rw [hall, ht', List.reverse_append, List.reverse_reverse]

end

/-- What stands in front of a closing brace is cut alike in front of another body, with blanks or
separators between. -/
theorem Seam.of_opens (hjoint : ∀ c ∈ joint, c ∈ wordEnds) (hne : joint ≠ []) (h : Opens text) :
    Seam ['\x7d'] (joint ++ text) := by
  obtain ⟨c, others, rfl⟩ := List.exists_cons_of_ne_nil hne
  obtain ⟨hc, hothers⟩ := List.forall_mem_cons.1 hjoint
  exact of_brace hc (h.append hothers).head_ne

/-- A body is read behind something else as it is alone, with blanks in front of it; it begins with
what may stand behind a statement, and has no more statements than characters. -/
theorem exists_statementsWithin_of_readBody {second : String} {nodes : List Node}
    (h : readBody second = some nodes) :
    Opens (second.toList ++ ['\x7d']) ∧ nodes.length ≤ second.utf8ByteSize + 1 ∧
      ∀ r depth left more before gap, Reliable r → r.settings = ⟨[.base], lineBlanks⟩ →
        gap.all Written.isSpace = true →
        r.text = gap ++ (second.toList ++ ['\x7d']) → 78 * (second.utf8ByteSize + 4) + 7 ≤ depth →
        second.utf8ByteSize + 4 ≤ r.limit → second.utf8ByteSize + 4 ≤ left →
        ∃ news t, news.map Node.bare = nodes ∧ t.text = [] ∧
          Parser.statementsWithin .rightBrace (RuleTable.standard.call depth "statement") left
            (nodes.length + more) before r =
            (.ok (before.reverse ++ news), t) := by
  obtain ⟨s, d, news, t, hs, hd, rfl, hempty, hnews⟩ := exists_of_readBody h
  rw [RuleTable.depthLimit_standard, utf8ByteSize_braces] at hd
  have hlimit := hs.limit_eq
  -- What was read in front of the closing brace is read again behind a gap, with as many steps or
  -- more.
  have hback : ∀ depth, d + 8 ≤ depth → _ :=
    fun depth hdepth => hs.statementsWithin_back (fun _ _ _ hnext => hnext)
      ((RuleFollows.statements hdepth).1.call (Settings.Inner.of_ofLine .line) fun _ => And.right)
      (fun r hr => RuleTable.gives_call hr depth "statement") hnews hempty
  have hlength := RuleTable.length_le_of_statementsWithin hs.reliable hnews
  rw [hs.text_eq, List.length_append, List.length_singleton] at hlength
  have hchars := length_toList_le second
  refine ⟨(hback _ (Nat.le_refl _)).1, by rw [List.length_map]; omega, ?_⟩
  intro r depth left more before gap hr hsettings hgap htext hdepth hle hleft
  rw [List.length_map]
  exact (hback depth (by omega)).2 r left more before gap hr hsettings hgap htext
    (by omega) (by omega)

/-- Two bodies with blanks or separators between them read as one behind the other does, with blanks
alone if no statement of the first body may go on or the second one does not resume a transition. -/
theorem readBody_append {first joint second : String} {nodes nodes' : List Node}
    (h : readBody first = some nodes) (h' : readBody second = some nodes')
    (hjoint : ∀ c ∈ joint.toList, c ∈ wordEnds) (hne : joint ≠ "")
    (hends : '\n' ∈ joint.toList ∨ ';' ∈ joint.toList ∨ (∀ node ∈ nodes, node.mayGoOn = false) ∨
      ¬ Resumes (second.toList ++ ['\x7d'])) :
    readBody (first ++ joint ++ second) = some (nodes ++ nodes') := by
  obtain ⟨s₁, d₁, news₁, t₁, hs₁, hd₁, rfl, hempty₁, hnews₁⟩ := exists_of_readBody h
  -- The second body is read as it is alone, so it begins with what may stand behind a statement.
  obtain ⟨hopens, hlength₂, hback⟩ := exists_statementsWithin_of_readBody h'
  refine readBody_of_statementsWithin fun s d hs hd => ?_
  -- How much may be read in each of the sources.
  have hjoint' : joint.toList ≠ [] := fun hnil => hne (String.toList_eq_nil_iff.1 hnil)
  have hpos := List.length_pos_of_ne_nil hjoint'
  have hbytes : (first ++ joint ++ second).utf8ByteSize =
      first.utf8ByteSize + joint.utf8ByteSize + second.utf8ByteSize := by
    rw [String.utf8ByteSize_append, String.utf8ByteSize_append]
  have hlimit₁ := hs₁.limit_eq
  have hlimit := hs.limit_eq
  rw [RuleTable.depthLimit_standard, utf8ByteSize_braces] at hd₁ hd
  rw [hbytes] at hlimit hd
  have hlength₁ := RuleTable.length_le_of_statementsWithin hs₁.reliable hnews₁
  rw [hs₁.text_eq, List.length_append, List.length_singleton] at hlength₁
  have hchars₁ := length_toList_le first
  have hchars := length_toList_le joint
  have hquiet : ∀ node ∈ news₁, node.mayGoOn = true →
      Quiet (joint.toList ++ (second.toList ++ ['\x7d'])) := by
    intro node hnode hgoes
    refine .append hjoint hopens (hends.imp_right (.imp_right fun hends => ?_))
    rcases hends with hends | hends
    · have hfalse := hends node.bare (List.mem_map_of_mem hnode)
      rw [node.mayGoOn_bare, hgoes] at hfalse
      exact absurd hfalse.symm Bool.false_ne_true
    · exact .of_opens hopens hends
  obtain ⟨news, left, r, gap, hnews, hr, hlater, hgap, hahead, hleft, hfront⟩ :=
    hs₁.statementsWithin_front (Seam.of_opens hjoint hjoint' hopens)
      ((RuleFollows.statements (by omega : d₁ + 8 ≤ d)).1.call (Settings.Inner.of_ofLine .line)
        fun _ => And.right)
      (fun r hr => RuleTable.gives_call hr d "statement") (hopens.append hjoint) hquiet hnews₁
        hempty₁ hs.reliable
      hs.settings_eq (by rw [hs.text_eq, String.toList_append, String.toList_append,
        List.append_assoc, List.append_assoc])
      (by omega)
  -- Between them, blanks and separators are skipped.
  obtain ⟨n, r', gap', hn, hr', hlater', hgap', hahead', hskip⟩ :=
    exists_skipSeparatorsWithin hr (hlater.settings_eq.trans hs.settings_eq) hgap hjoint hahead
  obtain ⟨left, rfl⟩ : ∃ k, left = n + k := ⟨left - n, by omega⟩
  have hlimit' := (hlater.trans hlater').limit_eq
  obtain ⟨rounds, hrounds⟩ : ∃ rounds, s.limit - 1 = news₁.length + (nodes'.length + rounds) :=
    ⟨s.limit - 1 - (news₁.length + nodes'.length), by omega⟩
  obtain ⟨news', t', hnews', hempty, hbehind⟩ := hback r' d left rounds news.reverse gap' hr'
    (hlater'.settings_eq.trans (hlater.settings_eq.trans hs.settings_eq)) hgap' hahead' (by omega)
      (by omega) (by omega)
  refine ⟨news ++ news', t', by rw [List.map_append, hnews, hnews'], hempty, ?_⟩
  rw [hrounds, hfront, statementsWithin_congr (hskip left), hbehind, List.reverse_reverse]

end MachineLang
