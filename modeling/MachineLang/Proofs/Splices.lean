import MachineLang.Proofs.Outcomes
import MachineLang.Proofs.Seams
import MachineLang.Tree.Relocated

/-!
# Two streams side by side

A `Splice` is one place where two sources may differ: a text stands in front of one ending in the
one source and in front of another ending in the other one, and what is cut inside of it is cut
alike. Places are compared through a view of each source, since the text need not stand at the same
place in both. Two streams stand `Beside` each other if the same text is ahead of them, up to the
ending. If the next token lies inside the text (`Stands`), both streams have the same next token
(`Beside.nextToken`), and behind it they stand beside each other again (`Beside.took`).
-/

namespace MachineLang

/-- A text in front of two endings, and how places of the two sources are compared. -/
structure Splice where
  /-- The view of places in the one source. -/
  view : Location → Location
  /-- The view of places in the other source. -/
  view' : Location → Location
  /-- The ending in the one source. -/
  rest : List Char
  /-- The ending in the other source. -/
  rest' : List Char
  /-- Moving over a character keeps two places that look the same alike. -/
  next : ∀ {l l' : Location} (c : Char), view l = view' l' → view (l.next c) = view' (l'.next c)
  /-- Every place of the one source looks like some place. -/
  total : ∀ l, ∃ l', view l = view' l'
  /-- What is cut inside the text is cut alike. -/
  seam : Seam rest rest'

/-- Settings inside of a sequence of statements: neither line ends need be skipped nor is the
end. -/
structure Settings.Inner (settings : Settings) : Prop where
  /-- The rules of statements are in force. -/
  base_mem : .base ∈ settings.modes
  /-- Only blanks are skipped. -/
  skips : SkipsBlanks settings.ignored

namespace Settings.Inner

variable {settings : Settings}

/-- One more mode may be in force. -/
theorem push (h : settings.Inner) (mode : LexMode) : (settings.push mode).Inner :=
  ⟨List.mem_cons_of_mem _ h.base_mem, h.skips⟩

/-- Line ends may be skipped inside of brackets, and the settings stay those of an inner part. -/
theorem brackets (h : settings.Inner) : (settings.ignore [.newline]).Inner :=
  ⟨h.base_mem, h.skips.newline⟩

/-- The settings of a line are such settings. -/
theorem of_ofLine (h : settings.OfLine) : settings.Inner := ⟨h.base_mem, h.skips⟩

/-- Such settings are ordinary: they skip blanks only. -/
theorem ordinary (h : settings.Inner) : settings.Ordinary :=
  ⟨h.base_mem, fun _ hkind => .inl (h.skips.isBlank (List.contains_iff_mem.2 hkind))⟩

/-- The end is not skipped, so an ending cannot be overlooked. -/
theorem endOfInput (h : settings.Inner) : settings.ignored.contains .endOfInput = false :=
  h.skips.endOfInput

/-- Every text has a next token. -/
theorem exists_next (h : settings.Inner) (text : List Char) :
    ∃ kind value rest, Next settings kind value rest text :=
  Next.exists_of_text h.skips settings.modes text

/-- A text has only one next token. -/
theorem unique (h : settings.Inner) {kind kind' : TokenKind}
    {value value' rest rest' text : List Char} (hnext : Next settings kind value rest text)
    (hnext' : Next settings kind' value' rest' text) :
    kind = kind' ∧ value = value' ∧ rest = rest' := hnext.unique h.skips h.base_mem hnext'

end Settings.Inner

/-! ## The next token of a stream -/

/-- A parser that reads a text does so on each stream in front of it. -/
theorem Reads.exists_apply {α : Type} {p : Parser α} {P : α → Prop} {settings : Settings}
    {text rest : List Char} {s : TokenStream} (h : Reads settings p text P rest) (hs : Reliable s)
    (hsettings : s.settings = settings) (htext : s.text = text) :
    ∃ a t, p s = (.ok a, t) ∧ P a ∧ t.text = rest := by
  obtain ⟨a, u, hagrees, ha, hrest⟩ := h s s.unbuffered hs.shows hsettings htext
  exact ⟨a, (p s).2, Prod.ext hagrees.value_eq rfl, ha,
    (Reliable.text_eq hagrees.shows).trans hrest⟩

/-- Reading moves over the text in front of the next token, and its place moves along with the
characters of this text. So a place tells which text was read. -/
theorem Unbuffered.skip_of_next {u : Unbuffered} {settings : Settings} {kind : TokenKind}
    {value rest text : List Char} (h : Next settings kind value rest text)
    (hsettings : u.settings = settings) (htext : u.cursor.rest = text) :
    ∃ before, text = before ++ (value ++ rest) ∧ u.skip.place = u.place.advance before ∧
      u.skip.cursor.rest = value ++ rest ∧ u.skip.settings = settings := by
  -- The induction is on the lexemes that are skipped: each is one step of the other reading, over
  -- the same characters.
  induction h generalizing u with
  | token hlex hread =>
    obtain ⟨htoken, -⟩ := token_eq (congrArg Settings.modes hsettings) htext hlex
    have hskip : u.skip = u := by
      refine skip_of_not_isIgnored (htoken ▸ hlex.kind_ne) ?_
      rw [htoken, isIgnored, hsettings, hread]
      exact Bool.false_ne_true
    rw [hskip]
    exact ⟨[], rfl, rfl, htext, hsettings⟩
  | stop hkind hvalue hrest =>
    have htoken : u.token.kind = .endOfInput := by
      have hcursor : u.cursor = ⟨u.place, []⟩ := by
        rw [← htext]
        rfl
      unfold token
      rw [hcursor]
      rfl
    rw [skip_of_end htoken, hvalue, hrest]
    exact ⟨[], rfl, rfl, htext, hsettings⟩
  | @skip skipped first text hlex hskip hnext ih =>
    obtain ⟨htoken, hpass⟩ := token_eq (congrArg Settings.modes hsettings) htext hlex
    have hplace : u.pass.place = u.place.advance first := by
      show u.token.stop = _
      rw [htoken]
    obtain ⟨before, hbefore, hskipped⟩ := ih (u := u.pass) hsettings hpass
    rw [skip_of_isIgnored (htoken ▸ hlex.kind_ne) (by rw [htoken, isIgnored, hsettings, hskip])]
    refine ⟨first ++ before, by rw [hbefore, List.append_assoc], ?_⟩
    rw [Location.advance_append, ← hplace]
    exact hskipped

namespace Reliable

variable {s t : TokenStream} {kind : TokenKind} {value rest : List Char}

/-- The next token of a stream is the next one of its text, at the place that the text in front of
it leads to, and its range goes on over its own text. -/
theorem nextToken_of_next (h : Next s.settings kind value rest s.text) :
    ∃ before, s.text = before ++ (value ++ rest) ∧
      s.nextToken = ⟨kind, .ofList value, s.place.advance before,
        (s.place.advance before).advance value⟩ := by
  obtain ⟨before, hbefore, hplace, hrest, hsettings⟩ :=
    Unbuffered.skip_of_next (u := s.unbuffered) h rfl rfl
  refine ⟨before, hbefore, ?_⟩
  rcases h.lexes with ⟨hlex, -⟩ | ⟨rfl, rfl, rfl⟩
  · obtain ⟨htoken, -⟩ := Unbuffered.token_eq (congrArg Settings.modes hsettings) hrest hlex
    show s.unbuffered.skip.token = _
    rw [htoken, hplace]
    rfl
  · -- At the end of the text the token is made up, and stands where the text ends.
    show (s.unbuffered.skip.cursor.lex _).1 = _
    have hcursor : s.unbuffered.skip.cursor = ⟨s.place.advance before, []⟩ := by
      show Cursor.mk s.unbuffered.skip.place s.unbuffered.skip.cursor.rest = _
      rw [hrest, hplace]
      rfl
    rw [hcursor]
    rfl

/-- Where a token was taken that is not the end token, the text behind it is left. -/
theorem text_of_took {token : Token} (h : Next s.settings kind value rest s.text)
    (hkind : kind ≠ .endOfInput) (htook : Took s token t) :
    t.text = rest ∧ t.place = token.stop := by
  obtain ⟨before, hbefore, hplace, hrest, hsettings⟩ :=
    Unbuffered.skip_of_next (u := s.unbuffered) h rfl rfl
  obtain ⟨_, -, htoken⟩ := nextToken_of_next h
  -- Taking a token is passing it, as it is without a buffer.
  have hstream := htook.unbuffered_eq (by rw [htook.token_eq, htoken]; exact hkind)
  rcases h.lexes with ⟨hlex, -⟩ | ⟨hend, -⟩
  · obtain ⟨-, hpass⟩ := Unbuffered.token_eq (congrArg Settings.modes hsettings) hrest hlex
    constructor
    · unfold TokenStream.text
      rw [hstream]
      exact hpass
    · show t.unbuffered.place = _
      rw [hstream, htook.token_eq]
      rfl
  · exact absurd hend hkind

/-- A token that was taken is the next one of the text, unless it is the end token. -/
theorem exists_next_of_took {token : Token} (hinner : s.settings.Inner) (htook : Took s token t)
    (hkind : token.kind ≠ .endOfInput) :
    ∃ value, Next s.settings token.kind value t.text s.text := by
  obtain ⟨kind, value, rest, hnext⟩ := hinner.exists_next s.text
  obtain ⟨_, -, htoken⟩ := nextToken_of_next hnext
  obtain rfl : token.kind = kind := by rw [htook.token_eq, htoken]
  obtain ⟨htext, -⟩ := text_of_took hnext hkind htook
  exact ⟨value, htext ▸ hnext⟩

/-- Where the end is not skipped, looking ahead gives the next token. -/
theorem exists_peek (hs : Reliable s) (hinner : s.settings.Inner) (expected : List TokenKind) :
    ∃ t, Stays s t ∧ s.peekExpecting 0 expected = (.ok s.nextToken, t) := by
  obtain ⟨t, hstays, hpeek | ⟨hend, hpeek⟩⟩ := hs.peekExpecting expected
  · exact ⟨t, hstays, hpeek⟩
  · have hvalue := (hs.shows.peekExpecting 0 expected).value_eq
    rw [hpeek, Unbuffered.ahead_zero_eq] at hvalue
    have hread : s.unbuffered.isIgnored .endOfInput = false := hinner.endOfInput
    rw [hread] at hvalue
    exact absurd hvalue (by simp)

end Reliable

/-! ## Streams side by side -/

variable {J : Splice} {t t₁ : List Char} {s s' r r' : TokenStream} {settings : Settings}
  {kind : TokenKind} {value rest : List Char}

/-- A source by itself, seen as the same on both sides. -/
def Splice.alone (rest : List Char) : Splice where
  view := id
  view' := id
  rest := rest
  rest' := rest
  next c h := congrArg (·.next c) h
  total l := ⟨l, rfl⟩
  seam _ _ _ h := h

/-- Places that look the same still do behind the same text. -/
theorem Splice.advance {l l' : Location} (h : J.view l = J.view' l') (text : List Char) :
    J.view (l.advance text) = J.view' (l'.advance text) := by
  induction text generalizing l l' with
  | nil => exact h
  | cons c text ih => exact ih (J.next c h)

/-- The same text is ahead of two streams, in front of the endings of a splice. In the other source
there may be blanks in front of the text. -/
structure Beside (J : Splice) (t : List Char) (s s' : TokenStream) : Prop where
  /-- The stream in the one source is reliable. -/
  reliable : Reliable s
  /-- The stream in the other source is reliable. -/
  reliable' : Reliable s'
  /-- The same settings are in force. -/
  settings_eq : s'.settings = s.settings
  /-- The last tokens read end at places that look the same. -/
  lastEnd_eq : J.view s.lastEnd = J.view' s'.lastEnd
  /-- The other source is no shorter. -/
  limit_le : s.limit ≤ s'.limit
  /-- The text is ahead in the one source. -/
  text_eq : s.text = t ++ J.rest
  /-- The text is ahead in the other source, behind blanks, at a place that looks the same. -/
  exists_gap : ∃ gap : List Char, gap.all Written.isSpace = true ∧
    J.view s.place = J.view' (s'.place.advance gap) ∧
    s'.text = gap ++ (t ++ J.rest')

/-- The next token lies inside the text, in the one source. -/
def Stands (J : Splice) (settings : Settings) (t : List Char) : Prop :=
  ∃ kind value t', kind ≠ .endOfInput ∧ Next settings kind value (t' ++ J.rest) (t ++ J.rest)

/-- The next token lies inside the text, in the one source, and is of one of some kinds. -/
def Starts (J : Splice) (settings : Settings) (kinds : List TokenKind) (t : List Char) : Prop :=
  ∃ kind ∈ kinds, ∃ value t', Next settings kind value (t' ++ J.rest) (t ++ J.rest)

/-- A token of one of some kinds is a token. -/
theorem Starts.stands {kinds : List TokenKind} (h : Starts J settings kinds t)
    (hkinds : .endOfInput ∉ kinds) :
    Stands J settings t := by
  obtain ⟨kind, hkind, value, t', hnext⟩ := h
  exact ⟨kind, value, t', fun hend => hkinds (hend ▸ hkind), hnext⟩

/-- There may be more kinds: what starts with one of a few starts with one of many. -/
theorem Starts.mono {kinds kinds' : List TokenKind} (h : Starts J settings kinds t)
    (hsubset : kinds ⊆ kinds') :
    Starts J settings kinds' t := by
  obtain ⟨kind, hkind, hnext⟩ := h
  exact ⟨kind, hsubset hkind, hnext⟩

/-- Where both sources look alike, the next token lies inside the text. -/
theorem Alike.stands (h : Alike J.rest J.rest' t) (hsettings : settings.OfLine) :
    Stands J settings t := by
  obtain ⟨kind, value, t', hkind, hnext, -⟩ := h settings hsettings
  exact ⟨kind, value, t', hkind, hnext⟩

/-- In front of the end there is some text. -/
theorem Stands.ne_nil (h : Stands J settings t) : t ≠ [] := by
  obtain ⟨kind, value, t', hkind, hnext⟩ := h
  rintro rfl
  have hlt := hnext.length_lt hkind
  rw [List.length_append, List.length_append, List.length_nil] at hlt
  omega

namespace Beside

/-- A stream stands beside itself, where a source is compared with itself. -/
theorem alone (hs : Reliable s) (ht : s.text = t ++ rest) : Beside (.alone rest) t s s :=
  ⟨hs, hs, rfl, rfl, Nat.le_refl _, ht, [], rfl, rfl, ht⟩

/-- Streams that stand where two streams do that stand beside each other. -/
theorem of_stays (h : Beside J t s s') (hr : Stays s r) (hr' : Stays s' r') : Beside J t r r' := by
  -- Neither place has moved, and everything else that is compared is kept.
  have hplace : r.place = s.place := congrArg Unbuffered.place hr.unbuffered_eq
  have hplace' : r'.place = s'.place := congrArg Unbuffered.place hr'.unbuffered_eq
  refine ⟨hr.reliable, hr'.reliable, ?_, ?_, ?_, ?_, ?_⟩
  · rw [hr'.later.settings_eq, hr.later.settings_eq]
    exact h.settings_eq
  · rw [hr.lastEnd_eq, hr'.lastEnd_eq]
    exact h.lastEnd_eq
  · rw [hr.later.limit_eq, hr'.later.limit_eq]
    exact h.limit_le
  · rw [hr.text_eq, h.text_eq]
  · rw [hplace, hplace', hr'.text_eq]
    exact h.exists_gap

/-- Under other settings both streams stand where they stood: settings decide how the text ahead is
cut, but they are no part of what the streams share. -/
theorem apply (h : Beside J t s s') (hordinary : settings.Ordinary) :
    Beside J t (s.apply settings) (s'.apply settings) := by
  obtain ⟨hr, hunbuffered, -⟩ := h.reliable.apply hordinary
  obtain ⟨hr', hunbuffered', -⟩ := h.reliable'.apply hordinary
  have hplace : (s.apply settings).place = s.place := congrArg Unbuffered.place hunbuffered
  have hplace' : (s'.apply settings).place = s'.place := congrArg Unbuffered.place hunbuffered'
  have hlastEnd : (s.apply settings).lastEnd = s.lastEnd := congrArg Unbuffered.lastEnd hunbuffered
  have hlastEnd' : (s'.apply settings).lastEnd = s'.lastEnd :=
    congrArg Unbuffered.lastEnd hunbuffered'
  have hsettings : (s.apply settings).settings = settings :=
    congrArg Unbuffered.settings hunbuffered
  have hsettings' : (s'.apply settings).settings = settings :=
    congrArg Unbuffered.settings hunbuffered'
  -- Settings move no place, so each part of the relation is that of the streams before.
  refine ⟨hr, hr', hsettings'.trans hsettings.symm, ?_, ?_, ?_, ?_⟩
  · rw [hlastEnd, hlastEnd']
    exact h.lastEnd_eq
  · unfold TokenStream.limit
    rw [TokenStream.source_apply, TokenStream.source_apply]
    exact h.limit_le
  · unfold TokenStream.text
    rw [hunbuffered]
    exact h.text_eq
  · rw [hplace, hplace']
    unfold TokenStream.text
    rw [hunbuffered']
    exact h.exists_gap

/-- Where the next token lies inside the text, both streams have the same next token up to its
place, and it is the next one of the other text, too. -/
theorem nextToken (h : Beside J t s s') (hinner : s.settings.Inner) (hkind : kind ≠ .endOfInput)
    (hnext : Next s.settings kind value (t₁ ++ J.rest) (t ++ J.rest)) :
    s.nextToken.relocated J.view = s'.nextToken.relocated J.view' ∧ s.nextToken.kind = kind ∧
      s.nextToken.value = .ofList value ∧ Next s'.settings kind value (t₁ ++ J.rest') s'.text := by
  obtain ⟨gap, hgap, hplace, htext'⟩ := h.exists_gap
  have hnext' := (Next.blanks_iff hinner.skips hinner.base_mem hgap).2
    (J.seam hinner.base_mem hinner.skips hkind hnext)
  rw [← h.text_eq] at hnext
  rw [← htext'] at hnext'
  have hnext'' : Next s'.settings kind value (t₁ ++ J.rest') s'.text := h.settings_eq ▸ hnext'
  obtain ⟨before, hbefore, htoken⟩ := Reliable.nextToken_of_next hnext
  obtain ⟨before', hbefore', htoken'⟩ := Reliable.nextToken_of_next hnext''
  -- What is skipped in front of the token is the same, since the same is left behind it.
  rw [h.text_eq, ← List.append_assoc, ← List.append_assoc] at hbefore
  rw [htext', ← List.append_assoc, ← List.append_assoc, ← List.append_assoc] at hbefore'
  have hfirst := List.append_cancel_right hbefore
  have hsame := List.append_cancel_right hbefore'
  rw [hfirst, ← List.append_assoc, ← List.append_assoc] at hsame
  obtain rfl := (List.append_cancel_right (List.append_cancel_right hsame)).symm
  have hstart := J.advance hplace before
  rw [← Location.advance_append] at hstart
  refine ⟨?_, by rw [htoken], by rw [htoken], hnext''⟩
  rw [htoken, htoken']
  unfold Token.relocated
  rw [hstart, J.advance hstart value]

/-- Where both streams have read the same next token, they stand beside each other behind it. -/
theorem took {token token' : Token} (h : Beside J t s s') (hinner : s.settings.Inner)
    (hkind : kind ≠ .endOfInput) (hnext : Next s.settings kind value (t₁ ++ J.rest) (t ++ J.rest))
    (hr : Reliable r) (hlater : Later s r) (htook : Took s token r) (hr' : Reliable r')
    (hlater' : Later s' r') (htook' : Took s' token' r') :
    token.relocated J.view = token'.relocated J.view' ∧ Beside J t₁ r r' := by
  obtain ⟨hsame, -, -, hnext'⟩ := h.nextToken hinner hkind hnext
  rw [← htook.token_eq, ← htook'.token_eq] at hsame
  rw [← h.text_eq] at hnext
  obtain ⟨htext, hplace⟩ := Reliable.text_of_took hnext hkind htook
  obtain ⟨htext', hplace'⟩ := Reliable.text_of_took hnext' hkind htook'
  -- Two tokens that are the same but for their places end at places that are seen as the same.
  have hstop : J.view token.stop = J.view' token'.stop := congrArg Token.stop hsame
  refine ⟨hsame, hr, hr', ?_, ?_, ?_, htext, [], rfl, ?_, htext'⟩
  · rw [hlater'.settings_eq, hlater.settings_eq]
    exact h.settings_eq
  · rw [htook.lastEnd_eq, htook'.lastEnd_eq]
    exact hstop
  · rw [hlater.limit_eq, hlater'.limit_eq]
    exact h.limit_le
  · rw [hplace, hplace']
    exact hstop

end Beside

end MachineLang
