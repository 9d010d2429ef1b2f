import MachineLang.Proofs.ProgramFollowing
import MachineLang.Proofs.Relocation
import MachineLang.Proofs.Sessions

/-!
# Programs line by line

A program behind a line end behind another program reads as both do: the statements of the first one
are followed by those of the second one, moved to where they stand (`parse_behind_line`). At the end
of the first text there is the end of the source in the one case and a line end in the other one,
and nothing of a statement goes on in front of either. So a session in which one program is run
after the other ends as it does when both are run at once (`run_at_once`).
-/

namespace MachineLang

open MachineLang.Parser

variable {settings : Settings} {kind : TokenKind} {value rest t : List Char}

/-! ## At a line end -/

/-- A line end behind a text that is at its end is the next token. -/
theorem Closing.newline (h : Closing .endOfInput rest t) (tail : List Char) :
    Next ⟨[.base], lineBlanks⟩ .newline ['\n'] tail (t ++ '\n' :: tail) := by
  obtain ⟨value, h⟩ := h
  induction h with
  | token hlex => exact absurd rfl hlex.kind_ne
  | stop => exact .token Lexes.newline (by decide)
  | skip hlex hskip _ ih =>
    rw [List.append_assoc]
    exact .skip (Lexes.newline_iff.2 hlex) hskip ih

/-- A token that is not the end token is cut alike where a line end follows. -/
theorem Next.append_newline (h : Next settings kind value rest t) (hkind : kind ≠ .endOfInput)
    (tail : List Char) :
    Next settings kind value (rest ++ '\n' :: tail) (t ++ '\n' :: tail) := by
  induction h with
  | token hlex hread =>
    rw [List.append_assoc]
    exact .token (Lexes.newline_iff.2 hlex) hread
  | stop hend => exact absurd hend hkind
  | skip hlex hskip _ ih =>
    rw [List.append_assoc]
    exact .skip (Lexes.newline_iff.2 hlex) hskip ih

/-- What is cut in front of the end is cut alike in front of a line end. -/
theorem Seam.newline (tail : List Char) : Seam [] ('\n' :: tail) := by
  intro modes ignored kind value t t' _ _ hkind h
  rw [List.append_nil, List.append_nil] at h
  exact h.append_newline hkind tail

/-- At the end of a text nothing of a transition goes on: there are neither symbols nor movements
nor the word for pushing. -/
theorem Quiet.of_end (h : Closing .endOfInput rest t) : Quiet t := by
  obtain ⟨value, h⟩ := h
  -- The end of the text is the end in the character mode as well, and no symbol begins there.
  have hsymbol : ∀ node rest, ¬ Recognizer.condition lineBlanks t node rest := by
    rintro node rest' ⟨⟨kind, value'⟩, _, ⟨hkind, hsymbol⟩, -⟩
    have hend : Next ⟨[.char, .base], lineBlanks⟩ .endOfInput value rest t :=
      h.change_modes_of_end .body (by decide) (by decide)
    obtain ⟨rfl, -⟩ := hend.unique .body (by decide) hsymbol
    exact Bool.false_ne_true hkind
  refine ⟨fun _ _ hnext => ?_, fun _ _ hnext => ?_, fun hbegins => ?_, fun node rest hnode => ?_,
    fun node rest hnode => ?_⟩
  · exact absurd (h.unique .body (by decide) hnext).1 (by decide)
  · exact absurd (h.unique .body (by decide) hnext).1 (by decide)
  · exact absurd (Recognizer.kind_of_shifts h hbegins) (by decide)
  · exact absurd hnode (hsymbol node rest)
  · obtain ⟨item, hitem⟩ := Recognizer.condition_of_symbols h (by decide) (by decide) hnode
    exact absurd hitem (hsymbol item rest)

/-! ## The two lines -/

/-- Where a place of a text stands when the text begins at the place `base`, the first one of a
line. -/
def Location.below (base l : Location) : Location :=
  ⟨base.offset + l.offset, base.line - 1 + l.line, l.column⟩

/-- A place further on in the text stands further on. -/
theorem Location.next_below (base l : Location) (c : Char) :
    base.below (l.next c) = (base.below l).next c := by
  unfold below next
  split_ifs
  · simp only [Nat.add_assoc]
  · simp only [Nat.add_assoc]

/-- The first line, in front of the end and in front of a line end. -/
def Splice.firstLine (tail : List Char) : Splice :=
  { Splice.alone [] with rest' := '\n' :: tail, seam := Seam.newline tail }

/-- The second line, at the start of its text and at the place `base`. -/
def Splice.secondLine (base : Location) : Splice where
  view := base.below
  view' := id
  rest := []
  rest' := []
  next c h := (base.next_below _ c).trans (congrArg (·.next c) h)
  total l := ⟨base.below l, rfl⟩
  seam _ _ _ h := h

/-- At the end of the first line a statement may end, in front of a line end as well. -/
theorem Splice.closes_firstLine {tail : List Char} (h : Closing .endOfInput rest t) :
    Closes (firstLine tail) t := by
  have hnext := h.newline tail
  obtain ⟨value, h⟩ := h
  exact ⟨.stop (.of_newline hnext), .inr fun kind value rest hnext' =>
    (hnext.unique .body (by decide) hnext').1 ▸ rfl, _, by decide, value, rest,
      (List.append_nil t).symm ▸ h⟩

/-- At the end of the second line a statement may end. -/
theorem Splice.closes_secondLine {base : Location} (h : Closing .endOfInput rest t) :
    Closes (secondLine base) t := by
  rw [← List.append_nil t] at h
  obtain ⟨value, hnext⟩ := h
  exact ⟨.stop (.of_end ⟨value, hnext⟩), .inr fun kind value rest hnext' =>
    (hnext.unique .body (by decide) hnext').1 ▸ rfl, _, by decide, value, rest, hnext⟩

/-! ## Reading a program -/

/-- The source from its first character on, line by line. -/
structure FromStart (source : String) (s : TokenStream) : Prop where
  /-- The stream is reliable. -/
  reliable : Reliable s
  /-- It reads the source. -/
  source_eq : s.source = source
  /-- It reads line by line. -/
  settings_eq : s.settings = ⟨[.base], lineBlanks⟩
  /-- It stands in front of the first character. -/
  place_eq : s.place = .start
  /-- No token has been read. -/
  lastEnd_eq : s.lastEnd = .start

/-- The whole source is ahead of a stream that has read nothing. -/
theorem FromStart.text_eq {source : String} {s : TokenStream} (h : FromStart source s) :
    s.text = source.toList := by
  show textFrom s.place.offset s.source.toList = _
  rw [h.place_eq, h.source_eq]
  exact IsPlace.textFrom_eq [] source.toList

/-- A stream stands where the text in front of what is ahead leads. -/
theorem Reliable.place_eq {s : TokenStream} (hs : Reliable s) {before : List Char}
    (h : s.source.toList = before ++ s.text) :
    s.place = Location.start.advance before := by
  obtain ⟨before', after, hsource, hplace⟩ := hs.isPlace
  have htext : s.text = after := by
    show textFrom s.place.offset s.source.toList = after
    rw [hplace, hsource, IsPlace.textFrom_eq]
  rw [htext, hsource] at h
  rw [hplace, List.append_cancel_right h]

/-- How a program is read: its statements up to the end, line by line, from a stream that stands at
its beginning. Calls may be nested as deep as the length of the source allows. -/
theorem exists_fromStart (source : String) : ∃ s start depth, FromStart source s ∧
    depth + 1 = RuleTable.standard.depthLimit source ∧ ∀ result t,
      Parser.statementsWithin .endOfInput (RuleTable.standard.call depth "statement") s.limit
        (s.limit - 1) [] s = (result, t) →
      RuleTable.standard.parse "module" (.ofSource source) =
        (result.map (Node.root · ⟨start, t.lastEnd⟩), t.apply .initial) := by
  have hs := Reliable.ofSource source
  obtain ⟨start, r, hlocation, -⟩ : ∃ start r, Parser.location (.ofSource source) = (.ok start, r) ∧
      True :=
    ⟨_, _, rfl, trivial⟩
  obtain ⟨hr, hlater, -, hstays⟩ := (Meets.location hs).of_eq_ok hlocation
  -- Asking for the place moves nothing, and the settings for statements change no text.
  have hordinary := (Settings.Inner.of_ofLine .line).ordinary
  have hsettings : r.settings = .initial := hlater.settings_eq
  have hsource : r.source = source := hlater.source_eq
  obtain ⟨hs', hunbuffered, -⟩ := hr.apply hordinary
  obtain ⟨depth, hdepth⟩ := RuleTable.exists_depth source
  refine ⟨r.apply ⟨[.base], lineBlanks⟩, start, depth, ⟨hs', ?_, ?_, ?_, ?_⟩, hdepth, ?_⟩
  · rw [TokenStream.source_apply, hsource]
  · exact congrArg Unbuffered.settings hunbuffered
  · show (r.apply _).unbuffered.place = _
    rw [hunbuffered]
    exact congrArg Unbuffered.place hstays.unbuffered_eq
  · rw [hr.lastEnd_apply hordinary, hstays.lastEnd_eq]
    rfl
  · intro result t h
    have hfind : RuleTable.standard.find? "module" = some (.root "statement" none .endOfInput) :=
      rfl
    rw [RuleTable.parse_apply hfind hlocation, hsource, ← hdepth]
    exact withSettings_statements hsettings start h

/-- What was read when a program was read: its statements, in a loop that begins at the beginning of
the source and ends at its end. -/
theorem exists_statementsWithin {source : String} {tree : Node} {tokens : List Token}
    (h : parseProgram source = .ok (tree, tokens)) : ∃ s depth nodes span t, FromStart source s ∧
      depth + 1 = RuleTable.standard.depthLimit source ∧ tree = .root nodes span ∧
      Parser.statementsWithin .endOfInput (RuleTable.standard.call depth "statement") s.limit
        (s.limit - 1) [] s = (.ok nodes, t) := by
  obtain ⟨s, start, depth, hs, hdepth, hparse⟩ := exists_fromStart source
  rcases hresult : Parser.statementsWithin .endOfInput (RuleTable.standard.call depth "statement")
    s.limit (s.limit - 1) [] s with
    ⟨e | nodes, t⟩
  · unfold parseProgram at h
    rw [hparse _ _ hresult] at h
    cases h
  · unfold parseProgram at h
    rw [hparse _ _ hresult] at h
    cases h
    exact ⟨s, depth, nodes, _, t, hs, hdepth, rfl, hresult⟩

/-- A program is read if its statements are, on every stream that stands at the beginning of the
source and with the depth for calls that the source is given. -/
theorem exists_of_statementsWithin {source : String} {nodes : List Node}
    (h : ∀ s depth, FromStart source s →
      depth + 1 = RuleTable.standard.depthLimit source → ∃ t,
        Parser.statementsWithin .endOfInput (RuleTable.standard.call depth "statement") s.limit
          (s.limit - 1) [] s = (.ok nodes, t)) :
    ∃ span tokens, parseProgram source = .ok (.root nodes span, tokens) := by
  obtain ⟨s, start, depth, hs, hdepth, hparse⟩ := exists_fromStart source
  obtain ⟨t, hresult⟩ := h s depth hs hdepth
  refine ⟨⟨start, t.lastEnd⟩, (t.apply .initial).tokens, ?_⟩
  unfold parseProgram
  rw [hparse _ _ hresult]
  rfl

/-! ## One program behind the other -/

/-- Where the text behind a line end behind a text begins. -/
def Location.behindLine (text : List Char) : Location := Location.start.advance (text ++ ['\n'])

/-- The start of a text stands where the text begins. -/
theorem Location.below_start (text : List Char) :
    (behindLine text).below .start = behindLine text := by
  unfold behindLine below start
  rw [advance_append, advance_cons, advance_nil, next, if_pos rfl]
  rfl

section

variable {item item' : Parser Node} {source first second : String} {s s' : TokenStream}

/-- In front of the second line the first one is read as it is alone; behind it the stream stands in
front of the second line, and so many separators may be skipped there. -/
theorem FromStart.statementsWithin_firstLine (hs : FromStart first s)
    (hs' : FromStart (first ++ "\n" ++ second) s')
    (hitem : Follows (.firstLine second.toList) ⟨[.base], lineBlanks⟩
      (fun t => Closes (.firstLine second.toList) t ∧
        Stands (.firstLine second.toList) ⟨[.base], lineBlanks⟩ t)
      (Splice.Same (.firstLine second.toList) Node.relocated)
      (EndsStatement (.firstLine second.toList)) item item')
    (hitem' : ∀ s, Reliable s → item'.Gives s fun _ => True) {nodes : List Node} {t : TokenStream}
    (h : Parser.statementsWithin .endOfInput item s.limit (s.limit - 1) [] s = (.ok nodes, t)) :
    nodes.length ≤ first.utf8ByteSize + 1 ∧ ∃ left r, Reliable r ∧ Later s' r ∧
      r.text = second.toList ∧ r.lastEnd = r.place ∧ second.utf8ByteSize + 2 ≤ left ∧
      ∀ more, Parser.statementsWithin .endOfInput item' s'.limit (nodes.length + more) [] s' =
        Parser.statementsWithin .endOfInput item' left more nodes.reverse r := by
  have hbytes : (first ++ "\n" ++ second).utf8ByteSize = first.utf8ByteSize + 1
      + second.utf8ByteSize := by
    rw [String.utf8ByteSize_append, String.utf8ByteSize_append]
    rfl
  have hlimit : s.limit = first.utf8ByteSize + 2 := by rw [TokenStream.limit, hs.source_eq]
  have hlimit' : s'.limit = first.utf8ByteSize + 1 + second.utf8ByteSize + 2 := by
    rw [TokenStream.limit, hs'.source_eq, hbytes]
  have hbeside : Beside (.firstLine second.toList) s.text s s' := by
    refine ⟨hs.reliable, hs'.reliable, hs'.settings_eq.trans hs.settings_eq.symm, ?_, ?_, ?_, [],
      rfl, ?_, ?_⟩
    · exact hs.lastEnd_eq.trans hs'.lastEnd_eq.symm
    · omega
    · exact (List.append_nil _).symm
    · exact hs.place_eq.trans hs'.place_eq.symm
    · rw [hs'.text_eq, hs.text_eq, String.toList_append, String.toList_append, List.append_assoc]
      rfl
  obtain ⟨text, htext, -, news, hnews, hlength, hmore⟩ :=
    Beside.statementsWithin (J := .firstLine second.toList) (fun _ => id) (fun _ => Closes.ends)
      (fun text h => ⟨text, (List.append_nil text).symm, Splice.closes_firstLine h⟩) hitem hitem'
      (fun node _ _ h => h.endsStatement node) hs.reliable hs.settings_eq h
  obtain rfl : nodes = news := hnews
  obtain rfl : s.text = text := htext.trans (List.append_nil text)
  refine ⟨by omega, ?_⟩
  obtain ⟨news', left, text, r, r', hsame, hbeside', hlater, hend, hleft, hmin, hall⟩ :=
    hmore s' s'.limit hbeside (by omega)
  -- The first line stands where it stands alone, so its statements are the same.
  obtain rfl : nodes = news' := by
    have hid : ∀ nodes : List Node, nodes.map (Node.relocated id) = nodes := fun nodes => by
      rw [← Node.relocatedList_eq_map, Node.relocatedList_id]
    exact (hid nodes).symm.trans (hsame.trans (hid news'))
  obtain ⟨left, rfl⟩ := Nat.exists_eq_add_one_of_ne_zero hleft
  have hsettings : r'.settings = ⟨[.base], lineBlanks⟩ := hlater.settings_eq.trans hs'.settings_eq
  have hnext : Next r'.settings .newline ['\n'] second.toList r'.text := by
    obtain ⟨gap, hgap, -, htext'⟩ := hbeside'.exists_gap
    rw [hbeside'.text_eq, show (Splice.firstLine second.toList).rest = [] from rfl,
      List.append_nil] at hend
    rw [hsettings, htext']
    exact (Next.blanks_iff .body (by decide) hgap).2 (hend.newline second.toList)
  obtain ⟨token, r'', hr, hlater', htook, hkind, hskip⟩ :=
    skipSeparatorsWithin_of_separator hbeside'.reliable' hnext (by decide)
  obtain ⟨htext, hplace⟩ := Reliable.text_of_took hnext (by decide) htook
  have hshort : s.text.length ≤ first.utf8ByteSize := by
    rw [hs.text_eq]
    exact length_toList_le first
  refine ⟨left, r'', hr, hlater.trans hlater', htext, htook.lastEnd_eq.trans hplace.symm, by omega,
    fun more => ?_⟩
  rw [hall, List.append_nil]
  exact statementsWithin_congr (hskip left)

/-- Where the second line stands it is read as it is alone, statement by statement: with the same
nodes in other places, and in as many rounds, for which enough steps are left. -/
theorem FromStart.statementsWithin_secondLine {base : Location} (hs : FromStart second s)
    (hbase : base.below .start = base)
    (hitem : Follows (.secondLine base) ⟨[.base], lineBlanks⟩
      (fun t => Closes (.secondLine base) t ∧ Stands (.secondLine base) ⟨[.base], lineBlanks⟩ t)
      (Splice.Same (.secondLine base) Node.relocated) (EndsStatement (.secondLine base)) item item')
    (hitem' : ∀ s, Reliable s → item'.Gives s fun _ => True) {nodes : List Node} {t : TokenStream}
    (h : Parser.statementsWithin .endOfInput item s.limit (s.limit - 1) [] s = (.ok nodes, t)) :
    nodes.length ≤ second.utf8ByteSize + 1 ∧
      ∀ r left more before, Reliable r → r.settings = ⟨[.base], lineBlanks⟩ →
        r.text = second.toList → r.place = base → r.lastEnd = base → s.limit ≤ r.limit →
        s.limit ≤ left →
        ∃ t', Parser.statementsWithin .endOfInput item' left (nodes.length + more) before r =
          (.ok (before.reverse ++ nodes.map (Node.relocated base.below)), t') := by
  have hlimit : s.limit = second.utf8ByteSize + 2 := by rw [TokenStream.limit, hs.source_eq]
  obtain ⟨text, htext, -, news, hnews, hlength, hmore⟩ :=
    Beside.statementsWithin (J := .secondLine base) (fun _ => id) (fun _ => Closes.ends)
      (fun text h => ⟨text, (List.append_nil text).symm, Splice.closes_secondLine h⟩) hitem hitem'
      (fun node _ _ h => h.endsStatement node) hs.reliable hs.settings_eq h
  obtain rfl : nodes = news := hnews
  obtain rfl : s.text = text := htext.trans (List.append_nil text)
  refine ⟨by omega, fun r left more before hr hsettings htext hplace hlastEnd hle hleft => ?_⟩
  -- Both streams stand in front of the same text, at places that correspond.
  have hbeside : Beside (.secondLine base) s.text s r := by
    refine ⟨hs.reliable, hr, hsettings.trans hs.settings_eq.symm, ?_, hle, (List.append_nil _).symm,
      [], rfl, ?_, ?_⟩
    · rw [hs.lastEnd_eq, hlastEnd]
      exact hbase
    · rw [hs.place_eq]
      exact hplace.symm ▸ hbase
    · rw [htext, hs.text_eq]
      exact (List.append_nil _).symm
  obtain ⟨news', left', text, u, u', hsame, hbeside', hlater, hend, hleft', -, hall⟩ :=
    hmore r left hbeside hleft
  obtain rfl : nodes.map (Node.relocated base.below) = news' := by
    rw [← news'.map_id, show (id : Node → Node) = Node.relocated id from funext fun n =>
      (Node.relocated_id n).symm]
    exact hsame
  -- The program ends where the second line ends.
  have hend' : Closing .endOfInput t.text u'.text := by
    obtain ⟨value, hnext⟩ := hend
    obtain ⟨gap, hgap, -, htext'⟩ := hbeside'.exists_gap
    rw [htext']
    exact ⟨value, (Next.blanks_iff .body (by decide) hgap).2 (hbeside'.text_eq ▸ hnext)⟩
  obtain ⟨t', ht', -⟩ : ∃ t', Parser.statementsWithin .endOfInput item' left' more
      ((nodes.map (Node.relocated base.below)).reverse ++ before) u' = (.ok _, t') ∧
        t'.text = t.text :=
    statementsWithin_of_closing hbeside'.reliable' (hlater.settings_eq.trans hsettings)
      hend' rfl hleft'
  refine ⟨t', ?_⟩
  rw [hall, ht', List.reverse_append, List.reverse_reverse]

end

/-- A program behind a line end behind another program is read, and its statements are those of the
one, followed by those of the other one where they stand now. -/
theorem parse_behind_line {first second : String} {tree tree' : Node}
    {tokens tokens' : List Token} (h : parseProgram first = .ok (tree, tokens))
    (h' : parseProgram second = .ok (tree', tokens')) :
    ∃ nodes nodes' span span' whole all, tree = .root nodes span ∧ tree' = .root nodes' span' ∧
      parseProgram (first ++ "\n" ++ second) = .ok (.root
        (nodes ++ nodes'.map (Node.relocated (Location.behindLine first.toList).below)) whole,
          all) := by
  obtain ⟨s₁, d₁, nodes, span, t₁, hs₁, hd₁, rfl, hnodes⟩ := exists_statementsWithin h
  obtain ⟨s₂, d₂, nodes', span', t₂, hs₂, hd₂, rfl, hnodes'⟩ := exists_statementsWithin h'
  obtain ⟨whole, all, hall⟩ : ∃ whole all, parseProgram (first ++ "\n" ++ second) =
      .ok (.root (nodes ++ nodes'.map (Node.relocated (Location.behindLine first.toList).below))
        whole, all) :=
    exists_of_statementsWithin fun s d hs hd => by
      have hbytes : (first ++ "\n" ++ second).utf8ByteSize = first.utf8ByteSize + 1
          + second.utf8ByteSize := by
        rw [String.utf8ByteSize_append, String.utf8ByteSize_append]
        rfl
      rw [RuleTable.depthLimit_standard] at hd₁ hd₂ hd
      have hinner := Settings.Inner.of_ofLine .line
      have hlimit₂ : s₂.limit = second.utf8ByteSize + 2 := by rw [TokenStream.limit, hs₂.source_eq]
      have hlimit : s.limit = first.utf8ByteSize + 1 + second.utf8ByteSize + 2 := by
        rw [TokenStream.limit, hs.source_eq, hbytes]
      have hgives : ∀ r, Reliable r → (RuleTable.standard.call d "statement").Gives r fun _ =>
          True :=
        fun r hr => RuleTable.gives_call hr d "statement"
      -- The rules may go deeper in the whole program than in either line.
      have hfirst :=
        (RuleFollows.statements (J := .firstLine second.toList) (by omega : d₁ + 8 ≤ d)).1
      have hsecond := (RuleFollows.statements (J := .secondLine (Location.behindLine first.toList))
        (by omega : d₂ + 8 ≤ d)).1
      obtain ⟨hlength, left, r, hr, hlater, htext, hlastEnd, hleft, hbehind⟩ :=
        hs₁.statementsWithin_firstLine hs (hfirst.call hinner fun _ => And.right) hgives hnodes
      obtain ⟨hlength', hends⟩ :=
        hs₂.statementsWithin_secondLine (Location.below_start first.toList)
          (hsecond.call hinner fun _ => And.right) hgives hnodes'
      -- Behind the first line the stream stands where the second one begins.
      have hplace : r.place = Location.behindLine first.toList := by
        refine hr.place_eq ?_
        rw [hlater.source_eq, hs.source_eq, htext, String.toList_append, String.toList_append]
        rfl
      obtain ⟨rounds, hrounds⟩ : ∃ rounds, s.limit - 1 = nodes.length + (nodes'.length + rounds) :=
        ⟨s.limit - 1 - (nodes.length + nodes'.length), by omega⟩
      have hlimit' := hlater.limit_eq
      obtain ⟨t', ht'⟩ :=
        hends r left rounds nodes.reverse hr (hlater.settings_eq.trans hs.settings_eq) htext hplace
          (hlastEnd.trans hplace) (by omega) (by omega)
      refine ⟨t', ?_⟩
      rw [hrounds, hbehind, ht', List.reverse_reverse]
  exact ⟨nodes, nodes', span, span', whole, all, rfl, rfl, hall⟩

/-- What two programs do one after the other, the one program does that consists of both, one behind
the other. -/
theorem run_at_once {first second : String} {tree tree' : Node} {tokens tokens' : List Token}
    (h : parseProgram first = .ok (tree, tokens))
    (h' : parseProgram second = .ok (tree', tokens')) :
    ∃ nodes nodes' span span' whole all, tree = .root nodes span ∧ tree' = .root nodes' span' ∧
      parseProgram (first ++ "\n" ++ second) = .ok
        (.root
          (nodes ++ nodes'.map (Node.relocated (Location.behindLine first.toList).below)) whole,
          all) ∧
      ∀ (maxLayers : Nat) (s r t : Session),
        (HandlerTable.standard maxLayers).evaluateIn tree ScopeTree.root s = (.ok (), r) →
        (HandlerTable.standard maxLayers).evaluateIn tree' ScopeTree.root r = (.ok (), t) →
        ∃ t', (HandlerTable.standard maxLayers).evaluateIn (.root
            (nodes ++ nodes'.map (Node.relocated (Location.behindLine first.toList).below))
              whole) ScopeTree.root s =
              (.ok (), t') ∧
          (t'.scopes.get ScopeTree.root).names = (t.scopes.get ScopeTree.root).names ∧
          t'.scopes.automata ScopeTree.root = t.scopes.automata ScopeTree.root ∧
          t'.output = t.output ∧ t'.tests = t.tests := by
  obtain ⟨nodes, nodes', span, span', whole, all, rfl, rfl, hall⟩ := parse_behind_line h h'
  refine ⟨nodes, nodes', span, span', whole, all, rfl, rfl, hall,
    fun maxLayers s r t hfirst hsecond => ?_⟩
  rw [HandlerTable.evaluateIn_root] at hfirst hsecond
  obtain ⟨t', ht', hsame⟩ :=
    Evaluator.exists_statements_relocated hsecond (Location.behindLine first.toList).below
  refine ⟨t', ?_, hsame.names_eq _, hsame.automata_eq _, hsame.output_eq, hsame.tests_eq⟩
  rw [HandlerTable.evaluateIn_root, Evaluator.statements_append, hfirst]
  exact ht'

/-- A machine is declared in one line and tested in the next one; read and run at once, the two
lines leave the same outcome. -/
theorem run_at_once_test : ∃ tree tokens t,
    parseProgram
      ("finite m \x7b initial p; final p \x7d" ++ "\n" ++ "test m \"\"; print \"done\"") =
        .ok (tree, tokens) ∧
    (HandlerTable.standard 9).evaluateIn tree ScopeTree.root .start = (.ok (), t) ∧
    (t.scopes.get ScopeTree.root).names = ["m"] ∧ t.output = ["done"] ∧
      t.tests = [⟨"m", "", some true⟩] := by
  -- Both programs are run one behind the other, and the outcome is compared by evaluation.
  have hruns : (parseProgram "finite m \x7b initial p; final p \x7d").toOption.any (fun result =>
      let r := (HandlerTable.standard 9).evaluateIn result.1 ScopeTree.root .start
      r.1.isOk && (parseProgram "test m \"\"; print \"done\"").toOption.any fun result' =>
        let t := (HandlerTable.standard 9).evaluateIn result'.1 ScopeTree.root r.2
        t.1.isOk && decide ((t.2.scopes.get ScopeTree.root).names = ["m"] ∧ t.2.output = ["done"] ∧
          t.2.tests = [⟨"m", "", some true⟩])) = true := by
    decide +kernel
  obtain ⟨⟨tree, tokens⟩, htree, hruns⟩ := (Option.any_eq_true _ _).1 hruns
  dsimp only at hruns
  rcases hfirst : (HandlerTable.standard 9).evaluateIn tree ScopeTree.root .start with ⟨e | ⟨⟩, r⟩
  · rw [hfirst] at hruns
    cases hruns
  · rw [hfirst] at hruns
    obtain ⟨⟨tree', tokens'⟩, htree', hruns⟩ :=
      (Option.any_eq_true _ _).1 (Bool.and_eq_true_iff.1 hruns).2
    dsimp only at hruns
    rcases hsecond : (HandlerTable.standard 9).evaluateIn tree' ScopeTree.root r with ⟨e | ⟨⟩, t⟩
    · rw [hsecond] at hruns
      cases hruns
    · rw [hsecond] at hruns
      obtain ⟨hnames, houtput, htests⟩ := of_decide_eq_true (Bool.and_eq_true_iff.1 hruns).2
      -- The theorem then tells what the joined text does.
      obtain ⟨nodes, nodes', span, span', whole, all, rfl, rfl, hall, hrun⟩ :=
        run_at_once (parseProgram_of_toOption htree) (parseProgram_of_toOption htree')
      obtain ⟨t', ht', hnames', -, houtput', htests'⟩ := hrun 9 .start r t hfirst hsecond
      exact ⟨_, all, t', hall, ht', hnames'.trans hnames, houtput'.trans houtput,
        htests'.trans htests⟩

end MachineLang
