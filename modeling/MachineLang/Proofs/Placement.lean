import MachineLang.Proofs.Outcomes
import MachineLang.Tree.Parts

/-!
# Where nodes lie

A node is `Placed` in a text if its span is a range of the text, and the spans of its names and of
its children lie within it; the statements of a sequence stand one behind the other. A node `Lies`
between two places if all nodes of its tree are placed and its own span is between them. The leaves
of the language `Grow` such a node: it lies behind the place where they begin, in front of the end
of the last token read, and takes some text. A leaf's range begins no later than the first token
that it reads, so all that it reads lies within it: the ends of the tokens read only ever move on
(`Later.lastEnd_le`).
-/

namespace MachineLang

/-- A range of a text between two places. -/
structure Within (text : List Char) (start stop : Location) (span : Span) : Prop where
  /-- It is a range of the text. -/
  isRange : IsRange text span
  /-- It begins behind the first place. -/
  start_le : start.offset ≤ span.start.offset
  /-- It ends in front of the second one. -/
  stop_le : span.stop.offset ≤ stop.offset

/-- Places further apart have more between them. -/
theorem Within.mono {text : List Char} {start stop start' stop' : Location} {span : Span}
    (h : Within text start stop span) (hstart : start'.offset ≤ start.offset)
    (hstop : stop.offset ≤ stop'.offset) :
    Within text start' stop' span :=
  ⟨h.isRange, Nat.le_trans hstart h.start_le, Nat.le_trans h.stop_le hstop⟩

namespace Node

/-- The span of the node is a range of the text, and holds those of its parts. -/
structure Placed (text : List Char) (n : Node) : Prop where
  /-- Its span is a range of the text. -/
  isRange : IsRange text n.span
  /-- The spans of its names lie within it. -/
  names : ∀ id ∈ n.names, Within text n.span.start n.span.stop id.span
  /-- The spans of its children lie within it. -/
  children : ∀ c ∈ n.children, Within text n.span.start n.span.stop c.span
  /-- Its statements stand one behind the other. -/
  statements : n.statements.Pairwise fun a b => a.span.stop.offset ≤ b.span.start.offset

/-- All nodes of the tree are placed, and its span is between two places. -/
structure Lies (text : List Char) (start stop : Location) (n : Node) : Prop where
  /-- All nodes are placed. -/
  placed : ∀ d, n.Contains d → d.Placed text
  /-- It begins behind the first place. -/
  start_le : start.offset ≤ n.span.start.offset
  /-- It ends in front of the second one. -/
  stop_le : n.span.stop.offset ≤ stop.offset

namespace Lies

variable {text : List Char} {start stop start' stop' : Location} {n : Node}

/-- Places further apart have more between them. -/
theorem mono (h : Lies text start stop n) (hstart : start'.offset ≤ start.offset)
    (hstop : stop.offset ≤ stop'.offset) : Lies text start' stop' n :=
  ⟨h.placed, Nat.le_trans hstart h.start_le, Nat.le_trans h.stop_le hstop⟩

/-- A node lies between its own ends. -/
theorem self (h : Lies text start stop n) : Lies text n.span.start n.span.stop n :=
  ⟨h.placed, Nat.le_refl _, Nat.le_refl _⟩

/-- The span of the node lies within the bounds that the node lies in. -/
theorem within (h : Lies text start stop n) : Within text start stop n.span :=
  ⟨(h.placed n (.self n)).isRange, h.start_le, h.stop_le⟩

/-- A node whose names and children lie within it. -/
theorem node (hspan : Within text start stop n.span)
    (hnames : ∀ id ∈ n.names, Within text n.span.start n.span.stop id.span)
    (hchildren : ∀ c ∈ n.children, Lies text n.span.start n.span.stop c)
    (hstatements : n.statements.Pairwise fun a b => a.span.stop.offset ≤ b.span.start.offset) :
    Lies text start stop n := by
  refine ⟨fun d hd => ?_, hspan.start_le, hspan.stop_le⟩
  cases hd with
  | self => exact ⟨hspan.isRange, hnames, fun c hc => (hchildren c hc).within, hstatements⟩
  | inside hchild hd => exact (hchildren _ hchild).placed d hd

/-- The items of a list lie where it does. -/
theorem items (h : Lies text start stop n) : ∀ item ∈ n.items, Lies text start stop item := by
  intro item hitem
  cases n with
  | list items span =>
    have hwithin := (h.placed _ (.self _)).children item hitem
    exact ⟨fun d hd => h.placed d (.inside hitem hd), Nat.le_trans h.start_le hwithin.start_le,
      Nat.le_trans hwithin.stop_le h.stop_le⟩
  | _ =>
    obtain rfl := List.mem_singleton.1 hitem
    exact h

/-- The names among the items of a list lie where it does. -/
theorem identifiersOf (h : Lies text start stop n) :
    ∀ id ∈ Parser.identifiersOf n, Within text start stop id.span := by
  intro id hid
  obtain ⟨item, hitem, hname⟩ := List.mem_filterMap.1 hid
  have hlies := h.items item hitem
  cases item with
  | identifier id' =>
    obtain rfl : id' = id := Option.some.inj hname
    exact hlies.within
  | _ => exact absurd hname (by simp [Node.identifier?])

end Lies

end Node

/-! ## Nodes that were read -/

/-- A node was read: it lies between a place and the end of the last token, and some text was
taken. -/
structure Grows (s : TokenStream) (start : Location) (n : Node) (t : TokenStream) : Prop where
  /-- It lies behind the place, in front of the end of the last token read. -/
  lies : n.Lies s.source.toList start t.lastEnd
  /-- Some text was taken. -/
  length_lt : t.text.length < s.text.length

namespace Reliable

variable {s t : TokenStream} {settings : Settings}

/-- Less text is ahead of a later stream. -/
theorem length_text_le (hs : Reliable s) (ht : Reliable t) (hlater : Later s t) :
    t.text.length ≤ s.text.length :=
  (hs.text_suffix ht hlater).length_le

/-- Other settings do not change the text ahead. -/
theorem text_apply (hs : Reliable s) (hordinary : settings.Ordinary) :
    (s.apply settings).text = s.text := by
  unfold TokenStream.text
  rw [(hs.apply hordinary).2.1]
  rfl

/-- Other settings do not change where the last token ended. -/
theorem lastEnd_apply (hs : Reliable s) (hordinary : settings.Ordinary) :
    (s.apply settings).lastEnd = s.lastEnd := congrArg Unbuffered.lastEnd (hs.apply hordinary).2.1

end Reliable

/-- A token that was read lies between where the next one began and where the last one ends. -/
theorem Took.within {s t : TokenStream} {token : Token} (h : Took s token t) :
    Within s.source.toList s.nextPlace t.lastEnd token.span :=
  ⟨h.fits.isRange, Nat.le_of_eq (congrArg _ h.location_eq.symm),
    Nat.le_of_eq (congrArg _ h.lastEnd_eq.symm)⟩

namespace Grows

variable {s t r : TokenStream} {start start' : Location} {n : Node} {token : Token}

/-- A node may be said to begin earlier. -/
theorem mono (h : Grows s start n t) (hstart : start'.offset ≤ start.offset) : Grows s start' n t :=
  ⟨h.lies.mono hstart (Nat.le_refl _), h.length_lt⟩

/-- The place where a node begins is in front of where the last token ends. -/
theorem le (h : Grows s start n t) : start.offset ≤ t.lastEnd.offset :=
  Nat.le_trans h.lies.start_le (Nat.le_trans (h.lies.within).isRange.le h.lies.stop_le)

/-- A node that was read on a later stream. -/
theorem of_later (hs : Reliable s) (ht : Reliable t) (hlater : Later s t) (h : Grows t start n r) :
    Grows s start n r :=
  ⟨hlater.source_eq ▸ h.lies, Nat.lt_of_lt_of_le h.length_lt (hs.length_text_le ht hlater)⟩

/-- A node that was read under other settings. -/
theorem of_apply (hs : Reliable s) (ht : Reliable t) {settings : Settings}
    (hordinary : settings.Ordinary) (h : Grows (s.apply settings) start n t) :
    Grows s start n (t.apply s.settings) := by
  have hlies := h.lies
  have hlt := h.length_lt
  rw [TokenStream.source_apply] at hlies
  rw [hs.text_apply hordinary] at hlt
  refine ⟨?_, ?_⟩
  · rw [ht.lastEnd_apply hs.ordinary]
    exact hlies
  · rw [ht.text_apply hs.ordinary]
    exact hlt

/-- A node that is a single token. -/
theorem ofToken (h : Took s token t) (hkind : token.kind ≠ .endOfInput)
    (hstart : start.offset ≤ s.nextPlace.offset) (hspan : n.span = token.span)
    (hnames : ∀ id ∈ n.names, id.span = n.span) (hchildren : n.children = [])
    (hstatements : n.statements = []) : Grows s start n t := by
  have hwithin := h.within
  rw [← hspan] at hwithin
  refine ⟨.node (hwithin.mono hstart (Nat.le_refl _)) (fun id hid => ?_) ?_ ?_, h.length_lt hkind⟩
  · rw [hnames id hid]
    exact ⟨hwithin.isRange, Nat.le_refl _, Nat.le_refl _⟩
  · rw [hchildren]
    exact List.forall_mem_nil _
  · rw [hstatements]
    exact .nil

end Grows

/-! ## Single tokens -/

namespace Parser

variable {s : TokenStream} {start : Location}

/-- A name is a token: it lies behind the place of the stream, and takes some text. -/
theorem meets_identifier (hs : Reliable s) : identifier.Meets s fun id t =>
    Within s.source.toList s.nextPlace t.lastEnd id.span ∧ t.text.length < s.text.length := by
  refine (Meets.expect hs _).bind fun token t ht _ htook => ?_
  obtain ⟨htook, hkind⟩ := htook
  have hne : token.kind ≠ .endOfInput := by
    rw [List.mem_singleton.1 hkind]
    decide
  exact Meets.pure ht ⟨htook.within, htook.length_lt hne⟩

/-- The end token is not among the expected ones. -/
theorem kind_ne_of_mem {kinds : List TokenKind} {kind : TokenKind} (h : kind ∈ kinds)
    (hkinds : .endOfInput ∉ kinds) : kind ≠ .endOfInput :=
  fun heq => hkinds (heq ▸ h)

/-- A character is a token, so the node of it grows. -/
theorem meets_character (hs : Reliable s) (hstart : start.offset ≤ s.nextPlace.offset) :
    character.Meets s (Grows s start) := by
  refine (Meets.expect hs _).bind fun token t ht hlater htook => ?_
  obtain ⟨htook, hkind⟩ := htook
  have hgrows : ∀ value, Grows s start (.character value token.span) t := fun value =>
    .ofToken htook (kind_ne_of_mem hkind (by decide)) hstart rfl (List.forall_mem_nil _) rfl rfl
  split
  · exact Meets.pure ht (hgrows _)
  · split
    · exact Meets.pure ht (hgrows _)
    · exact Meets.throw ht (hlater.source_eq.symm ▸ htook.fits.isRange)
  · exact Meets.pure ht (hgrows _)

/-- A string is a token, so the node of it grows. -/
theorem meets_string (hs : Reliable s) (hstart : start.offset ≤ s.nextPlace.offset) :
    string.Meets s (Grows s start) := by
  refine (Meets.expect hs _).bind fun token t ht hlater htook => ?_
  obtain ⟨htook, hkind⟩ := htook
  split_ifs
  · exact (Meets.throw (Q := fun _ _ => False) ht (hlater.source_eq.symm ▸ htook.fits.isRange)).bind
      fun _ _ _ _ h => h.elim
  · exact Meets.pure ht
      (.ofToken htook (kind_ne_of_mem hkind (by decide)) hstart rfl (List.forall_mem_nil _) rfl rfl)

/-- The name that a token gives to a non-terminal stands where the token does. -/
theorem meets_nonTerminalName (hs : Reliable s) {token : Token}
    (hrange : IsRange s.source.toList token.span) :
    (nonTerminalName token).Meets s fun id t => id.span = token.span ∧ s = t := by
  unfold nonTerminalName
  split
  · exact Meets.pure hs ⟨rfl, rfl⟩
  · exact Meets.throw hs hrange
  · exact Meets.pure hs ⟨rfl, rfl⟩

/-- A non-terminal is a token, so the node of it grows. -/
theorem meets_nonTerminal (hs : Reliable s) (hstart : start.offset ≤ s.nextPlace.offset) :
    nonTerminal.Meets s (Grows s start) := by
  refine (Meets.expect hs _).bind fun token t ht hlater htook => ?_
  obtain ⟨htook, hkind⟩ := htook
  refine (meets_nonTerminalName ht (hlater.source_eq.symm ▸ htook.fits.isRange)).bind
    fun id r hr _ hid => ?_
  obtain ⟨hspan, rfl⟩ := hid
  exact Meets.pure hr
    (.ofToken htook (kind_ne_of_mem hkind (by decide)) hstart hspan (List.forall_mem_nil _) rfl rfl)

/-- A movement is a token, so the node of it grows. -/
theorem meets_shift (hs : Reliable s) (hstart : start.offset ≤ s.nextPlace.offset) :
    shift.Meets s (Grows s start) := by
  refine (Meets.expect hs _).bind fun token t ht hlater htook => ?_
  obtain ⟨htook, hkind⟩ := htook
  split
  · exact Meets.pure ht
      (.ofToken htook (kind_ne_of_mem hkind (by decide)) hstart rfl (List.forall_mem_nil _) rfl rfl)
  · exact Meets.throw ht (hlater.source_eq.symm ▸ htook.fits.isRange)

end Parser

/-! ## Behind a place -/

/-- The stream has read on from a place of the text, at least up to there. -/
structure Behind (text : List Char) (start : Location) (s : TokenStream) : Prop where
  /-- It reads the text. -/
  source_eq : s.source.toList = text
  /-- The place is one of the text. -/
  isPlace : IsPlace text start
  /-- The last token read ends behind it. -/
  le : start.offset ≤ s.lastEnd.offset

namespace Behind

variable {text : List Char} {start : Location} {s t : TokenStream} {n : Node} {span : Span}

/-- A later stream is behind the place as well. -/
theorem later (h : Behind text start s) (hlater : Later s t) : Behind text start t :=
  ⟨hlater.source_eq.symm ▸ h.source_eq, h.isPlace, Nat.le_trans h.le hlater.lastEnd_le⟩

/-- Behind the first token that is read. -/
theorem of_within (hplace : IsPlace s.source.toList start)
    (hstart : start.offset ≤ s.nextPlace.offset) (hlater : Later s t)
    (h : Within s.source.toList s.nextPlace t.lastEnd span) :
    Behind s.source.toList start t :=
  ⟨hlater.source_eq.symm ▸ rfl, hplace,
    Nat.le_trans hstart (Nat.le_trans h.start_le (Nat.le_trans h.isRange.le h.stop_le))⟩

/-- The next token begins behind the place. -/
theorem le_nextPlace (h : Behind text start s) (hs : Reliable s) :
    start.offset ≤ s.nextPlace.offset :=
  Nat.le_trans h.le hs.lastEnd_le_nextPlace

/-- What is read next lies behind the place. -/
theorem lies (h : Behind text start s) (hs : Reliable s) (hn : Grows s s.nextPlace n t) :
    n.Lies text start t.lastEnd :=
  h.source_eq ▸ hn.lies.mono (h.le_nextPlace hs) (Nat.le_refl _)

/-- A name that is read next lies behind the place. -/
theorem within (h : Behind text start s) (hs : Reliable s)
    (hspan : Within s.source.toList s.nextPlace t.lastEnd span) :
    Within text start t.lastEnd span :=
  h.source_eq ▸ hspan.mono (h.le_nextPlace hs) (Nat.le_refl _)

/-- A node from the place to the end of the last token, whose parts were read behind the place. -/
theorem node (h : Behind text start s) (hs : Reliable s) (hspan : n.span = ⟨start, s.lastEnd⟩)
    (hnames : ∀ id ∈ n.names, Within text start s.lastEnd id.span)
    (hchildren : ∀ c ∈ n.children, c.Lies text start s.lastEnd) (hstatements : n.statements = []) :
    n.Lies text start s.lastEnd := by
  have hwithin : Within text start s.lastEnd n.span := by
    rw [hspan]
    exact ⟨⟨h.isPlace, h.source_eq ▸ hs.lastEnd, h.le⟩, Nat.le_refl _, Nat.le_refl _⟩
  refine .node hwithin ?_ ?_ ?_
  · rw [hspan]
    exact hnames
  · rw [hspan]
    exact hchildren
  · rw [hstatements]
    exact .nil

end Behind

/-! ## Leaves -/

namespace Parser

variable {text : List Char} {start : Location} {s : TokenStream}

/-- The name of the start symbol of a grammar, if one is declared, lies behind the place where the
declaration began. It is read under other modes, which move no place. -/
theorem meets_startSymbol (hs : Reliable s) (hb : Behind text start s) :
    startSymbol.Meets s fun found t => ∀ id ∈ found, Within text start t.lastEnd id.span := by
  refine (Meets.checkWord hs _).bind fun found t ht hlater _ => ?_
  split_ifs
  · refine (Meets.next ht).bind fun _ r hr hlater' _ => ?_
    have hbr := (hb.later hlater).later hlater'
    have hmode := hr.ordinary.push .grammar
    obtain ⟨hr', -, -⟩ := hr.apply hmode
    -- The token is cut under the mode of grammars, which it begins behind the last token, too.
    have hexpect : (withMode .grammar
        (expect [.identifier, .nonTerminal, .unclosedNonTerminal])).Meets r fun token t =>
        Within r.source.toList r.nextPlace t.lastEnd token.span := by
      refine Meets.withSettings hr hmode (Meets.expect hr' _) fun token q hq _ htook => ?_
      have hwithin := htook.1.within
      rw [hr.nextPlace_push, TokenStream.source_apply] at hwithin
      rw [hq.lastEnd_apply hr.ordinary]
      exact hwithin
    refine hexpect.bind fun token q hq hlater'' htoken => ?_
    refine (meets_nonTerminalName hq (hlater''.source_eq.symm ▸ htoken.isRange)).bind
      fun id _ _ _ hid => ?_
    obtain ⟨hspan, rfl⟩ := hid
    refine Meets.pure hq fun id' hid' => ?_
    obtain rfl := Option.some.inj hid'
    rw [hspan]
    exact hbr.within hr htoken
  · exact Meets.pure ht fun id hid => absurd hid (by simp)

section

variable {rule : String → Parser Node}
variable (hrule : ∀ name, name ≠ "module" → ∀ s, Reliable s →
  (rule name).Meets s (Grows s s.nextPlace))
include hrule

/-- The rest of a declaration lies behind its start, with its names and its body in order. -/
theorem meets_declaration (hs : Reliable s) (hb : Behind text start s) (kind : MachineKind)
    {name : Identifier} {tapes : List Identifier}
    (hnames : ∀ id ∈ name :: tapes, Within text start s.lastEnd id.span) :
    (declaration rule kind name tapes start).Meets s fun n t => n.Lies text start t.lastEnd := by
  refine (Meets.accept hs _).bind fun found t ht hlater _ => ?_
  have hbt := hb.later hlater
  -- The name is declared by an expression behind the sign of equality, or by a body.
  split_ifs
  · refine (hrule _ (by decide) t ht).bind fun value r hr hlater' hvalue => ?_
    refine (Meets.spanFrom hr start).bind fun span _ _ _ hspan => ?_
    obtain ⟨rfl, rfl⟩ := hspan
    refine Meets.pure hr ((hbt.later hlater').node hr rfl ?_ ?_ rfl)
    · exact List.forall_mem_singleton.2 ((hnames name List.mem_cons_self).mono (Nat.le_refl _)
        (hlater.trans hlater').lastEnd_le)
    · exact List.forall_mem_singleton.2 (hbt.lies ht hvalue)
  · refine (hrule _ (by decide) t ht).bind fun body r hr hlater' hbody => ?_
    refine (Meets.spanFrom hr start).bind fun span _ _ _ hspan => ?_
    obtain ⟨rfl, rfl⟩ := hspan
    have hbr := hbt.later hlater'
    have hnames' : ∀ id ∈ name :: tapes, Within text start r.lastEnd id.span := fun id hid =>
      (hnames id hid).mono (Nat.le_refl _) (hlater.trans hlater').lastEnd_le
    have hchildren := List.forall_mem_singleton.2 (hbt.lies ht hbody)
    cases kind with
    | finite =>
      exact Meets.pure hr (hbr.node hr rfl
        (List.forall_mem_singleton.2 (hnames' name List.mem_cons_self)) hchildren rfl)
    | pushdown => exact Meets.pure hr (hbr.node hr rfl hnames' hchildren rfl)
    | turing => exact Meets.pure hr (hbr.node hr rfl hnames' hchildren rfl)

/-- The names behind a contextual word. -/
theorem meets_header (hs : Reliable s) (hb : Behind text start s) (word : String) :
    (header rule word).Meets s fun ids t => ∀ id ∈ ids, Within text start t.lastEnd id.span := by
  refine (Meets.checkWord hs word).bind fun found t ht hlater _ => ?_
  split_ifs
  · refine (Meets.next ht).bind fun _ r hr hlater' _ => ?_
    refine (hrule _ (by decide) r hr).bind fun names r' hr' _ hnames => ?_
    exact Meets.pure hr' (((hb.later hlater).later hlater').lies hr hnames).identifiersOf
  · exact Meets.pure ht (List.forall_mem_nil _)

/-- A declaration of a machine with names behind a contextual word lies where it was read: its name,
those names, and its value or body. -/
theorem meets_declarationHeader (hs : Reliable s) (hplace : IsPlace s.source.toList start)
    (hstart : start.offset ≤ s.nextPlace.offset) (kind : MachineKind) (word : String) :
    (do declaration rule kind (← identifier) (← header rule word) start : Parser Node).Meets s
      (Grows s start) := by
  refine (meets_identifier hs).bind fun name t ht hlater hname => ?_
  have hb := Behind.of_within hplace hstart hlater hname.1
  refine (meets_header hrule ht hb word).bind fun names r hr hlater' hnames => ?_
  have hids : ∀ id ∈ name :: names, Within s.source.toList start r.lastEnd id.span :=
    List.forall_mem_cons.2 ⟨hname.1.mono hstart hlater'.lastEnd_le, hnames⟩
  refine (meets_declaration hrule hr (hb.later hlater') kind hids).imp fun n r' hr' hlater'' hn =>
    ?_
  exact ⟨hn, Nat.lt_of_le_of_lt (ht.length_text_le hr' (hlater'.trans hlater'')) hname.2⟩

/-- The declaration of a finite automaton. -/
theorem meets_finite (hs : Reliable s) (hplace : IsPlace s.source.toList start)
    (hstart : start.offset ≤ s.nextPlace.offset) : (finite rule start).Meets s (Grows s start) := by
  refine (meets_identifier hs).bind fun name t ht hlater hname => ?_
  have hb := Behind.of_within hplace hstart hlater hname.1
  have hids : ∀ id ∈ [name], Within s.source.toList start t.lastEnd id.span :=
    List.forall_mem_singleton.2 (hname.1.mono hstart (Nat.le_refl _))
  refine (meets_declaration hrule ht hb .finite hids).imp fun n r hr hlater' hn => ?_
  exact ⟨hn, Nat.lt_of_le_of_lt (ht.length_text_le hr hlater') hname.2⟩

/-- The declaration of a grammar holds its names, and then its body, and it reads on to where the
body ends. The lexemes of grammars are in force only inside. -/
theorem meets_grammar (hs : Reliable s) (hplace : IsPlace s.source.toList start)
    (hstart : start.offset ≤ s.nextPlace.offset) :
    (grammar rule start).Meets s (Grows s start) := by
  refine (meets_identifier hs).bind fun name t ht hlater hname => ?_
  have hb := Behind.of_within hplace hstart hlater hname.1
  refine (meets_startSymbol ht hb).bind fun startName r hr hlater' hnames => ?_
  have hmode := hr.ordinary.push .grammar
  obtain ⟨hr', -, -⟩ := hr.apply hmode
  -- The body is read with the lexemes of grammars, which moves no place.
  have hbody : (withMode .grammar (rule "grammar_body")).Meets r (Grows r r.nextPlace) := by
    refine Meets.withSettings hr hmode (hrule _ (by decide) _ hr') fun n q hq _ hn => ?_
    rw [hr.nextPlace_push] at hn
    exact hn.of_apply hr hq hmode
  refine hbody.bind fun body q hq hlater'' hbody => ?_
  refine (Meets.spanFrom hq start).bind fun span _ _ _ hspan => ?_
  obtain ⟨rfl, rfl⟩ := hspan
  have hbr := hb.later hlater'
  refine Meets.pure hq ⟨(hbr.later hlater'').node hq rfl ?_ ?_ rfl, ?_⟩
  · refine List.forall_mem_cons.2 ⟨hname.1.mono hstart (hlater'.trans hlater'').lastEnd_le,
      fun id hid => ?_⟩
    exact (hnames id (Option.mem_toList.1 hid)).mono (Nat.le_refl _) hlater''.lastEnd_le
  · exact List.forall_mem_singleton.2 (hbr.lies hr hbody)
  · exact Nat.lt_of_le_of_lt (ht.length_text_le hq (hlater'.trans hlater'')) hname.2

/-- One more symbol of an alternative lies behind those that were read, or there is none and the
stream stays where it stood. -/
theorem meets_alternativeItem (hs : Reliable s) (hb : Behind text start s) :
    (alternativeItem rule).Meets s fun found t => ∀ n ∈ found, n.Lies text start t.lastEnd := by
  -- Whichever rule reads the symbol, what it reads lies between the start and the end of its last
  -- token.
  have hitem : ∀ name, name ≠ "module" → ∀ t, Stays s t →
      Meets (some <$> rule name) t fun found r => ∀ n ∈ found, n.Lies text start r.lastEnd := by
    intro name hname t hstays
    refine (hrule name hname t hstays.reliable).map fun n r _ _ hn n' hn' => ?_
    obtain rfl := Option.some.inj hn'
    exact (hb.later hstays.later).lies hstays.reliable hn
  have hnone : ∀ t, Reliable t →
      Meets (pure none) t fun found r => ∀ n ∈ found, Node.Lies text start r.lastEnd n :=
        fun t ht =>
    Meets.pure ht fun n hn => absurd hn (by simp)
  obtain ⟨t, hstays, hread | hread | hread⟩ := exists_alternativeItem_eq rule hs
  · exact Meets.of_eq hread hstays.later (hitem _ (by decide) t hstays)
  · exact Meets.of_eq hread hstays.later (hitem _ (by decide) t hstays)
  · exact Meets.of_eq hread hstays.later (hnone t hstays.reliable)

/-- The alternatives of a production lie behind each other, and so do their symbols. What was read
earlier still lies in what has been read, which only grows. -/
theorem meets_alternativesWithin (hs : Reliable s) (hb : Behind text start s) {steps : Nat}
    {before : List (List Node)}
    (hbefore : ∀ nodes ∈ before, ∀ n ∈ nodes, n.Lies text start s.lastEnd) :
    (alternativesWithin rule steps before).Meets s fun alternatives t =>
      ∀ n ∈ alternatives.flatten, n.Lies text start t.lastEnd := by
  induction steps generalizing s before with
  | zero => exact Meets.endless hs
  | succ steps ih =>
    have hcollect : (collect (alternativeItem rule)).Meets s fun nodes t =>
        ∀ n ∈ nodes, n.Lies text start t.lastEnd := by
      refine Meets.collect (I := fun nodes t => ∀ n ∈ nodes, n.Lies text start t.lastEnd) hs
        (List.forall_mem_nil _) fun nodes t ht hlater hnodes => ?_
      refine (meets_alternativeItem hrule ht (hb.later hlater)).imp fun found r _ hlater' hfound =>
        ?_
      have hkept : ∀ n ∈ nodes, n.Lies text start r.lastEnd := fun n hn =>
        (hnodes n hn).mono (Nat.le_refl _) hlater'.lastEnd_le
      cases found with
      | none => exact fun n hn => hkept n (List.mem_reverse.1 hn)
      | some node => exact List.forall_mem_cons.2 ⟨hfound node rfl, hkept⟩
    refine hcollect.bind fun nodes t ht hlater hnodes => ?_
    refine (Meets.accept ht _).bind fun found r hr hlater' _ => ?_
    -- The nodes of earlier alternatives still lie in what has been read, since more has been read
    -- since.
    have hall : ∀ nodes' ∈ nodes :: before, ∀ n ∈ nodes', n.Lies text start r.lastEnd := by
      refine List.forall_mem_cons.2 ⟨fun n hn => ?_, fun nodes' hnodes' n hn => ?_⟩
      · exact (hnodes n hn).mono (Nat.le_refl _) hlater'.lastEnd_le
      · exact (hbefore nodes' hnodes' n hn).mono (Nat.le_refl _) (hlater.trans hlater').lastEnd_le
    split_ifs
    · exact ih hr ((hb.later hlater).later hlater') hall
    · refine Meets.pure hr fun n hn => ?_
      obtain ⟨nodes', hnodes', hn⟩ := List.mem_flatten.1 hn
      exact hall nodes' (List.mem_reverse.1 hnodes') n hn

/-- The productions of one head lie where they were read: the head first, and its alternatives
behind the arrow, each behind the one before. -/
theorem meets_production (hs : Reliable s) (hplace : IsPlace s.source.toList start)
    (hstart : start.offset ≤ s.nextPlace.offset) :
    (production rule start).Meets s (Grows s start) := by
  refine (Meets.expect hs _).bind fun token t ht hlater htook => ?_
  obtain ⟨htook, hkind⟩ := htook
  have hb := Behind.of_within hplace hstart hlater htook.within
  refine (meets_nonTerminalName ht (hlater.source_eq.symm ▸ htook.fits.isRange)).bind
    fun head _ _ _ hhead => ?_
  obtain ⟨-, rfl⟩ := hhead
  refine (Meets.expect ht _).bind fun _ r hr hlater' _ => ?_
  refine (Meets.limit hr).bind fun steps _ _ _ hlimit => ?_
  subst hlimit
  refine (meets_alternativesWithin hrule hr (hb.later hlater') (List.forall_mem_nil _)).bind
    fun alternatives q hq hlater'' halternatives => ?_
  refine (Meets.spanFrom hq start).bind fun span _ _ _ hspan => ?_
  obtain ⟨rfl, rfl⟩ := hspan
  -- The span is known to hold the parts; what is left is that at least the name of the head was
  -- read.
  refine Meets.pure hq ⟨?_, ?_⟩
  · exact ((hb.later hlater').later hlater'').node hq rfl (List.forall_mem_nil _) halternatives rfl
  · exact Nat.lt_of_le_of_lt (ht.length_text_le hq (hlater'.trans hlater''))
      (htook.length_lt (kind_ne_of_mem hkind (by decide)))

/-- A leaf that begins with a rule of its own, and whose node has only names. -/
theorem meets_ofNames (hs : Reliable s) (hplace : IsPlace s.source.toList start)
    (hstart : start.offset ≤ s.nextPlace.offset) {name : String} (hname : name ≠ "module")
    (node : Node → Span → Node) (hspan : ∀ n span, (node n span).span = span)
    (hnames : ∀ n span, ∀ id ∈ (node n span).names, id ∈ identifiersOf n)
    (hchildren : ∀ n span, (node n span).children = [])
    (hstatements : ∀ n span, (node n span).statements = []) :
    (do return node (← rule name) (← spanFrom start) : Parser Node).Meets s (Grows s start) := by
  refine (hrule name hname s hs).bind fun n t ht hlater hn => ?_
  refine (Meets.spanFrom ht start).bind fun span _ _ _ hs' => ?_
  obtain ⟨rfl, rfl⟩ := hs'
  have hb := Behind.of_within hplace hstart hlater hn.lies.within
  refine Meets.pure ht ⟨hb.node ht (hspan _ _) (fun id hid => ?_) ?_ (hstatements _ _),
    hn.length_lt⟩
  · exact (hn.lies.mono hstart (Nat.le_refl _)).identifiersOf id (hnames _ _ id hid)
  · rw [hchildren]
    exact List.forall_mem_nil _

/-- The test of an automaton: its name, and its inputs behind it. -/
theorem meets_test (hs : Reliable s) (hplace : IsPlace s.source.toList start)
    (hstart : start.offset ≤ s.nextPlace.offset) : (test rule start).Meets s (Grows s start) := by
  refine (meets_identifier hs).bind fun automaton t ht hlater hname => ?_
  refine (hrule _ (by decide) t ht).bind fun inputs r hr hlater' _ => ?_
  refine (Meets.spanFrom hr start).bind fun span _ _ _ hspan => ?_
  obtain ⟨rfl, rfl⟩ := hspan
  have hb := Behind.of_within hplace hstart hlater hname.1
  refine Meets.pure hr ⟨(hb.later hlater').node hr rfl ?_ (List.forall_mem_nil _) rfl, ?_⟩
  · exact List.forall_mem_singleton.2 (hname.1.mono hstart hlater'.lastEnd_le)
  · exact Nat.lt_of_le_of_lt (ht.length_text_le hr hlater') hname.2

/-- A transition of a finite automaton lies between its first and its last token, and so do its
states and its condition, one behind the other. -/
theorem meets_finiteTransition (hs : Reliable s) (hplace : IsPlace s.source.toList start)
    (hstart : start.offset ≤ s.nextPlace.offset) :
    (finiteTransition rule start).Meets s (Grows s start) := by
  refine (meets_identifier hs).bind fun source t ht hlater hsource => ?_
  have hb := Behind.of_within hplace hstart hlater hsource.1
  refine (hrule _ (by decide) t ht).bind fun condition r hr hlater' hcondition => ?_
  refine (Meets.expect hr _).bind fun _ r' hr' hlater'' _ => ?_
  refine (meets_identifier hr').bind fun target q hq hlater''' htarget => ?_
  refine (Meets.spanFrom hq start).bind fun span _ _ _ hspan => ?_
  obtain ⟨rfl, rfl⟩ := hspan
  -- From here on the source stands behind the start, so what comes later lies behind it too.
  have hb' := (hb.later hlater').later hlater''
  have hbehind := hlater'.trans (hlater''.trans hlater''')
  refine Meets.pure hq ⟨(hb'.later hlater''').node hq rfl ?_ ?_ rfl, ?_⟩
  · exact List.forall_mem_cons.2 ⟨hsource.1.mono hstart hbehind.lastEnd_le,
      List.forall_mem_singleton.2 (hb'.within hr' htarget.1)⟩
  · exact List.forall_mem_singleton.2 ((hb.lies ht hcondition).mono (Nat.le_refl _)
      (hlater''.trans hlater''').lastEnd_le)
  · exact Nat.lt_of_le_of_lt (ht.length_text_le hq hbehind) hsource.2

/-- The symbols behind a contextual word. -/
theorem meets_symbolsAfter (hs : Reliable s) (hb : Behind text start s) (word : String) :
    (symbolsAfter rule word).Meets s fun found t => ∀ n ∈ found.getD [],
      n.Lies text start t.lastEnd := by
  refine (Meets.checkWord hs word).bind fun found t ht hlater _ => ?_
  split_ifs
  · refine (Meets.next ht).bind fun _ r hr hlater' _ => ?_
    refine (hrule _ (by decide) r hr).bind fun symbols q hq _ hsymbols => ?_
    exact Meets.pure hq (((hb.later hlater).later hlater').lies hr hsymbols).items
  · exact Meets.pure ht (List.forall_mem_nil _)

/-- A transition of a pushdown automaton lies between its first and its last token, whether it pops,
pushes or does both. Without either it is refused, with a place in what was read. -/
theorem meets_pushdownTransition (hs : Reliable s) (hplace : IsPlace s.source.toList start)
    (hstart : start.offset ≤ s.nextPlace.offset) :
    (pushdownTransition rule start).Meets s (Grows s start) := by
  refine (meets_identifier hs).bind fun source t ht hlater hsource => ?_
  have hb := Behind.of_within hplace hstart hlater hsource.1
  refine (hrule _ (by decide) t ht).bind fun condition t₁ ht₁ hlater₁ hcondition => ?_
  have hb₁ := hb.later hlater₁
  refine (meets_symbolsAfter hrule ht₁ hb₁ "pop").bind fun pop t₂ ht₂ hlater₂ hpop => ?_
  refine (Meets.expect ht₂ _).bind fun _ t₃ ht₃ hlater₃ _ => ?_
  have hb₃ := (hb₁.later hlater₂).later hlater₃
  refine (meets_identifier ht₃).bind fun target t₄ ht₄ hlater₄ htarget => ?_
  have hb₄ := hb₃.later hlater₄
  refine (meets_symbolsAfter hrule ht₄ hb₄ "push").bind fun push t₅ ht₅ hlater₅ hpush => ?_
  refine (Meets.spanFrom ht₅ start).bind fun span _ _ _ hspan => ?_
  obtain ⟨rfl, rfl⟩ := hspan
  have hb₅ := hb₄.later hlater₅
  have hlater₂' := hlater₃.trans (hlater₄.trans hlater₅)
  have hlater₁' := hlater₂.trans hlater₂'
  -- All parts lie between the beginning of the transition and the end of its last token.
  have hrange : IsRange t₅.source.toList ⟨start, t₅.lastEnd⟩ :=
    ⟨hb₅.source_eq ▸ hplace, ht₅.lastEnd, hb₅.le⟩
  -- Without a pop and a push part there is no transition but an error, which points to what was
  -- read.
  split_ifs
  · exact (Meets.throw (Q := fun _ _ => False) (e := .invalid .neitherPopNorPush _) ht₅ hrange).bind
      fun _ _ _ _ h => h.elim
  · refine Meets.pure ht₅ ⟨hb₅.node ht₅ rfl ?_ ?_ rfl, ?_⟩
    · exact List.forall_mem_cons.2 ⟨hsource.1.mono hstart (hlater₁.trans hlater₁').lastEnd_le,
        List.forall_mem_singleton.2
          ((hb₃.within ht₃ htarget.1).mono (Nat.le_refl _) hlater₅.lastEnd_le)⟩
    · refine List.forall_mem_cons.2
        ⟨(hb.lies ht hcondition).mono (Nat.le_refl _) hlater₁'.lastEnd_le, ?_⟩
      exact List.forall_mem_append.2
        ⟨fun n hn => (hpop n hn).mono (Nat.le_refl _) hlater₂'.lastEnd_le, hpush⟩
    · exact Nat.lt_of_le_of_lt (ht.length_text_le ht₅ (hlater₁.trans hlater₁')) hsource.2

/-- A transition of a Turing machine lies between its first and its last token, with what is read,
written and moved in the order in which it is written down. -/
theorem meets_turingTransition (hs : Reliable s) (hplace : IsPlace s.source.toList start)
    (hstart : start.offset ≤ s.nextPlace.offset) :
    (turingTransition rule start).Meets s (Grows s start) := by
  refine (meets_identifier hs).bind fun source t ht hlater hsource => ?_
  have hb := Behind.of_within hplace hstart hlater hsource.1
  refine (hrule _ (by decide) t ht).bind fun read t₁ ht₁ hlater₁ hread => ?_
  refine (Meets.expect ht₁ _).bind fun _ t₂ ht₂ hlater₂ _ => ?_
  have hb₂ := (hb.later hlater₁).later hlater₂
  refine (meets_identifier ht₂).bind fun target t₃ ht₃ hlater₃ htarget => ?_
  have hb₃ := hb₂.later hlater₃
  refine (hrule _ (by decide) t₃ ht₃).bind fun write t₄ ht₄ hlater₄ hwrite => ?_
  have hb₄ := hb₃.later hlater₄
  refine (hrule _ (by decide) t₄ ht₄).bind fun shift t₅ ht₅ hlater₅ hshift => ?_
  refine (Meets.spanFrom ht₅ start).bind fun span _ _ _ hspan => ?_
  obtain ⟨rfl, rfl⟩ := hspan
  -- Each part lies behind the one in front of it, so all of them lie up to the end of the last
  -- token.
  have hlater₃' := hlater₄.trans hlater₅
  have hlater₁' := hlater₂.trans (hlater₃.trans hlater₃')
  refine Meets.pure ht₅ ⟨(hb₄.later hlater₅).node ht₅ rfl ?_ ?_ rfl, ?_⟩
  · exact List.forall_mem_cons.2 ⟨hsource.1.mono hstart (hlater₁.trans hlater₁').lastEnd_le,
      List.forall_mem_singleton.2
        ((hb₂.within ht₂ htarget.1).mono (Nat.le_refl _) hlater₃'.lastEnd_le)⟩
  · refine List.forall_mem_append.2 ⟨fun n hn => ?_, List.forall_mem_append.2 ⟨fun n hn => ?_, ?_⟩⟩
    · exact ((hb.lies ht hread).items n hn).mono (Nat.le_refl _) hlater₁'.lastEnd_le
    · exact ((hb₃.lies ht₃ hwrite).items n hn).mono (Nat.le_refl _) hlater₅.lastEnd_le
    · exact (hb₄.lies ht₄ hshift).items
  · exact Nat.lt_of_le_of_lt (ht.length_text_le ht₅ (hlater₁.trans hlater₁')) hsource.2

/-- A value for the tape of a given name. -/
theorem meets_qualified (hs : Reliable s) (hplace : IsPlace s.source.toList start)
    (hstart : start.offset ≤ s.nextPlace.offset) {value : String} (hvalue : value ≠ "module") :
    (qualified rule value start).Meets s (Grows s start) := by
  refine (meets_identifier hs).bind fun tape t ht hlater htape => ?_
  have hb := Behind.of_within hplace hstart hlater htape.1
  refine (Meets.expect ht _).bind fun _ r hr hlater' _ => ?_
  refine (hrule _ hvalue r hr).bind fun node q hq hlater'' hnode => ?_
  refine (Meets.spanFrom hq start).bind fun span _ _ _ hspan => ?_
  obtain ⟨rfl, rfl⟩ := hspan
  have hbr := hb.later hlater'
  refine Meets.pure hq ⟨(hbr.later hlater'').node hq rfl ?_ ?_ rfl, ?_⟩
  · exact List.forall_mem_singleton.2 (htape.1.mono hstart (hlater'.trans hlater'').lastEnd_le)
  · exact List.forall_mem_singleton.2 (hbr.lies hr hnode)
  · exact Nat.lt_of_le_of_lt (ht.length_text_le hq (hlater'.trans hlater'')) htape.2

/-- An expression in parentheses lies where it does without them. -/
theorem meets_parenthesized (hs : Reliable s) (hstart : start.offset ≤ s.nextPlace.offset) :
    (parenthesized rule).Meets s (Grows s start) := by
  refine (hrule _ (by decide) s hs).bind fun expression t ht hlater hn => ?_
  refine (Meets.expect ht _).bind fun _ r hr hlater' _ => ?_
  exact Meets.pure hr ⟨hn.lies.mono hstart hlater'.lastEnd_le,
    Nat.lt_of_le_of_lt (ht.length_text_le hr hlater') hn.length_lt⟩

/-- Every leaf reads a node that lies behind the place where it begins, and reads on at least as
far. The cases are the leaves, each with its lemma above. -/
theorem meets_leaf (l : Leaf) (hs : Reliable s) (hplace : IsPlace s.source.toList start)
    (hstart : start.offset ≤ s.nextPlace.offset) : (l.read rule start).Meets s (Grows s start) := by
  have hname : identifier.Meets s fun id t => Grows s start (.identifier id) t := by
    refine (Meets.expect hs _).bind fun token t ht _ htook => ?_
    exact Meets.pure ht (.ofToken htook.1 (kind_ne_of_mem htook.2 (by decide)) hstart rfl
      (fun id hid => by rw [List.mem_singleton.1 hid]; rfl) rfl rfl)
  cases l with
  | finite => exact meets_finite hrule hs hplace hstart
  | pushdown => exact meets_declarationHeader hrule hs hplace hstart .pushdown "stacks"
  | turing => exact meets_declarationHeader hrule hs hplace hstart .turing "tapes"
  | grammar => exact meets_grammar hrule hs hplace hstart
  | production => exact meets_production hrule hs hplace hstart
  | initial =>
    refine (meets_identifier hs).bind fun state t ht hlater hstate => ?_
    refine (Meets.spanFrom ht start).bind fun span _ _ _ hspan => ?_
    obtain ⟨rfl, rfl⟩ := hspan
    have hb := Behind.of_within hplace hstart hlater hstate.1
    exact Meets.pure ht ⟨hb.node ht rfl
      (List.forall_mem_singleton.2 (hstate.1.mono hstart (Nat.le_refl _))) (List.forall_mem_nil _)
      rfl, hstate.2⟩
  | final =>
    exact meets_ofNames hrule hs hplace hstart (by decide)
      (fun n span => .final (identifiersOf n) span) (fun _ _ => rfl) (fun _ _ _ => id)
      (fun _ _ => rfl) (fun _ _ => rfl)
  | print =>
    exact meets_ofNames hrule hs hplace hstart (by decide)
      (fun n span => .print (String.join (stringsOf n)) span) (fun _ _ => rfl)
      (fun _ _ => List.forall_mem_nil _) (fun _ _ => rfl) (fun _ _ => rfl)
  | test => exact meets_test hrule hs hplace hstart
  | finiteTransition => exact meets_finiteTransition hrule hs hplace hstart
  | pushdownTransition => exact meets_pushdownTransition hrule hs hplace hstart
  | turingTransition => exact meets_turingTransition hrule hs hplace hstart
  | qualifiedSymbol => exact meets_qualified hrule hs hplace hstart (by decide)
  | qualifiedShift => exact meets_qualified hrule hs hplace hstart (by decide)
  | shift => exact meets_shift hs hstart
  | parenthesized => exact meets_parenthesized hrule hs hstart
  | identifier => exact hname.map fun _ _ _ _ hn => hn
  | character => exact meets_character hs hstart
  | string => exact meets_string hs hstart
  | nonTerminal => exact meets_nonTerminal hs hstart

end

end Parser

end MachineLang
