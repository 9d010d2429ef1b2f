import MachineLang.Proofs.Seams

/-!
# Recognizing the same in front of another ending

How recognizers for parts of a line behave at a seam. Each `Leads` from where it begins to where it
ends over symbols that are no arrows; on a path to an arrow it `Retraces` its way in front of the
other ending, and recognizes nothing else there; and it `Carries` over what is recognized in front
of the one ending to the other one, as long as it is known that what stands behind it looks alike
where it matters. There is one rule for each way of putting recognizers together.
-/

namespace MachineLang

open Recognizer

variable {settings : Settings} {kind : TokenKind} {value rest text r r' t t' : List Char}
  {kinds : List TokenKind} {ignored : List TokenKind} {β β' : Type}

/-! ## What is between -/

/-- What is recognized between two places in front of an ending is a walk over symbols that are no
arrows. -/
def Leads (r : List Char) (G : Recognizer β) : Prop :=
  ∀ t b t', G (t ++ r) b (t' ++ r) → Walk r t t'

/-- What ends with something in front of an ending stands in front of that ending. -/
theorem exists_between {mid : List Char} (h : t' ++ r <:+ mid) : ∃ t'', mid = t'' ++ r := by
  obtain ⟨front, hfront⟩ := h
  exact ⟨front ++ t', by rw [← hfront, List.append_assoc]⟩

namespace Leads

variable {G G' : Recognizer β} {H : β → Recognizer β'}

/-- Giving a value reads nothing, so there is nothing to walk over. -/
theorem pure (b : β) : Leads r (Pure.pure b : Recognizer β) := by
  rintro t _ t' ⟨-, htext⟩
  rw [List.append_cancel_right htext]
  exact .refl

/-- Looking at the next token reads nothing, whichever kind it looks for. -/
theorem check (settings : Settings) (kind : TokenKind) : Leads r (check settings kind) := by
  rintro t _ t' ⟨htext, -⟩
  rw [List.append_cancel_right htext]
  exact .refl

/-- Looking at the next token for a word reads nothing either. -/
theorem checkWord (settings : Settings) (word : String) : Leads r (checkWord settings word) := by
  rintro t _ t' ⟨htext, -⟩
  rw [List.append_cancel_right htext]
  exact .refl

/-- One text after the other: the two walks are put together. -/
theorem bind (h : Leads r G) (hH : ∀ b, Leads r (H b)) (hshort : ∀ b, (H b).Shortens) :
    Leads r (G >>= H) := by
  rintro t c t' ⟨b, mid, hb, hc⟩
  obtain ⟨t'', rfl⟩ := exists_between (hshort b _ _ _ hc)
  exact (h _ _ _ hb).trans (hH b _ _ _ hc)

/-- Either of two texts, where a condition decides which one. -/
theorem ite {p : Prop} [Decidable p] (h : Leads r G) (h' : Leads r G') :
    Leads r (if p then G else G') := by
  split_ifs
  · exact h
  · exact h'

/-- Either of two texts, where the second one is only tried if the first is not there. -/
theorem orElse (h : Leads r G) (h' : Leads r G') : Leads r (G.orElse G') := by
  rintro t b t' (hb | ⟨-, hb⟩)
  · exact h _ _ _ hb
  · exact h' _ _ _ hb

/-- A word is a walk over itself: it is a symbol, and no arrow. -/
theorem token (hsettings : Settings.OfLine ⟨[.base], ignored⟩)
    (hkinds : ∀ kind ∈ kinds, kind.isSolid = true ∧ kind ≠ .arrow) :
    Leads r (token ⟨[.base], ignored⟩ kinds) := by
  rintro t ⟨kind, value⟩ t' ⟨hkind, hnext⟩
  obtain ⟨hsolid, harrow⟩ := hkinds kind (List.contains_iff_mem.1 hkind)
  exact .word hsettings hnext hsolid harrow

/-- A symbol is a single token in the mode for characters, and no arrow. -/
theorem condition (hsettings : Settings.OfLine ⟨[.char, .base], ignored⟩) :
    Leads r (condition ignored) := by
  rintro t node t' ⟨⟨kind, value⟩, mid, ⟨hkind, hnext⟩, -, rfl⟩
  have hkinds : ∀ kind ∈ conditionKinds, kind ≠ .newline ∧ kind ≠ .endOfInput ∧ kind ≠ .arrow := by
    decide
  obtain ⟨hnewline, hend, harrow⟩ := hkinds kind (List.contains_iff_mem.1 hkind)
  exact .step (hnext.widest_of_symbol hsettings hnewline) hend harrow .refl

/-- A name is a single word, and no arrow. -/
theorem identifier (hsettings : Settings.OfLine ⟨[.base], ignored⟩) :
    Leads r (identifier ⟨[.base], ignored⟩) :=
  (token hsettings (by decide)).bind (fun _ => pure _) fun _ => .pure _

/-- A value for the tape of a given name. -/
theorem qualified {G : Recognizer Node} (hsettings : Settings.OfLine ⟨[.base], ignored⟩)
    (h : Leads r G) (hG : G.Shortens) : Leads r (qualified ignored G) :=
  (identifier hsettings).bind
    (fun _ => (token hsettings (by decide)).bind (fun _ => h.bind (fun _ => pure _) fun _ =>
      .pure _) fun _ => hG.bind fun _ => .pure _)
    fun _ => (Shortens.token _ _).bind fun _ => hG.bind fun _ => .pure _

/-- A symbol for a tape is a symbol, or a name with a colon and a symbol behind it. -/
theorem tapeSymbol (hsettings : Settings.OfLine ⟨[.base], ignored⟩) :
    Leads r (tapeSymbol ignored) :=
  (qualified hsettings (condition hsettings.symbols) (Shortens.condition _)).orElse
    (condition hsettings.symbols)

/-- Elements with commas between them are walked over one by one, and the commas with them. -/
theorem elements {G : Recognizer Node} (hsettings : Settings.OfLine ⟨[.base], ignored⟩)
    (h : Leads r G) (hG : G.Shortens) : Leads r (Elements ⟨[.base], ignored⟩ G) := by
  intro t nodes t' hnodes
  generalize htext : t ++ r = text at hnodes
  generalize hrest : t' ++ r = rest at hnodes
  -- The items and commas are carried over from left to right, each by the path behind the last one.
  induction hnodes generalizing t with
  | last hitem =>
    subst htext hrest
    exact h _ _ _ hitem
  | more hitem hcomma hmore ih =>
    subst htext hrest
    -- The elements behind the comma come first: an element is the same in front of both endings
    -- only if the comma behind it is.
    obtain ⟨t₂, rfl⟩ := exists_between (Shortens.elements hG _ _ _ hmore)
    obtain ⟨t₁, rfl⟩ := exists_between hcomma.suffix
    exact (h _ _ _ hitem).trans
      ((Walk.word hsettings hcomma (by decide) (by decide)).trans (ih _ rfl rfl))

/-- What is in brackets is walked over with the brackets themselves, token by token, as long as the
elements are. So its text stands in front of the ending as a whole. -/
theorem bracketed {G : Recognizer Node} (hsettings : Settings.OfLine ⟨[.base], ignored⟩)
    (h : Leads r G) (hG : G.Shortens) : Leads r (bracketed ⟨[.base], ignored⟩ G) := by
  have hclose : ∀ nodes : List Node, Leads r
      (do
        let _ ← Recognizer.token ⟨[.base], ignored⟩ [.rightBracket]
        return Node.list nodes .invalid) := fun nodes =>
    (token hsettings (by decide)).bind (fun _ => pure _) fun _ => .pure _
  have hclose' : ∀ nodes : List Node, Shortens
      (do
        let _ ← Recognizer.token ⟨[.base], ignored⟩ [.rightBracket]
        return Node.list nodes .invalid) := fun nodes =>
    (Shortens.token _ _).bind fun _ => .pure _
  -- Behind the opening bracket, there are elements or none, and the closing bracket in both cases.
  refine (token hsettings (by decide)).bind (fun _ => ?_) fun _ => ?_
  · refine (check _ _).bind (fun _ => ite ?_ ?_) fun _ => .ite ?_ ?_
    · exact (pure _).bind hclose hclose'
    · exact (elements hsettings h hG).bind hclose hclose'
    · exact (Shortens.pure _).bind hclose'
    · exact (Shortens.elements hG).bind hclose'
  · exact (Shortens.check _ _).bind fun _ => .ite ((Shortens.pure _).bind hclose')
      ((Shortens.elements hG).bind hclose')

/-- A list is walked over, in brackets or not: with its brackets, or as the single item that it
is. -/
theorem listOf {G : List TokenKind → Recognizer Node}
    (h : ∀ ignored, Settings.OfLine ⟨[.base], ignored⟩ → Leads r (G ignored))
    (hG : ∀ ignored, (G ignored).Shortens) :
    Leads r (listOf G lineBlanks) := by
  refine (check _ _).bind (fun _ => ite ?_ ?_) fun _ => .ite ?_ ?_
  · exact bracketed .brackets (h _ .brackets) (hG _)
  · exact (h _ .line).bind (fun _ => pure _) fun _ => .pure _
  · exact Shortens.bracketed (hG _)
  · exact (hG _).bind fun _ => .pure _

/-- Symbols for the tapes, in brackets or alone, hold no arrow. -/
theorem symbols : Leads r (symbols lineBlanks) :=
  listOf (fun _ hsettings => tapeSymbol hsettings) Shortens.tapeSymbol

/-- The symbols behind a contextual word, if it comes next. -/
theorem symbolsAfter (word : String) : Leads r (symbolsAfter lineBlanks word) := by
  have hshort := Shortens.symbols lineBlanks
  refine (checkWord _ _).bind (fun _ => ite ?_ (pure _)) fun _ => .ite ?_ (.pure _)
  · exact (token .line (by decide)).bind (fun _ => symbols.bind (fun _ => pure _) fun _ => .pure _)
      fun _ => hshort.bind fun _ => .pure _
  · exact (Shortens.token _ _).bind fun _ => hshort.bind fun _ => .pure _

end Leads

/-! ## Along a path -/

/-- On a path to an arrow, what is recognized in front of one ending ends on the path, and is
recognized in front of the other ending. -/
def Retraces (G : Recognizer β) : Prop :=
  ∀ r r' z t b rest, Path r r' z t → G (t ++ r) b rest →
    ∃ t', rest = t' ++ r ∧ Path r r' z t' ∧ G (t ++ r') b (t' ++ r')

namespace Retraces

variable {G G' : Recognizer β} {H : β → Recognizer β'}

/-- Giving a value stays where it is, in front of both endings. -/
theorem pure (b : β) : Retraces (Pure.pure b : Recognizer β) := by
  rintro r r' z t _ _ hpath ⟨rfl, rfl⟩
  exact ⟨t, rfl, hpath, rfl, rfl⟩

/-- Giving a value, if there is one. -/
theorem ofOption (b? : Option β) : Retraces (ofOption b?) := by
  rintro r r' z t b _ hpath ⟨hb, rfl⟩
  exact ⟨t, rfl, hpath, hb, rfl⟩

/-- One text after the other: the second one begins on the path, where the first one ends. -/
theorem bind (h : Retraces G) (hH : ∀ b, Retraces (H b)) : Retraces (G >>= H) := by
  rintro r r' z t c rest hpath ⟨b, mid, hb, hc⟩
  obtain ⟨t₁, rfl, hpath, hb'⟩ := h _ _ _ _ _ _ hpath hb
  obtain ⟨t₂, rfl, hpath, hc'⟩ := hH b _ _ _ _ _ _ hpath hc
  exact ⟨t₂, rfl, hpath, b, _, hb', hc'⟩

/-- Either of two texts, where a condition decides the same in front of both endings. -/
theorem ite {p : Prop} [Decidable p] (h : Retraces G) (h' : Retraces G') :
    Retraces (if p then G else G') := by
  split_ifs
  · exact h
  · exact h'

/-- A choice: where the first part is not recognized in front of the one ending, it is not in front
of the other. -/
theorem orElse (h : Retraces G) (h' : Retraces G') : Retraces (G.orElse G') := by
  rintro r r' z t b rest hpath (hb | ⟨hnone, hb⟩)
  · obtain ⟨t', rfl, hpath, hb'⟩ := h _ _ _ _ _ _ hpath hb
    exact ⟨t', rfl, hpath, .inl hb'⟩
  · obtain ⟨t', rfl, hpath', hb'⟩ := h' _ _ _ _ _ _ hpath hb
    refine ⟨t', rfl, hpath', .inr ⟨?_, hb'⟩⟩
    rintro ⟨a, _, ha⟩
    obtain ⟨_, -, -, ha'⟩ := h _ _ _ _ _ _ hpath.symm ha
    exact hnone ⟨a, _, ha'⟩

/-- Looking at the next token sees the same one in front of both endings. -/
theorem check (hsettings : settings.OfLine) (kind : TokenKind) :
    Retraces (check settings kind) := by
  rintro r r' z t found _ hpath ⟨rfl, kind', value, after, hnext, hfound⟩
  obtain ⟨t', -, -, hnext'⟩ := hpath.alike.next hsettings hnext
  exact ⟨t, rfl, hpath, rfl, kind', value, _, hnext', hfound⟩

/-- Looking for a word sees the same next token in front of both endings. -/
theorem checkWord (hsettings : settings.OfLine) (word : String) :
    Retraces (checkWord settings word) := by
  rintro r r' z t found _ hpath ⟨rfl, kind', value, after, hnext, hfound⟩
  obtain ⟨t', -, -, hnext'⟩ := hpath.alike.next hsettings hnext
  exact ⟨t, rfl, hpath, rfl, kind', value, _, hnext', hfound⟩

/-- A word that is next in front of one ending is next in front of the other one too. -/
theorem token (hsettings : Settings.OfLine ⟨[.base], ignored⟩)
    (hkinds : ∀ kind ∈ kinds, kind.isSolid = true ∧ kind ≠ .arrow) :
    Retraces (token ⟨[.base], ignored⟩ kinds) := by
  rintro r r' z t ⟨kind, value⟩ rest hpath ⟨hkind, hnext⟩
  obtain ⟨hsolid, harrow⟩ := hkinds kind (List.contains_iff_mem.1 hkind)
  obtain ⟨t', rfl, hpath, hnext'⟩ := hpath.word hsettings hnext hsolid harrow
  exact ⟨t', rfl, hpath, hkind, hnext'⟩

/-- A symbol is a single token, so it ends on the path. -/
theorem condition (hsettings : Settings.OfLine ⟨[.char, .base], ignored⟩) :
    Retraces (condition ignored) := by
  rintro r r' z t node rest hpath ⟨⟨kind, value⟩, mid, ⟨hkind, hnext⟩, hnode, rfl⟩
  have hkinds : ∀ kind ∈ conditionKinds, kind ≠ .newline ∧ kind ≠ .arrow := by decide
  obtain ⟨hnewline, harrow⟩ := hkinds kind (List.contains_iff_mem.1 hkind)
  obtain ⟨t', rfl, hpath, hnext'⟩ := hpath.symbol hsettings hnext hnewline harrow
  exact ⟨t', rfl, hpath, _, _, ⟨hkind, hnext'⟩, hnode, rfl⟩

/-- A movement of a head is a single token, so it ends on the path. -/
theorem shift (hsettings : Settings.OfLine ⟨[.base], ignored⟩) : Retraces (shift ignored) :=
  (token hsettings (by decide)).bind fun _ => ofOption _

/-- A name is a single token, so it ends on the path. -/
theorem identifier (hsettings : Settings.OfLine ⟨[.base], ignored⟩) :
    Retraces (identifier ⟨[.base], ignored⟩) :=
  (token hsettings (by decide)).bind fun _ => pure _

/-- A value for the tape of a given name. -/
theorem qualified {G : Recognizer Node} (hsettings : Settings.OfLine ⟨[.base], ignored⟩)
    (h : Retraces G) :
    Retraces (qualified ignored G) :=
  (identifier hsettings).bind fun _ => (token hsettings (by decide)).bind fun _ =>
    h.bind fun _ => pure _

/-- A symbol for a tape: whether a colon follows its name is the same in front of both endings. -/
theorem tapeSymbol (hsettings : Settings.OfLine ⟨[.base], ignored⟩) :
    Retraces (tapeSymbol ignored) :=
  (qualified hsettings (condition hsettings.symbols)).orElse (condition hsettings.symbols)

/-- A movement on a tape, with or without the name of the tape. -/
theorem tapeShift (hsettings : Settings.OfLine ⟨[.base], ignored⟩) : Retraces (tapeShift ignored) :=
  (qualified hsettings (shift hsettings)).orElse (shift hsettings)

/-- Elements with commas between them: the path goes from one to the next. -/
theorem elements {G : Recognizer Node} (hsettings : Settings.OfLine ⟨[.base], ignored⟩)
    (h : Retraces G) :
    Retraces (Elements ⟨[.base], ignored⟩ G) := by
  intro r r' z t nodes rest hpath hnodes
  generalize htext : t ++ r = text at hnodes
  induction hnodes generalizing t with
  | last hitem hnext hne =>
    subst htext
    obtain ⟨t₁, rfl, hpath, hitem'⟩ := h _ _ _ _ _ _ hpath hitem
    obtain ⟨_, -, -, hnext'⟩ := hpath.alike.next hsettings hnext
    exact ⟨t₁, rfl, hpath, .last hitem' hnext' hne⟩
  | more hitem hcomma hmore ih =>
    subst htext
    obtain ⟨t₁, rfl, hpath, hitem'⟩ := h _ _ _ _ _ _ hpath hitem
    obtain ⟨t₂, rfl, hpath, hcomma'⟩ := hpath.word hsettings hcomma (by decide) (by decide)
    obtain ⟨t₃, rfl, hpath, hmore'⟩ := ih _ hpath rfl
    exact ⟨t₃, rfl, hpath, .more hitem' hcomma' hmore'⟩

/-- What is in brackets ends with the closing bracket, which is on the path. -/
theorem bracketed {G : Recognizer Node} (hsettings : Settings.OfLine ⟨[.base], ignored⟩)
    (h : Retraces G) :
    Retraces (bracketed ⟨[.base], ignored⟩ G) := by
  have hclose : ∀ nodes : List Node, Retraces
      (do
        let _ ← Recognizer.token ⟨[.base], ignored⟩ [.rightBracket]
        return Node.list nodes .invalid) := fun nodes =>
    (token hsettings (by decide)).bind fun _ => pure _
  exact (token hsettings (by decide)).bind fun _ => (check hsettings _).bind fun _ =>
    ite ((pure _).bind hclose) ((elements hsettings h).bind hclose)

/-- A list, in brackets or not. -/
theorem listOf {G : List TokenKind → Recognizer Node}
    (h : ∀ ignored, Settings.OfLine ⟨[.base], ignored⟩ → Retraces (G ignored)) :
    Retraces (listOf G lineBlanks) :=
  (check .line _).bind fun _ => ite (bracketed .brackets (h _ .brackets))
    ((h _ .line).bind fun _ => pure _)

/-- Symbols for the tapes, in brackets or alone. -/
theorem symbols : Retraces (symbols lineBlanks) := listOf fun _ hsettings => tapeSymbol hsettings

/-- Movements on the tapes, in brackets or alone. -/
theorem shifts : Retraces (shifts lineBlanks) := listOf fun _ hsettings => tapeShift hsettings

/-- The symbols behind a contextual word, if it comes next. -/
theorem symbolsAfter (word : String) : Retraces (symbolsAfter lineBlanks word) :=
  (checkWord .line _).bind fun _ =>
    ite ((token .line (by decide)).bind fun _ => symbols.bind fun _ => pure _) (pure _)

end Retraces

/-! ## Over to the other ending -/

/-- What is recognized in front of the one ending is recognized in front of the other one if the one
condition holds behind it, and then the other one holds where it begins. -/
def Carries (r r' : List Char) (P : List Char → Prop) (G : Recognizer β) (Q : List Char → Prop) :
    Prop :=
  ∀ t b t', G (t ++ r) b (t' ++ r) → Q t' → P t ∧ G (t ++ r') b (t' ++ r')

/-- Both sources look alike, and the next word is of one of some kinds. -/
structure Sees (r r' : List Char) (ignored kinds : List TokenKind) (t : List Char) : Prop where
  /-- They look alike. -/
  alike : Alike r r' t
  /-- The next word is of one of the kinds. -/
  next : ∃ kind ∈ kinds, ∃ value rest, Next ⟨[.base], ignored⟩ kind value rest (t ++ r)

/-- In front of the ending, no colon is next. -/
def AvoidsColon (r : List Char) (ignored : List TokenKind) (t : List Char) : Prop :=
  ∀ value rest, ¬ Next ⟨[.base], ignored⟩ .colon value rest (t ++ r)

/-- Where the next word is of one of some kinds, and none of them is the colon, no colon is next. -/
theorem Sees.avoidsColon (h : Sees r r' ignored kinds t)
    (hsettings : Settings.OfLine ⟨[.base], ignored⟩) (hcolon : TokenKind.colon ∉ kinds) :
    AvoidsColon r' ignored t := by
  intro value rest hnext
  obtain ⟨kind, hkind, _, _, hnext'⟩ := h.next
  obtain ⟨_, -, -, hother⟩ := h.alike.next hsettings hnext'
  obtain ⟨rfl, -⟩ := hother.unique hsettings.skips (by decide) hnext
  exact hcolon hkind

namespace Recognizer

/-- A symbol that no colon follows is no value for the tape of a given name. -/
theorem not_qualified_of_condition {G : Recognizer Node} {node : Node}
    (hsettings : Settings.OfLine ⟨[.base], ignored⟩)
    (hnode : condition ignored (t ++ r) node (t' ++ r)) (hcolon : AvoidsColon r ignored t') :
    ¬ (qualified ignored G).Begins (t ++ r) := by
  -- A name that is read here is as long as the symbol, so it is followed by what follows the
  -- symbol.
  rintro ⟨_, _, _, _, ⟨⟨kind, value⟩, mid, ⟨hkind, hnext⟩, -, rfl⟩, ⟨kind', value'⟩, _,
    ⟨hkind', hnext'⟩, -⟩
  have hskips := hsettings.skips
  obtain rfl := List.mem_singleton.1 (List.contains_iff_mem.1 hkind)
  obtain rfl := List.mem_singleton.1 (List.contains_iff_mem.1 hkind')
  obtain ⟨kind'', -, hsymbol⟩ := hnext.symbol_of_word hskips rfl
  obtain ⟨⟨kind', value'⟩, _, ⟨-, hcondition⟩, -, rfl⟩ := hnode
  obtain ⟨-, -, rfl⟩ := hsymbol.unique hskips (by decide) hcondition
  exact hcolon _ _ hnext'

/-- A movement is no value for the tape of a given name. -/
theorem not_qualified_of_shift {G : Recognizer Node} {node : Node}
    (hsettings : Settings.OfLine ⟨[.base], ignored⟩) (hnode : shift ignored text node rest) :
    ¬ (qualified ignored G).Begins text := by
  rintro ⟨_, _, _, _, ⟨⟨kind, value⟩, _, ⟨hkind, hnext⟩, -⟩, -⟩
  obtain rfl := List.mem_singleton.1 (List.contains_iff_mem.1 hkind)
  obtain ⟨⟨kind', value'⟩, _, ⟨hkind', hnext'⟩, -⟩ := hnode
  obtain ⟨rfl, -⟩ := hnext.unique hsettings.skips (by decide) hnext'
  exact absurd hkind' Bool.false_ne_true

end Recognizer

namespace Carries

variable {P P' Q Q' : List Char → Prop} {G G' : Recognizer β} {H : β → Recognizer β'}

/-- Less may be said of where it begins, and more of what is behind. -/
theorem mono (h : Carries r r' P G Q) (hP : ∀ t, P t → P' t) (hQ : ∀ t, Q' t → Q t) :
    Carries r r' P' G Q' := by
  intro t b t' hb ht'
  obtain ⟨ht, hb'⟩ := h t b t' hb (hQ t' ht')
  exact ⟨hP t ht, hb'⟩

/-- Giving a value asks for what is to hold behind it. -/
theorem pure (b : β) : Carries r r' P (Pure.pure b) P := by
  rintro t _ t' ⟨rfl, htext⟩ ht'
  obtain rfl := List.append_cancel_right htext
  exact ⟨ht', rfl, rfl⟩

/-- Giving a value, if there is one. -/
theorem ofOption (b? : Option β) : Carries r r' P (ofOption b?) P := by
  rintro t _ t' ⟨hb, htext⟩ ht'
  obtain rfl := List.append_cancel_right htext
  exact ⟨ht', hb, rfl⟩

/-- One text after the other: what the second one asks for is what holds behind the first. -/
theorem bind (h : Carries r r' P G Q) (hH : ∀ b, Carries r r' Q (H b) Q')
    (hshort : ∀ b, (H b).Shortens) :
    Carries r r' P (G >>= H) Q' := by
  rintro t c t' ⟨b, mid, hb, hc⟩ ht'
  obtain ⟨t₁, rfl⟩ := exists_between (hshort b _ _ _ hc)
  obtain ⟨ht₁, hc'⟩ := hH b _ _ _ hc ht'
  obtain ⟨ht, hb'⟩ := h _ _ _ hb ht₁
  exact ⟨ht, b, _, hb', hc'⟩

/-- Either of two texts, where a condition decides the same in front of both endings. -/
theorem ite {p : Prop} [Decidable p] (h : Carries r r' P G Q) (h' : Carries r r' P G' Q) :
    Carries r r' P (if p then G else G') Q := by
  split_ifs
  · exact h
  · exact h'

/-- Looking at the next token sees the same one as long as both endings look alike. -/
theorem check (hsettings : settings.OfLine) (kind : TokenKind) :
    Carries r r' (Alike r r') (check settings kind) (Alike r r') := by
  rintro t found t' ⟨htext, kind', value, after, hnext, hfound⟩ halike
  obtain rfl := List.append_cancel_right htext
  obtain ⟨_, -, -, hnext'⟩ := halike.next hsettings hnext
  exact ⟨halike, rfl, kind', value, _, hnext', hfound⟩

variable (hseam : Seam r r')
include hseam

/-- A word is the next token in front of both endings, whatever stands behind it. -/
theorem token (hsettings : Settings.OfLine ⟨[.base], ignored⟩)
    (hkinds : ∀ kind ∈ kinds, kind.isSolid = true) :
    Carries r r' (Sees r r' ignored kinds) (token ⟨[.base], ignored⟩ kinds) fun _ => True := by
  rintro t ⟨kind, value⟩ t' ⟨hkind, hnext⟩ -
  have hmem := List.contains_iff_mem.1 hkind
  have hsolid := hkinds kind hmem
  exact ⟨⟨hseam.alike_of_word hsettings hnext hsolid, kind, hmem, _, _, hnext⟩, hkind,
    hseam (by decide) hsettings.skips (ne_of_isSolid hsolid (by decide)) hnext⟩

/-- A symbol is carried over wherever the two endings look alike. -/
theorem condition (hsettings : Settings.OfLine ⟨[.char, .base], ignored⟩) :
    Carries r r' (Alike r r') (condition ignored) fun _ => True := by
  rintro t node t' ⟨⟨kind, value⟩, mid, ⟨hkind, hnext⟩, hnode, rfl⟩ -
  have hkinds : ∀ kind ∈ conditionKinds, kind ≠ .newline ∧ kind ≠ .endOfInput := by decide
  obtain ⟨hnewline, hend⟩ := hkinds kind (List.contains_iff_mem.1 hkind)
  exact ⟨hseam.alike (hnext.widest_of_symbol hsettings hnewline) hend, _, _,
    ⟨hkind, hseam (by decide) hsettings.skips hend hnext⟩, hnode, rfl⟩

/-- A movement of a head is one of three words. -/
theorem shift (hsettings : Settings.OfLine ⟨[.base], ignored⟩) :
    Carries r r' (Sees r r' ignored [.shiftLeft, .shiftRight, .noShift]) (shift ignored) fun _ =>
      True :=
  (token hseam hsettings (by decide)).bind (fun _ => ofOption _) fun _ => .ofOption _

/-- A name is carried over, since the endings agree on it as a word. -/
theorem identifier (hsettings : Settings.OfLine ⟨[.base], ignored⟩) :
    Carries r r' (Sees r r' ignored [.identifier]) (identifier ⟨[.base], ignored⟩) fun _ => True :=
  (token hseam hsettings (by decide)).bind (fun _ => pure _) fun _ => .pure _

/-- A value for the tape of a given name. -/
theorem qualified {G : Recognizer Node} (hsettings : Settings.OfLine ⟨[.base], ignored⟩)
    (h : Carries r r' P G fun _ => True) (hG : G.Shortens) :
    Carries r r' (Sees r r' ignored [.identifier]) (qualified ignored G) fun _ => True := by
  have htoken : Carries r r' (Sees r r' ignored [.colon])
      (Recognizer.token ⟨[.base], ignored⟩ [.colon]) P :=
    (token hseam hsettings (by decide)).mono (fun _ ht => ht) fun _ _ => trivial
  have hvalue :=
    fun tape => h.bind (fun node => pure (Node.qualified tape node .invalid)) fun _ => .pure _
  refine ((identifier hseam hsettings).mono (fun _ ht => ht) fun _ _ => trivial).bind
    (fun tape => htoken.bind (fun _ => hvalue tape) fun _ => ?_) fun _ => ?_
  · exact hG.bind fun _ => .pure _
  · exact (Shortens.token _ _).bind fun _ => hG.bind fun _ => .pure _

/-- A symbol for a tape, unless a colon follows. -/
theorem tapeSymbol (hsettings : Settings.OfLine ⟨[.base], ignored⟩) :
    Carries r r' (Alike r r') (tapeSymbol ignored) (AvoidsColon r' ignored) := by
  rintro t node t' (hnode | ⟨-, hnode⟩) hcolon
  · obtain ⟨hsees, hnode'⟩ :=
      qualified hseam hsettings (condition hseam hsettings.symbols) (Shortens.condition _) t node t'
        hnode trivial
    exact ⟨hsees.alike, .inl hnode'⟩
  · obtain ⟨halike, hnode'⟩ := condition hseam hsettings.symbols t node t' hnode trivial
    exact ⟨halike, .inr ⟨not_qualified_of_condition hsettings hnode' hcolon, hnode'⟩⟩

/-- Elements in front of a closing bracket are carried over to another ending, one after the other:
each is followed by a comma or by the bracket, and so never by a colon. -/
theorem elements {G : Recognizer Node} (hsettings : Settings.OfLine ⟨[.base], ignored⟩)
    (h : Carries r r' P G (AvoidsColon r' ignored)) (hG : G.Shortens) :
    Carries r r' P (Elements ⟨[.base], ignored⟩ G) (Sees r r' ignored [.rightBracket]) := by
  intro t nodes t' hnodes ht'
  generalize htext : t ++ r = text at hnodes
  generalize hrest : t' ++ r = rest at hnodes
  induction hnodes generalizing t with
  | last hitem hnext hne =>
    subst htext hrest
    obtain ⟨ht, hitem'⟩ := h _ _ _ hitem (ht'.avoidsColon hsettings (by decide))
    obtain ⟨_, -, -, hnext'⟩ := ht'.alike.next hsettings hnext
    exact ⟨ht, .last hitem' hnext' hne⟩
  | more hitem hcomma hmore ih =>
    subst htext hrest
    obtain ⟨t₂, rfl⟩ := exists_between (Shortens.elements hG _ _ _ hmore)
    obtain ⟨t₁, rfl⟩ := exists_between hcomma.suffix
    obtain ⟨-, hmore'⟩ := ih _ rfl rfl
    have hsees : Sees r r' ignored [.comma] t₁ :=
      ⟨hseam.alike_of_word hsettings hcomma (by decide), _, List.mem_cons_self, _, _, hcomma⟩
    obtain ⟨ht, hitem'⟩ := h _ _ _ hitem (hsees.avoidsColon hsettings (by decide))
    exact ⟨ht, .more hitem' (hseam (by decide) hsettings.skips (by decide) hcomma) hmore'⟩

/-- What is in brackets is carried over if its elements are, unless a colon follows one of them. -/
theorem bracketed {G : Recognizer Node} (hsettings : Settings.OfLine ⟨[.base], ignored⟩)
    (h : Carries r r' P G (AvoidsColon r' ignored)) (hG : G.Shortens)
    (hP : ∀ t, P t → Alike r r' t) :
    Carries r r' (Sees r r' ignored [.leftBracket]) (bracketed ⟨[.base], ignored⟩ G) fun _ =>
      True := by
  have hclose : ∀ nodes : List Node, Carries r r' (Sees r r' ignored [.rightBracket])
      (do
        let _ ← Recognizer.token ⟨[.base], ignored⟩ [.rightBracket]
        return Node.list nodes .invalid)
      fun _ => True := fun nodes =>
    (token hseam hsettings (by decide)).bind (fun _ => pure _) fun _ => .pure _
  have hclose' : ∀ nodes : List Node, Shortens
      (do
        let _ ← Recognizer.token ⟨[.base], ignored⟩ [.rightBracket]
        return Node.list nodes .invalid) := fun nodes =>
    (Shortens.token _ _).bind fun _ => .pure _
  have hopen : Carries r r' (Sees r r' ignored [.leftBracket])
      (Recognizer.token ⟨[.base], ignored⟩ [.leftBracket]) (Alike r r') :=
    (token hseam hsettings (by decide)).mono (fun _ ht => ht) fun _ _ => trivial
  -- There are elements or none, and the closing bracket in both cases.
  refine hopen.bind (fun _ => (check hsettings _).bind (fun _ => ite ?_ ?_) fun _ => .ite ?_ ?_)
    fun _ => ?_
  · exact ((pure _).bind hclose hclose').mono (fun t ht => ht.alike) fun _ ht => ht
  · exact ((elements hseam hsettings h hG).bind hclose hclose').mono hP fun _ ht => ht
  · exact (Shortens.pure _).bind hclose'
  · exact (Shortens.elements hG).bind hclose'
  · exact (Shortens.check _ _).bind fun _ => .ite ((Shortens.pure _).bind hclose')
      ((Shortens.elements hG).bind hclose')

/-- A list, in brackets or not, is recognized in front of both endings alike. In brackets the ending
does not matter; a single item must not be followed by a colon, which would make it a name. -/
theorem listOf {G : List TokenKind → Recognizer Node} {P : List TokenKind → List Char → Prop}
    (h : ∀ ignored, Settings.OfLine ⟨[.base], ignored⟩ →
      Carries r r' (P ignored) (G ignored) (AvoidsColon r' ignored))
    (hG : ∀ ignored, (G ignored).Shortens) (hP : ∀ ignored t, P ignored t → Alike r r' t) :
    Carries r r' (fun t => Sees r r' lineBlanks [.leftBracket] t ∨ P lineBlanks t)
      (listOf G lineBlanks) (AvoidsColon r' lineBlanks) := by
  intro t node t' hnode ht'
  obtain ⟨kind, value, after, hnext, hnode⟩ := listOf_iff.1 hnode
  -- The first token, which decides between the two forms, is the same in front of both endings.
  have hlist : Alike r r' t → ∃ after', Next ⟨[.base], lineBlanks⟩ kind value after' (t ++ r') := by
    intro halike
    obtain ⟨_, -, -, hnext'⟩ := halike.next .line hnext
    exact ⟨_, hnext'⟩
  rcases hnode with ⟨rfl, hnode⟩ | ⟨hkind, item, hitem, rfl⟩
  · obtain ⟨hsees, hnode'⟩ :=
      bracketed hseam .brackets (h _ .brackets) (hG _) (hP _) _ _ _ hnode trivial
    obtain ⟨after', hnext'⟩ := hlist hsees.alike
    exact ⟨.inl ⟨hsees.alike, _, List.mem_cons_self, _, _, hnext⟩,
      listOf_iff.2 ⟨_, _, _, hnext', .inl ⟨rfl, hnode'⟩⟩⟩
  · obtain ⟨ht, hitem'⟩ := h _ .line _ _ _ hitem ht'
    obtain ⟨after', hnext'⟩ := hlist (hP _ _ ht)
    exact ⟨.inr ht, listOf_iff.2 ⟨_, _, _, hnext', .inr ⟨hkind, item, hitem', rfl⟩⟩⟩

/-- Symbols for the tapes, unless a colon follows. -/
theorem symbols : Carries r r' (Alike r r') (symbols lineBlanks) (AvoidsColon r' lineBlanks) :=
  (listOf hseam (P := fun _ => Alike r r')
    (fun _ hsettings => tapeSymbol hseam hsettings) Shortens.tapeSymbol
    fun _ _ ht => ht).mono (fun _ ht => ht.elim Sees.alike id) fun _ ht => ht

end Carries

end MachineLang
