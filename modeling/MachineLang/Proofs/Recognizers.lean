import MachineLang.Proofs.NextTokens
import MachineLang.Proofs.RuleReading

/-!
# Recognizers

A `Recognizer` says what a text may begin with: a value, and the text behind it. Recognizers are put
together as parsers are, in sequence or by a choice (`Recognizer.orElse`). A parser `Recognizes`
what a recognizer says if it reads each text that begins so as that value, up to a view of what it
gives, and fails on every other text. So a recognizer says everything about a parser but where it
reads, and there is a rule for each way of putting parsers together.
-/

namespace MachineLang

/-- What a text may begin with: a value, and the text behind it. -/
def Recognizer (β : Type) : Type := List Char → β → List Char → Prop

namespace Recognizer

variable {β β' : Type}

instance : Monad Recognizer where
  pure b text b' rest := b' = b ∧ rest = text
  bind G H text c rest := ∃ b mid, G text b mid ∧ H b mid c rest

/-- The text begins with something that is recognized, wherever that ends. -/
def Begins (G : Recognizer β) (text : List Char) : Prop := ∃ b rest, G text b rest

/-- What no text begins with: the recognizer for no alternatives. -/
def none : Recognizer β := fun _ _ _ => False

/-- A value, if there is one, and nothing of the text. -/
def ofOption (b? : Option β) : Recognizer β := fun text b rest => b? = some b ∧ rest = text

/-- What the first recognizer says if the text begins with what it says, or else what the second one
says. -/
def orElse (G H : Recognizer β) : Recognizer β :=
  fun text b rest => G text b rest ∨ ¬ G.Begins text ∧ H text b rest

/-- The next token, if it is of one of some kinds. -/
def token (settings : Settings) (kinds : List TokenKind) : Recognizer (TokenKind × List Char) :=
  fun text t rest =>
  kinds.contains t.1 = true ∧ Next settings t.1 t.2 rest text

/-- Whether the next token is of a kind. -/
def check (settings : Settings) (kind : TokenKind) : Recognizer Bool := fun text found rest =>
  rest = text ∧ ∃ kind' value after, Next settings kind' value after text ∧ found = (kind' == kind)

/-- Whether the next token is a word. -/
def checkWord (settings : Settings) (word : String) : Recognizer Bool := fun text found rest =>
  rest = text ∧ ∃ kind value after, Next settings kind value after text ∧
    found = (kind == .identifier && .ofList value == word)

/-- One or more elements, separated by commas. -/
inductive Elements (settings : Settings) (G : Recognizer Node) : Recognizer (List Node)
  /-- The last element, which no comma follows. -/
  | last {text rest value after : List Char} {node : Node} {kind : TokenKind}
      (hitem : G text node rest) (hnext : Next settings kind value after rest)
      (hne : kind ≠ .comma) : Elements settings G text [node] rest
  /-- An element that another one follows. -/
  | more {text mid value after rest : List Char} {node : Node} {nodes : List Node}
      (hitem : G text node mid) (hcomma : Next settings .comma value after mid)
      (hmore : Elements settings G after nodes rest) : Elements settings G text (node :: nodes) rest

/-- Whatever a text begins with, what is behind it is the end of the text. -/
def Shortens (G : Recognizer β) : Prop := ∀ text b rest, G text b rest → rest <:+ text

namespace Shortens

variable {G : Recognizer β} {H : β → Recognizer β'} {settings : Settings}

/-- Giving a value leaves the text. -/
theorem pure (b : β) : Shortens (Pure.pure b : Recognizer β) := by
  rintro text _ rest ⟨-, rfl⟩
  exact List.suffix_rfl

/-- Giving a value, if there is one, leaves the text. -/
theorem ofOption (b? : Option β) : (ofOption b?).Shortens := by
  rintro text _ rest ⟨-, rfl⟩
  exact List.suffix_rfl

/-- One text after the other: the rest of a rest is a rest of the whole. -/
theorem bind (h : G.Shortens) (hH : ∀ b, (H b).Shortens) : (G >>= H).Shortens := by
  rintro text c rest ⟨b, mid, hG, hc⟩
  exact (hH b _ _ _ hc).trans (h _ _ _ hG)

/-- Either of two texts: both leave a rest of the whole. -/
theorem orElse {G' : Recognizer β} (h : G.Shortens) (h' : G'.Shortens) :
    (G.orElse G').Shortens := by
  rintro text b rest (hG | ⟨-, hG⟩)
  · exact h _ _ _ hG
  · exact h' _ _ _ hG

/-- Either of two texts, where a condition decides which one. -/
theorem ite {G' : Recognizer β} {p : Prop} [Decidable p] (h : G.Shortens) (h' : G'.Shortens) :
    (if p then G else G').Shortens := by
  split_ifs
  · exact h
  · exact h'

/-- The next token is a part of the text, so what is behind it is a rest of it. -/
theorem token (settings : Settings) (kinds : List TokenKind) : (token settings kinds).Shortens :=
  fun _ _ _ h => h.2.suffix

/-- Looking at the next token leaves the whole text. -/
theorem check (settings : Settings) (kind : TokenKind) : (check settings kind).Shortens := by
  rintro text found rest ⟨rfl, -⟩
  exact List.suffix_rfl

/-- Looking at the next token for a word leaves the whole text. -/
theorem checkWord (settings : Settings) (word : String) : (checkWord settings word).Shortens := by
  rintro text found rest ⟨rfl, -⟩
  exact List.suffix_rfl

/-- Elements with commas between them leave a rest of the text, by induction over the elements. -/
theorem elements {G : Recognizer Node} (hG : G.Shortens) : (Elements settings G).Shortens := by
  intro text nodes rest h
  induction h with
  | last hitem => exact hG _ _ _ hitem
  | more hitem hcomma _ ih => exact ih.trans (hcomma.suffix.trans (hG _ _ _ hitem))

end Shortens

/-- Blanks in front of a text do not change what it begins with. -/
def PassesBlanks (G : Recognizer β) : Prop := ∀ ⦃gap text : List Char⦄ ⦃b : β⦄ ⦃rest : List Char⦄,
  gap.all Written.isSpace = true → (G (gap ++ text) b rest ↔ G text b rest)

namespace PassesBlanks

variable {G G' : Recognizer β} {gap text : List Char}

/-- What the text begins with at all. -/
theorem begins_iff (h : G.PassesBlanks) (hgap : gap.all Written.isSpace = true) :
    G.Begins (gap ++ text) ↔ G.Begins text :=
  exists_congr fun _ => exists_congr fun _ => h hgap

/-- One text after the other: blanks in front of the first one do not matter. -/
theorem bind {H : β → Recognizer β'} (h : G.PassesBlanks) : (G >>= H).PassesBlanks :=
  fun _ _ _ _ hgap =>
  exists_congr fun _ => exists_congr fun _ => and_congr_left fun _ => h hgap

/-- Either of two texts: blanks do not matter to either of them. -/
theorem orElse (h : G.PassesBlanks) (h' : G'.PassesBlanks) : (G.orElse G').PassesBlanks :=
  fun _ _ _ _ hgap =>
  or_congr (h hgap) (and_congr (not_congr (h.begins_iff hgap)) (h' hgap))

/-- The next token is the same one with blanks in front of it. -/
theorem token {modes : List LexMode} {ignored : List TokenKind} (hskips : SkipsBlanks ignored)
    (hbase : .base ∈ modes) (kinds : List TokenKind) :
    (token ⟨modes, ignored⟩ kinds).PassesBlanks :=
  fun _ _ _ _ hgap =>
  and_congr_right fun _ => Next.blanks_iff hskips hbase hgap

end PassesBlanks

end Recognizer

open Recognizer

variable {settings : Settings} {ignored : List TokenKind} {modes : List LexMode}
  {text rest : List Char} {α α' β β' : Type}

/-- The parser reads each text that begins as the recognizer says, and fails on the others. -/
structure Recognizes (settings : Settings) (p : Parser α) (view : α → β) (G : Recognizer β) :
    Prop where
  /-- It reads what the recognizer says. -/
  reads : ∀ {text b rest}, G text b rest → Reads settings p text (view · = b) rest
  /-- It fails on other texts. -/
  fails : ∀ {text}, ¬ G.Begins text → Fails settings p text

namespace Recognizes

variable {p : Parser α} {f : α → Parser α'} {view : α → β} {view' : α' → β'} {G G' : Recognizer β}

/-- Giving a value reads nothing and never fails. -/
theorem pure {a : α} {b : β} (h : view a = b) :
    Recognizes settings (pure a) view (Pure.pure b) where
  reads := by
    rintro text _ rest ⟨rfl, rfl⟩
    exact Reads.pure h
  fails hnone := absurd ⟨b, _, rfl, rfl⟩ hnone

/-- A recognizer may be said in other words. -/
theorem congr (h : Recognizes settings p view G)
    (hiff : ∀ text b rest, G text b rest ↔ G' text b rest) :
    Recognizes settings p view G' where
  reads hG := h.reads ((hiff _ _ _).2 hG)
  fails hnone := h.fails fun ⟨b, rest, hG⟩ => hnone ⟨b, rest, (hiff _ _ _).1 hG⟩

/-- Giving a value that is known. -/
theorem ofOption {a : α} {b? : Option β} (h : b? = some (view a)) :
    Recognizes settings (Pure.pure a) view (Recognizer.ofOption b?) :=
  (pure rfl).congr fun text b rest => by
    subst h
    exact and_congr ⟨fun hb => hb ▸ rfl, fun hb => (Option.some.inj hb).symm⟩ Iff.rfl

/-- An error where there is no value. -/
theorem ofOption_none {e : SyntaxError} {b? : Option β} (he : e.isEndless = false)
    (h : b? = Option.none) :
    Recognizes settings (MonadExcept.throw e : Parser α) view (Recognizer.ofOption b?) where
  reads hb := absurd (h.symm.trans hb.1) (Option.some_ne_none _).symm
  fails _ := Fails.throw he

/-- An error is never what a text is read as. -/
theorem throw {e : SyntaxError} (he : e.isEndless = false) :
    Recognizes settings (throw e : Parser α) view none where
  reads := False.elim
  fails _ := Fails.throw he

/-- A sequence recognizes one text after the other; what goes on has to do so only with what may be
given. -/
theorem bind_of {H : β → Recognizer β'} (h : Recognizes settings p view G)
    (hf : ∀ a text rest, G text (view a) rest → Recognizes settings (f a) view' (H (view a))) :
    Recognizes settings (p >>= f) view' (G >>= H) where
  reads := by
    rintro text c rest ⟨b, mid, hG, hH⟩
    refine (h.reads hG).bind ?_
    rintro a rfl
    exact (hf a text mid hG).reads hH
  fails := by
    intro text hnone
    -- The second part is to blame only if the first one is there; otherwise the first one fails
    -- already.
    by_cases hG : G.Begins text
    · obtain ⟨b, mid, hG⟩ := hG
      refine (h.reads hG).bind_fails ?_
      rintro a rfl
      exact (hf a text mid hG).fails fun ⟨c, rest, hH⟩ => hnone ⟨c, rest, view a, mid, hG, hH⟩
    · exact (h.fails hG).bind

/-- A sequence recognizes one text after the other. -/
theorem bind {H : β → Recognizer β'} (h : Recognizes settings p view G)
    (hf : ∀ a, Recognizes settings (f a) view' (H (view a))) :
    Recognizes settings (p >>= f) view' (G >>= H) :=
  h.bind_of fun a _ _ _ => hf a

/-- A parser that answers without reading leaves everything to the next one. -/
theorem bind_silent {H : Recognizer β'} (h : ∀ text, Reads settings p text (fun _ => True) text)
    (hf : ∀ a, Recognizes settings (f a) view' H) : Recognizes settings (p >>= f) view' H where
  reads hG := (h _).bind fun a _ => (hf a).reads hG
  fails hnone := (h _).bind_fails fun a _ => (hf a).fails hnone

/-- What is behind the choice of a range. -/
theorem bind_spanFrom {f : Span → Parser α'} {H : Recognizer β'} (start : Location)
    (hf : ∀ span, Recognizes settings (f span) view' H) :
    Recognizes settings (Parser.spanFrom start >>= f) view' H :=
  bind_silent (fun _ => Reads.spanFrom start) hf

/-- A decision recognizes what the chosen parser does. -/
theorem ite {P Q : Prop} [Decidable P] [Decidable Q] {q : Parser α} (hiff : P ↔ Q)
    (h : Recognizes settings p view G) (h' : Recognizes settings q view G') :
    Recognizes settings (if P then p else q) view (if Q then G else G') := by
  by_cases hQ : Q
  · rw [if_pos (hiff.2 hQ), if_pos hQ]
    exact h
  · rw [if_neg (mt hiff.1 hQ), if_neg hQ]
    exact h'

/-- A parser under changed settings recognizes what it recognizes under them. -/
theorem withSettings {update : Settings → Settings} (h : Recognizes (update settings) p view G) :
    Recognizes settings (Parser.withSettings update p) view G where
  reads hG := (h.reads hG).withSettings
  fails hnone := (h.fails hnone).withSettings

/-- The only one of some parsers. -/
theorem oneOf_singleton {failure : SyntaxError} (hp : Recognizes settings p view G) :
    Recognizes settings (Parser.oneOf failure [p]) view G where
  reads hG := (hp.reads hG).oneOf_head
  fails hnone := by
    refine (hp.fails hnone).attempt.bind_fails ?_
    rintro _ ⟨e, rfl, he⟩
    exact Fails.throw he

/-- A choice with one more parser in front recognizes what that one does, or else what the others
do. -/
theorem oneOf_cons {failure : SyntaxError} {ps : List (Parser α)}
    (hp : Recognizes settings p view G)
    (hps : ∀ e, Recognizes settings (Parser.oneOf e ps) view G') :
    Recognizes settings (Parser.oneOf failure (p :: ps)) view (G.orElse G') where
  reads := by
    rintro text b rest (hG | ⟨hnone, hG⟩)
    · exact (hp.reads hG).oneOf_head
    · exact Reads.oneOf_tail (hp.fails hnone) fun e => (hps e).reads hG
  fails := by
    intro text hnone
    have hp' : ¬ G.Begins text := fun ⟨b, rest, hG⟩ => hnone ⟨b, rest, .inl hG⟩
    refine (hp.fails hp').attempt.bind_fails ?_
    rintro _ ⟨e, rfl, -⟩
    exact (hps e).fails fun ⟨b, rest, hG⟩ => hnone ⟨b, rest, .inr ⟨hp', hG⟩⟩

/-! ## Tokens -/

section Tokens

variable (hskips : SkipsBlanks ignored)
include hskips

/-- The next token, if it is of one of some kinds. -/
theorem expect (kinds : List TokenKind) :
    Recognizes ⟨modes, ignored⟩ (Parser.expect kinds) (fun t => (t.kind, t.value.toList))
      (token ⟨modes, ignored⟩ kinds) where
  reads := by
    rintro text ⟨kind, value⟩ rest ⟨hkinds, hnext⟩
    refine (Reads.expect hnext hkinds).imp fun token htoken => ?_
    rw [htoken.kind_eq, htoken.value_eq, String.toList_ofList]
  fails := by
    intro text hnone
    obtain ⟨kind, value, rest, hnext⟩ := Next.exists_of_text hskips modes text
    cases hkinds : kinds.contains kind with
    | true => exact absurd ⟨(kind, value), rest, hkinds, hnext⟩ hnone
    | false => exact Fails.expect hnext hkinds

/-- The next token, whatever it is. -/
theorem next :
    Recognizes ⟨modes, ignored⟩ Parser.next (fun t => (t.kind, t.value.toList))
      (token ⟨modes, ignored⟩ TokenKind.all) where
  reads := by
    rintro text ⟨kind, value⟩ rest ⟨-, hnext⟩
    refine (Reads.next hnext).imp fun token htoken => ?_
    rw [htoken.kind_eq, htoken.value_eq, String.toList_ofList]
  fails := by
    intro text hnone
    obtain ⟨kind, value, rest, hnext⟩ := Next.exists_of_text hskips modes text
    exact absurd ⟨(kind, value), rest, by cases kind <;> rfl, hnext⟩ hnone

/-- Whether the next token is of a kind. -/
theorem check (kind : TokenKind) :
    Recognizes ⟨modes, ignored⟩ (Parser.check kind) id
      (Recognizer.check ⟨modes, ignored⟩ kind) where
  reads := by
    rintro text _ _ ⟨rfl, kind', value, after, hnext, rfl⟩
    exact Reads.check hnext kind
  fails := by
    intro text hnone
    obtain ⟨kind', value, after, hnext⟩ := Next.exists_of_text hskips modes text
    exact absurd ⟨_, text, rfl, kind', value, after, hnext, rfl⟩ hnone

/-- Whether the next token is a word. -/
theorem checkWord (word : String) :
    Recognizes ⟨modes, ignored⟩ (Parser.checkWord word) id
      (Recognizer.checkWord ⟨modes, ignored⟩ word) where
  reads := by
    rintro text _ _ ⟨rfl, kind', value, after, hnext, rfl⟩
    exact Reads.checkWord hnext word
  fails := by
    intro text hnone
    obtain ⟨kind, value, after, hnext⟩ := Next.exists_of_text hskips modes text
    exact absurd ⟨_, text, rfl, kind, value, after, hnext, rfl⟩ hnone

end Tokens

/-! ## Lists -/

/-- Elements are read as they are recognized, and where there are none the text is refused. -/
theorem elementsWithin {item : Parser Node} {G : Recognizer Node} (hskips : SkipsBlanks ignored)
    (hitem : Recognizes ⟨modes, ignored⟩ item Node.bare G) (hG : G.Shortens) {steps : Nat}
    (hsteps : text.length < steps) (before : List Node) :
    (∀ {nodes rest}, Elements ⟨modes, ignored⟩ G text nodes rest →
      Reads ⟨modes, ignored⟩ (Parser.elementsWithin .comma item steps before) text
        (·.map Node.bare = before.reverse.map Node.bare ++ nodes) rest) ∧
    (¬ (Elements ⟨modes, ignored⟩ G).Begins text →
      Fails ⟨modes, ignored⟩ (Parser.elementsWithin .comma item steps before) text) := by
  -- By induction on the steps: every element takes some text, so the steps last for the rest.
  induction steps generalizing text before with
  | zero => exact absurd hsteps (Nat.not_lt_zero _)
  | succ steps ih =>
    constructor
    · rintro nodes rest h
      cases h with
      | last hitem' hnext hne =>
        refine Reads.elementsWithin_singleton (hitem.reads hitem') hnext hne ?_
        rintro node rfl
        rw [List.reverse_cons, List.map_append]
        rfl
      | more hitem' hcomma hmore =>
        refine Reads.elementsWithin_cons (hitem.reads hitem') hcomma ?_
        rintro node rfl
        have hlt := hcomma.length_lt (by decide)
        have hle := (hG _ _ _ hitem').length_le
        refine ((ih (by omega) (node :: before)).1 hmore).imp fun found hfound => ?_
        rw [hfound, List.reverse_cons, List.map_append, List.append_assoc]
        rfl
    · intro hnone
      by_cases hitem' : G.Begins text
      · obtain ⟨b, mid, hitem'⟩ := hitem'
        obtain ⟨kind, value, after, hnext⟩ := Next.exists_of_text hskips modes mid
        refine (hitem.reads hitem').bind_fails ?_
        rintro node rfl
        by_cases hcomma : kind = .comma
        · subst hcomma
          have hlt := hnext.length_lt (by decide)
          have hle := (hG _ _ _ hitem').length_le
          refine (Reads.accept hnext).bind_fails ?_
          rintro _ ⟨token, rfl⟩
          refine (ih (by omega) (node :: before)).2 ?_
          rintro ⟨nodes, rest, hmore⟩
          exact hnone ⟨_, _, .more hitem' hnext hmore⟩
        · exact absurd ⟨_, _, .last hitem' hnext hcomma⟩ hnone
      · exact (hitem.fails hitem').bind

/-- What is behind as many elements as there are is recognized behind them. The elements are read in
a loop, and whether the loop goes on is decided by the next token. -/
theorem bind_elements {item : Parser Node} {G : Recognizer Node} {f : List Node → Parser α'}
    {H : List Node → Recognizer β'} (hskips : SkipsBlanks ignored)
    (hitem : Recognizes ⟨modes, ignored⟩ item Node.bare G) (hG : G.Shortens)
    (hf : ∀ nodes, Recognizes ⟨modes, ignored⟩ (f nodes) view' (H (nodes.map Node.bare))) :
    Recognizes ⟨modes, ignored⟩ (do
        let steps ← Parser.limit
        let nodes ← Parser.elementsWithin .comma item steps []
        f nodes)
      view' (Elements ⟨modes, ignored⟩ G >>= H) where
  reads := by
    rintro text c rest ⟨nodes, mid, h, hH⟩
    refine Reads.limit.bind fun steps hsteps => ?_
    refine ((elementsWithin hskips hitem hG hsteps []).1 h).bind ?_
    rintro found rfl
    exact (hf found).reads hH
  fails := by
    intro text hnone
    refine Reads.limit.bind_fails fun steps hsteps => ?_
    obtain ⟨hreads, hfails⟩ := elementsWithin hskips hitem hG hsteps []
    -- As for a sequence: either the elements are missing, or what follows them is.
    by_cases h : (Elements ⟨modes, ignored⟩ G).Begins text
    · obtain ⟨nodes, mid, h⟩ := h
      refine (hreads h).bind_fails ?_
      rintro found rfl
      exact (hf found).fails fun ⟨c, rest, hH⟩ => hnone ⟨c, rest, _, mid, h, hH⟩
    · exact (hfails h).bind

end Recognizes

/-! ## Rules -/

/-- Rules with calls of a given depth or more recognize what their parsers do, wherever their range
begins. -/
def RuleRecognizes (n : Nat) (settings : Settings) (name : String) (G : Recognizer Node) : Prop :=
  ∀ depth, n ≤ depth → ∀ start, Recognizes settings (RuleTable.standard.callFrom depth name start)
    Node.bare G

namespace RuleRecognizes

variable {n m depth : Nat} {name : String} {rule : Combinator} {G G' : Recognizer Node}

/-- A rule recognizes what its parser does. -/
theorem of_find (hfind : RuleTable.standard.find? name = some rule)
    (h : ∀ depth, n ≤ depth → ∀ start, Recognizes settings (rule.read .standard (depth + 1) start)
      Node.bare G) :
    RuleRecognizes (n + 1) settings name G :=
  RuleTable.forall_callFrom (motive := fun p => Recognizes settings p Node.bare G) hfind h

/-- A leaf recognizes its own tokens. -/
theorem leaf {l : Leaf} (hfind : RuleTable.standard.find? name = some (.leaf l))
    (h : ∀ depth, n ≤ depth → ∀ start,
      Recognizes settings (l.read (RuleTable.standard.call depth) start) Node.bare G) :
    RuleRecognizes (n + 1) settings name G :=
  .of_find hfind h

/-- Deeper calls may be allowed: what holds of all calls from a depth on holds from a greater one
on. -/
theorem mono (h : RuleRecognizes n settings name G) (hle : n ≤ m) :
    RuleRecognizes m settings name G :=
  fun depth hdepth start => h depth (Nat.le_trans hle hdepth) start

/-- A recognizer may be said in other words. -/
theorem congr (h : RuleRecognizes n settings name G)
    (hiff : ∀ text b rest, G text b rest ↔ G' text b rest) :
    RuleRecognizes n settings name G' :=
  fun depth hdepth start => (h depth hdepth start).congr hiff

/-- A rule recognizes the same from the next token on. -/
theorem call (h : RuleRecognizes n settings name G) (hdepth : n ≤ depth) :
    Recognizes settings (RuleTable.standard.call depth name) Node.bare G :=
  Recognizes.bind_silent (fun _ => Reads.location) fun start => h depth hdepth start

/-- A choice under another mode recognizes what the branch for the next token does, where the token
is cut under that mode. Without a branch for it there is nothing to recognize. -/
theorem choose {mode : LexMode} {branches : List Branch} {H : String → Recognizer Node}
    (hskips : SkipsBlanks ignored)
    (hfind : RuleTable.standard.find? name = some (.choose (some mode) branches Option.none))
    (hconsume : ∀ b ∈ branches, b.consume = false)
    (h : ∀ b ∈ branches, RuleRecognizes n ⟨mode :: modes, ignored⟩ b.rule (H b.rule)) :
    RuleRecognizes (n + 1) ⟨modes, ignored⟩ name fun text node rest =>
      ∃ kind value after, Next ⟨mode :: modes, ignored⟩ kind value after text ∧
        ∃ b, branches.find? (fun b => b.kind == kind) = some b ∧ H b.rule text node rest := by
  refine .of_find hfind fun depth hdepth start => ⟨?_, ?_⟩
  · rintro text node rest
      ⟨kind, value, after, (hnext : Next (Settings.push mode ⟨modes, ignored⟩) _ _ _ _), b,
      hfound, hH⟩
    have hb := List.mem_of_find?_eq_some hfound
    refine (Reads.choiceToken hnext _).bind fun token htoken => ?_
    rw [htoken.kind_eq, hfound]
    refine Reads.withSettings ?_
    rw [hconsume b hb]
    exact (h b hb depth hdepth _).reads hH
  · -- If no branch is for the next token, or its rule does not recognize the text, the choice
    -- fails.
    intro text hnone
    obtain ⟨kind, value, after, (hnext : Next (Settings.push mode ⟨modes, ignored⟩) _ _ _ _)⟩ :=
      Next.exists_of_text hskips (mode :: modes) text
    refine (Reads.choiceToken hnext _).bind_fails fun token htoken => ?_
    rw [htoken.kind_eq]
    cases hfound : branches.find? (fun b => b.kind == kind) with
    | none => exact Fails.throw rfl
    | some b =>
      have hb := List.mem_of_find?_eq_some hfound
      refine Fails.withSettings ?_
      rw [hconsume b hb]
      refine (h b hb depth hdepth _).fails ?_
      rintro ⟨node, rest, hH⟩
      exact hnone ⟨node, rest, kind, value, after, hnext, b, hfound, hH⟩

/-- Two alternatives recognize what the first rule does, or else what the second one does. -/
theorem alternative_pair {first second : String}
    (hfind : RuleTable.standard.find? name = some (.alternative [first, second]))
    (h : RuleRecognizes n settings first G) (h' : RuleRecognizes n settings second G') :
    RuleRecognizes (n + 1) settings name (G.orElse G') := by
  refine .of_find hfind fun depth hdepth start => ?_
  show Recognizes settings (Parser.oneOf (.invalid .noAlternatives (.point start))
    [RuleTable.standard.callFrom depth first start, RuleTable.standard.callFrom depth second start])
      Node.bare _
  refine Recognizes.oneOf_cons (h depth hdepth start) fun e => ?_
  exact Recognizes.oneOf_singleton (h' depth hdepth start)

/-- Three alternatives recognize what the first rule does, or else what the others do. -/
theorem alternative_triple {first second third : String} {G'' : Recognizer Node}
    (hfind : RuleTable.standard.find? name = some (.alternative [first, second, third]))
    (h : RuleRecognizes n settings first G) (h' : RuleRecognizes n settings second G')
    (h'' : RuleRecognizes n settings third G'') :
    RuleRecognizes (n + 1) settings name (G.orElse (G'.orElse G'')) := by
  refine .of_find hfind fun depth hdepth start => ?_
  show Recognizes settings (Parser.oneOf (.invalid .noAlternatives (.point start))
    [RuleTable.standard.callFrom depth first start, RuleTable.standard.callFrom depth second start,
      RuleTable.standard.callFrom depth third start]) Node.bare _
  refine Recognizes.oneOf_cons (h depth hdepth start) fun e => ?_
  refine Recognizes.oneOf_cons (h' depth hdepth start) fun e => ?_
  exact Recognizes.oneOf_singleton (h'' depth hdepth start)

end RuleRecognizes

end MachineLang
