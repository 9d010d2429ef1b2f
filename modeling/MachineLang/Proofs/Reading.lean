import MachineLang.Parser.Run
import MachineLang.Proofs.Lexemes
import MachineLang.Proofs.Unbuffered

/-!
# What parsers read

A parser `Reads` a text under settings if on every stream that stands in front of it the parser
succeeds, and what it gives and what it leaves are as stated; it `Fails` on a text if it gives an
error, but not the one that no alternative can mend. Both are about the text alone: which tokens
have been buffered before, and where the stream stands, does not matter. So the rules for parsers
compose: a sequence of parsers reads one text after the other (`Reads.bind`), a choice tries its
parsers on the same text (`Reads.oneOf_tail`), and each primitive reads the next token of the text
(`Next`).
-/

namespace MachineLang

variable {settings : Settings} {kind : TokenKind} {value text rest mid : List Char}

/-! ## The next token -/

/-- The next token of the text that reading does not skip is of a kind, and leaves `rest`. -/
inductive Next (settings : Settings) (kind : TokenKind) (value rest : List Char) : List Char → Prop
  /-- It is the first token. -/
  | token (hlex : Lexes settings.modes kind value rest)
      (hread : settings.ignored.contains kind = false) :
        Next settings kind value rest (value ++ rest)
  /-- It is the end token. -/
  | stop (hkind : kind = .endOfInput) (hvalue : value = []) (hrest : rest = [])
      (hread : settings.ignored.contains .endOfInput = false) : Next settings kind value rest []
  /-- It is behind a token that is skipped. -/
  | skip {skipped : TokenKind} {first text : List Char}
      (hlex : Lexes settings.modes skipped first text)
      (hskip : settings.ignored.contains skipped = true)
      (hnext : Next settings kind value rest text) : Next settings kind value rest (first ++ text)

namespace Unbuffered

variable {u : Unbuffered}

/-- The token at the cursor is the one that the text begins with, cut off under the modes that are
in force there. -/
theorem token_eq (hmodes : u.settings.modes = settings.modes)
    (htext : u.cursor.rest = value ++ rest) (hlex : Lexes settings.modes kind value rest) :
    u.token = ⟨kind, .ofList value, u.place, u.place.advance value⟩ ∧
      u.pass.cursor.rest = rest := by
  have hcursor : u.cursor = ⟨u.place, value ++ rest⟩ := by
    rw [← htext]
    rfl
  constructor
  · unfold token
    rw [hmodes, hcursor, hlex.lex_eq]
  · rw [cursor_pass, hmodes, hcursor, hlex.lex_eq]

/-- Where the text ends, the token at the cursor is the end token. -/
theorem token_of_nil (htext : u.cursor.rest = []) :
    u.token = ⟨.endOfInput, "", u.place, u.place⟩ := by
  have hcursor : u.cursor = ⟨u.place, []⟩ := by
    rw [← htext]
    rfl
  unfold token
  rw [hcursor]
  rfl

/-- Reading gives the next token of the text and leaves the text behind it. What is skipped in front
of it changes nothing but the place. -/
theorem advance_of_next (h : Next settings kind value rest text) (hsettings : u.settings = settings)
    (htext : u.cursor.rest = text) (expected : List TokenKind) :
    ∃ token u', u.advance expected = (.ok token, u') ∧ token.kind = kind ∧
      token.value = .ofList value ∧ u'.cursor.rest = rest := by
  -- By induction on the tokens that are skipped in front of it.
  induction h generalizing u with
  | token hlex hread =>
    obtain ⟨htoken, hpass⟩ := token_eq (congrArg Settings.modes hsettings) htext hlex
    rw [advance, htoken]
    dsimp only
    rw [dif_neg hlex.kind_ne, isIgnored, hsettings, hread]
    exact ⟨_, _, rfl, rfl, rfl, hpass⟩
  | stop hkind hvalue hrest hread =>
    subst hkind hvalue hrest
    rw [advance, token_of_nil htext]
    dsimp only
    rw [dif_pos rfl, isIgnored, hsettings, hread]
    exact ⟨_, _, rfl, rfl, rfl, htext⟩
  | skip hlex hskip hnext ih =>
    obtain ⟨htoken, hpass⟩ := token_eq (congrArg Settings.modes hsettings) htext hlex
    rw [advance, htoken]
    dsimp only
    rw [dif_neg hlex.kind_ne, isIgnored, hsettings, hskip, if_pos rfl]
    exact ih hsettings hpass

end Unbuffered

/-! ## Parsers on a text -/

section

variable {α β : Type}

/-- The parser reads the text under the settings: it succeeds on every stream that stands in front
of the text, gives a value with a property, and leaves `rest`. -/
def Reads (settings : Settings) (p : Parser α) (text : List Char) (P : α → Prop)
    (rest : List Char) :
    Prop :=
  ∀ s u, Shows s u → u.settings = settings → u.cursor.rest = text →
    ∃ value u', Agrees s (p s) (.ok value, u') ∧ P value ∧ u'.cursor.rest = rest

/-- The parser fails on the text under the settings, in a way that another alternative may mend. -/
def Fails (settings : Settings) (p : Parser α) (text : List Char) : Prop :=
  ∀ s u, Shows s u → u.settings = settings → u.cursor.rest = text →
    ∃ e u', Agrees s (p s) (.error e, u') ∧ e.isEndless = false

variable {p : Parser α} {f : α → Parser β} {P : α → Prop} {Q : β → Prop}

/-- The second parser goes on where the first one stops, unless that one failed. -/
theorem Parser.bind_apply (p : Parser α) (f : α → Parser β) (s : TokenStream) :
    (p >>= f) s = match p s with
      | (.ok value, t) => f value t
      | (.error e, t) => (.error e, t) := by
  show ExceptT.bind p f s = _
  unfold ExceptT.bind
  show (match p s with | (a, t) => ExceptT.bindCont f a t) = _
  rcases p s with ⟨_ | value, t⟩
  · rfl
  · rfl

/-- Where both parsers succeed, the first one does, and the second one behind it. -/
theorem Parser.of_bind_eq_ok {s t : TokenStream} {b : β} (h : (p >>= f) s = (.ok b, t)) :
    ∃ a u, p s = (.ok a, u) ∧ f a u = (.ok b, t) := by
  rw [bind_apply] at h
  generalize p s = result at *
  obtain ⟨e | a, u⟩ := result
  · cases h
  · exact ⟨a, u, rfl, h⟩

/-- On failure the handler goes on. -/
theorem Parser.tryCatch_apply (p : Parser α) (handler : SyntaxError → Parser α) (s : TokenStream) :
    (tryCatch p handler) s = match p s with
      | (.ok value, t) => (.ok value, t)
      | (.error e, t) => handler e t := by
  show ExceptT.tryCatch p handler s = _
  unfold ExceptT.tryCatch ExceptT.mk
  simp only [Bind.bind, StateT.bind]
  rcases p s with ⟨_ | value, t⟩
  · rfl
  · rfl

/-- An attempt takes back what it read if it fails, unless the rules have no end. -/
theorem Parser.attempt_apply (p : Parser α) (s : TokenStream) :
    Parser.attempt p s = match p s with
      | (.ok value, t) => (.ok (.done value), t)
      | (.error e, t) =>
        if e.isEndless then (.error e, t) else (.ok (.rolledBack e), t.restore s.snapshot) := by
  unfold Parser.attempt TokenStream.checkpoint
  dsimp only
  rcases p s with ⟨_ | value, t⟩
  · rfl
  · rfl

/-- The settings are the same behind an operation. -/
theorem Agrees.settings_right {s : TokenStream} {u : Unbuffered} {result : α × TokenStream}
    {result' : α × Unbuffered} (h : Agrees s result result') (hs : Shows s u) :
    result'.2.settings = u.settings := by
  rw [← h.shows.settings_eq, h.settings_eq, hs.settings_eq]

/-- Behind a parser that gives a value, the one that goes on with it stands beside the same stream
without a buffer. -/
theorem Agrees.exists_bind {s : TokenStream} {u' : Unbuffered} {value : α}
    (h : Agrees s (p s) (.ok value, u')) :
    ∃ t, Shows t u' ∧ ∀ result' : Except SyntaxError β × Unbuffered,
      Agrees t (f value t) result' → Agrees s ((p >>= f) s) result' := by
  obtain ⟨hresult, hshows, hkept, hsource, hstream⟩ := h
  refine ⟨(p s).2, hshows, fun result' hagrees => ?_⟩
  rw [Parser.bind_apply]
  generalize p s = result at *
  obtain ⟨r, t⟩ := result
  obtain rfl : r = .ok value := hresult
  exact hagrees.of_kept hkept hsource hstream

namespace Reads

/-- What a parser gives may be said in weaker terms. -/
theorem imp {P' : α → Prop} (h : Reads settings p text P rest)
    (himp : ∀ value, P value → P' value) :
    Reads settings p text P' rest := by
  intro s u hs hsettings htext
  obtain ⟨value, u', hagrees, hvalue, hrest⟩ := h s u hs hsettings htext
  exact ⟨value, u', hagrees, himp value hvalue, hrest⟩

/-- Giving a value reads nothing and leaves the text as it is. -/
theorem pure {value : α} (hvalue : P value) :
    Reads settings (pure value : Parser α) text P text := by
  intro s u hs hsettings htext
  exact ⟨value, u, Agrees.pure hs _, hvalue, htext⟩

/-- A parser and one that goes on with what it gives read one text after the other. -/
theorem bind (h : Reads settings p text P mid)
    (hf : ∀ value, P value → Reads settings (f value) mid Q rest) :
    Reads settings (p >>= f) text Q rest := by
  intro s u hs hsettings htext
  obtain ⟨value, u', hagrees, hvalue, hmid⟩ := h s u hs hsettings htext
  obtain ⟨t, hshows, hbind⟩ := hagrees.exists_bind (f := f)
  have hsettings' : u'.settings = settings := (hagrees.settings_right hs).trans hsettings
  obtain ⟨b, u'', hagrees', hb, hrest⟩ := hf value hvalue t u' hshows hsettings' hmid
  exact ⟨b, u'', hbind _ hagrees', hb, hrest⟩

/-- A function of what a parser gives. -/
theorem map {g : α → β} (h : Reads settings p text P rest) (hg : ∀ value, P value → Q (g value)) :
    Reads settings (g <$> p) text Q rest :=
  h.bind fun value hvalue => Reads.pure (hg value hvalue)

/-- What happens on failure does not matter to a parser that succeeds. -/
theorem tryCatch {handler : SyntaxError → Parser α} (h : Reads settings p text P rest) :
    Reads settings (tryCatch p handler) text P rest := by
  intro s u hs hsettings htext
  obtain ⟨value, u', hagrees, hvalue, hrest⟩ := h s u hs hsettings htext
  refine ⟨value, u', ?_, hvalue, hrest⟩
  have hresult := hagrees.value_eq
  rw [Parser.tryCatch_apply]
  generalize p s = result at *
  obtain ⟨r, t⟩ := result
  obtain rfl : r = .ok value := hresult
  exact hagrees

end Reads

namespace Fails

/-- A parser that has to give an error fails. -/
theorem throw {e : SyntaxError} (he : e.isEndless = false) :
    Fails settings (throw e : Parser α) text := by
  intro s u hs hsettings htext
  exact ⟨e, u, ⟨rfl, hs, List.prefix_rfl, rfl, rfl⟩, he⟩

/-- What does not begin does not go on. -/
theorem bind (h : Fails settings p text) : Fails settings (p >>= f) text := by
  intro s u hs hsettings htext
  obtain ⟨e, u', hagrees, he⟩ := h s u hs hsettings htext
  refine ⟨e, u', ?_, he⟩
  have hresult := hagrees.value_eq
  rw [Parser.bind_apply]
  obtain ⟨-, hshows, hkept, hsource, hstream⟩ := hagrees
  generalize p s = result at *
  obtain ⟨r, t⟩ := result
  obtain rfl : r = .error e := hresult
  exact ⟨rfl, hshows, hkept, hsource, hstream⟩

end Fails

/-- A sequence of parsers fails if the second one does. -/
theorem Reads.bind_fails (h : Reads settings p text P mid)
    (hf : ∀ value, P value → Fails settings (f value) mid) : Fails settings (p >>= f) text := by
  intro s u hs hsettings htext
  obtain ⟨value, u', hagrees, hvalue, hmid⟩ := h s u hs hsettings htext
  obtain ⟨t, hshows, hbind⟩ := hagrees.exists_bind (f := f)
  have hsettings' : u'.settings = settings := (hagrees.settings_right hs).trans hsettings
  obtain ⟨e, u'', hagrees', he⟩ := hf value hvalue t u' hshows hsettings' hmid
  exact ⟨e, u'', hbind _ hagrees', he⟩

/-! ## Settings and attempts -/

/-- Agreement under changed settings is agreement, once the settings are back: both streams stand at
the same place, and the buffer is cut again where it has to be. -/
theorem Agrees.withSettings {s : TokenStream} {u : Unbuffered} (hs : Shows s u) {changed : Settings}
    {result : α × TokenStream} {result' : α × Unbuffered}
    (h : Agrees (s.apply changed) result result') :
    Agrees s (result.1, result.2.apply s.settings) (result'.1, result'.2.apply u.settings) := by
  obtain ⟨-, hconsumed⟩ := hs.apply changed
  obtain ⟨hshows, hconsumed'⟩ := h.shows.apply s.settings
  refine ⟨h.value_eq, ?_, ?_, ?_, ?_⟩
  · rw [← hs.settings_eq]
    exact hshows
  · rw [hconsumed', ← hconsumed]
    exact h.kept
  · rw [TokenStream.source_apply, h.source_eq, TokenStream.source_apply]
  · exact hshows.settings_eq

/-- A parser under changed settings reads what it reads under them. -/
theorem Reads.withSettings {update : Settings → Settings}
    (h : Reads (update settings) p text P rest) :
    Reads settings (Parser.withSettings update p) text P rest := by
  rintro s u hs rfl htext
  have happly := (hs.apply (update s.settings)).1
  rw [hs.settings_eq] at happly
  obtain ⟨value, u', hagrees, hvalue, hrest⟩ := h _ _ happly rfl htext
  rw [← hs.settings_eq] at hagrees
  exact ⟨value, u'.apply u.settings, hagrees.withSettings hs, hvalue, hrest⟩

/-- A parser under changed settings fails where it fails under them. -/
theorem Fails.withSettings {update : Settings → Settings} (h : Fails (update settings) p text) :
    Fails settings (Parser.withSettings update p) text := by
  rintro s u hs rfl htext
  have happly := (hs.apply (update s.settings)).1
  rw [hs.settings_eq] at happly
  obtain ⟨e, u', hagrees, he⟩ := h _ _ happly rfl htext
  rw [← hs.settings_eq] at hagrees
  exact ⟨e, u'.apply u.settings, hagrees.withSettings hs, he⟩

/-- An attempt that succeeds is done. -/
theorem Reads.attempt (h : Reads settings p text P rest) :
    Reads settings (Parser.attempt p) text (fun a => ∃ value, a = .done value ∧ P value) rest := by
  intro s u hs hsettings htext
  obtain ⟨value, u', ⟨hresult, hshows, hkept, hsource, hstream⟩, hvalue, hrest⟩ :=
    h s u hs hsettings htext
  refine ⟨.done value, u', ?_, ⟨value, rfl, hvalue⟩, hrest⟩
  rw [Parser.attempt_apply]
  generalize p s = result at *
  obtain ⟨r, t⟩ := result
  obtain rfl : r = .ok value := hresult
  exact ⟨rfl, hshows, hkept, hsource, hstream⟩

/-- An attempt that fails reads nothing: its error is one that another alternative can mend, so it
is given as a value, and the stream comes back to where it stood. -/
theorem Fails.attempt (h : Fails settings p text) :
    Reads settings (Parser.attempt p) text (fun a => ∃ e, a = .rolledBack e ∧ e.isEndless = false)
      text := by
  intro s u hs hsettings htext
  obtain ⟨e, u', ⟨hresult, hshows, hkept, hsource, hstream⟩, he⟩ := h s u hs hsettings htext
  refine ⟨.rolledBack e, u, ?_, ⟨e, rfl, he⟩, htext⟩
  rw [Parser.attempt_apply]
  generalize p s = result at *
  obtain ⟨r, t⟩ := result
  obtain rfl : r = .error e := hresult
  dsimp only at hshows hkept hsource ⊢
  -- The error is not the one that no alternative can mend, so the stream comes back to where it
  -- stood.
  rw [he, if_neg Bool.false_ne_true]
  obtain ⟨hback, hconsumed⟩ := (hs.recalls.of_kept hkept hsource).restore hshows
  have hfirst : t.consumed.take s.snapshot.index = s.consumed := by
    have htake := List.prefix_iff_eq_take.1 hkept
    rw [hs.length_consumed] at htake
    exact htake.symm
  rw [hfirst] at hconsumed
  refine ⟨rfl, hback, hconsumed ▸ List.prefix_rfl,
    (TokenStream.source_restore t _).trans hsource, ?_⟩
  exact hback.settings_eq.trans hs.settings_eq.symm

/-- The first parser of some decides if it succeeds. -/
theorem Reads.oneOf_head {failure : SyntaxError} {ps : List (Parser α)}
    (h : Reads settings p text P rest) :
    Reads settings (Parser.oneOf failure (p :: ps)) text P rest := by
  refine h.attempt.bind ?_
  rintro _ ⟨value, rfl, hvalue⟩
  exact Reads.pure hvalue

/-- The other parsers decide if the first one fails. -/
theorem Reads.oneOf_tail {failure : SyntaxError} {ps : List (Parser α)} (h : Fails settings p text)
    (hps : ∀ e, Reads settings (Parser.oneOf e ps) text P rest) :
    Reads settings (Parser.oneOf failure (p :: ps)) text P rest := by
  refine h.attempt.bind ?_
  rintro _ ⟨e, rfl, -⟩
  exact hps e

/-- Where all of some parsers fail, there is none that succeeds. -/
theorem Fails.oneOf {failure : SyntaxError} {ps : List (Parser α)}
    (hfailure : failure.isEndless = false) (h : ∀ p ∈ ps, Fails settings p text) :
    Fails settings (Parser.oneOf failure ps) text := by
  induction ps generalizing failure with
  | nil => exact Fails.throw hfailure
  | cons p ps ih =>
    obtain ⟨hp, hps⟩ := List.forall_mem_cons.1 h
    refine hp.attempt.bind_fails ?_
    rintro _ ⟨e, rfl, he⟩
    exact ih he hps

end

/-! ## Reading the next token -/

/-- A token is of a kind, and is written in a way. -/
structure Token.Is (kind : TokenKind) (value : List Char) (t : Token) : Prop where
  /-- Its kind. -/
  kind_eq : t.kind = kind
  /-- Its text. -/
  value_eq : t.value = .ofList value

/-- Looking ahead gives the next token. -/
theorem Unbuffered.ahead_of_next {u : Unbuffered} (h : Next settings kind value rest text)
    (hsettings : u.settings = settings) (htext : u.cursor.rest = text) (expected : List TokenKind) :
    ∃ token, u.ahead 0 expected = .ok token ∧ token.Is kind value := by
  obtain ⟨token, u', hadvance, hkind, hvalue, -⟩ := advance_of_next h hsettings htext expected
  refine ⟨token, ?_, hkind, hvalue⟩
  show (u.advance expected).1 = _
  rw [hadvance]

namespace Reads

/-- An answer that every stream gives, and that leaves it where it stands, reads nothing. -/
theorem of_answer {α : Type} {answer : TokenStream → α × TokenStream} {P : α → Prop}
    (h : ∀ s u, Shows s u → u.settings = settings → u.cursor.rest = text →
      ∃ value, Agrees s (answer s) (value, u) ∧ P value) :
    Reads settings (fun s =>
      ((.ok (answer s).1, (answer s).2) : Except SyntaxError α × TokenStream)) text P text := by
  intro s u hs hsettings htext
  obtain ⟨value, ⟨hvalue, hshows, hkept, hsource, hstream⟩, hP⟩ := h s u hs hsettings htext
  exact ⟨value, u, ⟨congrArg Except.ok hvalue, hshows, hkept, hsource, hstream⟩, hP, htext⟩

/-- The place of the next token. -/
theorem location : Reads settings Parser.location text (fun _ => True) text :=
  of_answer fun _ u hs _ _ => ⟨u.location, hs.location, trivial⟩

/-- The end of the last token. -/
theorem lastEnd : Reads settings Parser.lastEnd text (fun _ => True) text :=
  of_answer fun s _ hs _ _ => ⟨s.lastEnd, Agrees.pure hs _, trivial⟩

/-- A range that ends with the last token. -/
theorem spanFrom (start : Location) :
    Reads settings (Parser.spanFrom start) text (fun _ => True) text :=
  lastEnd.bind fun _ _ => Reads.pure trivial

/-- There are more steps than characters left. -/
theorem limit : Reads settings Parser.limit text (text.length < ·) text :=
  of_answer fun s _ hs _ htext => ⟨s.limit, Agrees.pure hs _, htext ▸ hs.length_rest_lt_limit⟩

variable (h : Next settings kind value rest text)
include h

/-- Whether the next token is of a kind. -/
theorem check (kind' : TokenKind) :
    Reads settings (Parser.check kind') text (· = (kind == kind')) text := by
  refine of_answer fun s u hs hsettings htext => ⟨u.check kind', hs.check kind', ?_⟩
  obtain ⟨token, hahead, hkind, -⟩ := Unbuffered.ahead_of_next h hsettings htext []
  unfold Unbuffered.check
  rw [hahead, ← hkind]

/-- Whether the next token is a word. -/
theorem checkWord (word : String) :
    Reads settings (Parser.checkWord word) text
      (· = (kind == .identifier && .ofList value == word)) text := by
  refine of_answer fun s u hs hsettings htext => ⟨u.checkWord word, hs.checkWord word, ?_⟩
  obtain ⟨token, hahead, hkind, hvalue⟩ := Unbuffered.ahead_of_next h hsettings htext []
  unfold Unbuffered.checkWord
  rw [hahead, ← hkind, ← hvalue]

/-- Looking at the next token gives it and leaves the text as it is. -/
theorem peek : Reads settings Parser.peek text (Token.Is kind value) text := by
  intro s u hs hsettings htext
  obtain ⟨token, hahead, htoken⟩ := Unbuffered.ahead_of_next h hsettings htext []
  have hpeek := hs.peekExpecting 0 []
  rw [hahead] at hpeek
  exact ⟨token, u, hpeek, htoken, htext⟩

/-- Reading the next token gives it and leaves the rest behind it. -/
theorem next : Reads settings Parser.next text (Token.Is kind value) rest := by
  intro s u hs hsettings htext
  obtain ⟨token, u', hadvance, hkind, hvalue, hrest⟩ :=
    Unbuffered.advance_of_next h hsettings htext []
  have hnext : Agrees s s.next (u.advance []) := hs.advance
  rw [hadvance] at hnext
  exact ⟨token, u', hnext, ⟨hkind, hvalue⟩, hrest⟩

/-- Reading the next token, which is of one of some kinds. -/
theorem expect {kinds : List TokenKind} (hkinds : kinds.contains kind = true) :
    Reads settings (Parser.expect kinds) text (Token.Is kind value) rest := by
  intro s u hs hsettings htext
  obtain ⟨token, hahead, htoken⟩ := Unbuffered.ahead_of_next h hsettings htext kinds
  obtain ⟨token', u', hadvance, hkind, hvalue, hrest⟩ :=
    Unbuffered.advance_of_next h hsettings htext kinds
  have hexpect := hs.expect kinds
  unfold Unbuffered.expect at hexpect
  rw [hahead] at hexpect
  dsimp only at hexpect
  rw [htoken.kind_eq, if_pos hkinds, hadvance] at hexpect
  exact ⟨token', u', hexpect, ⟨hkind, hvalue⟩, hrest⟩

/-- Reading the next token, if it is of a kind. -/
theorem accept : Reads settings (Parser.accept kind) text (∃ token, · = some token) rest := by
  intro s u hs hsettings htext
  obtain ⟨token, hahead, htoken⟩ := Unbuffered.ahead_of_next h hsettings htext []
  obtain ⟨token', u', hadvance, -, -, hrest⟩ := Unbuffered.advance_of_next h hsettings htext []
  have haccept := hs.accept kind
  have hcheck : u.check kind = true := by
    unfold Unbuffered.check
    rw [hahead]
    exact beq_iff_eq.2 htoken.kind_eq
  unfold Unbuffered.accept at haccept
  rw [hcheck, if_pos rfl, hadvance] at haccept
  exact ⟨some token', u', haccept, ⟨token', rfl⟩, hrest⟩

/-- Leaving the next token, if it is of another kind. -/
theorem accept_other {kind' : TokenKind} (hne : kind ≠ kind') :
    Reads settings (Parser.accept kind') text (· = none) text := by
  intro s u hs hsettings htext
  obtain ⟨token, hahead, htoken⟩ := Unbuffered.ahead_of_next h hsettings htext []
  have haccept := hs.accept kind'
  have hcheck : u.check kind' = false := by
    unfold Unbuffered.check
    rw [hahead]
    exact beq_eq_false_iff_ne.2 (htoken.kind_eq ▸ hne)
  unfold Unbuffered.accept at haccept
  rw [hcheck, if_neg Bool.false_ne_true] at haccept
  exact ⟨none, u, haccept, rfl, htext⟩

end Reads

/-- The next token is not of one of some kinds. -/
theorem Fails.expect (h : Next settings kind value rest text) {kinds : List TokenKind}
    (hkinds : kinds.contains kind = false) : Fails settings (Parser.expect kinds) text := by
  intro s u hs hsettings htext
  obtain ⟨token, hahead, htoken⟩ := Unbuffered.ahead_of_next h hsettings htext kinds
  have hexpect := hs.expect kinds
  unfold Unbuffered.expect at hexpect
  rw [hahead] at hexpect
  dsimp only at hexpect
  rw [htoken.kind_eq, hkinds, if_neg Bool.false_ne_true] at hexpect
  split at hexpect
  · exact ⟨_, u, hexpect, rfl⟩
  · exact ⟨_, u, hexpect, rfl⟩

/-- Which operator comes next depends on the kind of the next token. Nothing is read by asking, so
the operator may be left to another loop. -/
theorem Reads.operator? {α : Type} (h : Next settings kind value rest text)
    (operators : List (TokenKind × α)) :
    Reads settings (Parser.operator? operators) text (· = operators.lookup kind) text := by
  intro s u hs hsettings htext
  obtain ⟨token, hahead, htoken⟩ := Unbuffered.ahead_of_next h hsettings htext []
  have hpeek := hs.peekExpecting 0 []
  rw [hahead] at hpeek
  refine ⟨operators.lookup token.kind, u, ?_, by rw [htoken.kind_eq], htext⟩
  unfold Parser.operator?
  obtain ⟨hvalue, hshows, hkept, hsource, hstream⟩ := hpeek
  rw [show s.peek = (.ok token, (s.peekExpecting 0 []).2) from Prod.ext hvalue rfl]
  exact ⟨rfl, hshows, hkept, hsource, hstream⟩

/-- No operator comes next where the source ends and reading skips its end: looking ahead runs past
the end and fails, which counts as finding none. -/
theorem Reads.operator?_nil {α : Type} (hend : settings.ignored.contains .endOfInput = true)
    (operators : List (TokenKind × α)) :
    Reads settings (Parser.operator? operators) [] (· = none) [] := by
  intro s u hs hsettings htext
  -- The token at the end is one that is skipped, so looking ahead runs past it and fails.
  have hahead : ∃ e, u.ahead 0 [] = .error e := by
    show ∃ e, (u.advance []).1 = .error e
    rw [Unbuffered.advance, Unbuffered.token_of_nil htext]
    dsimp only
    rw [dif_pos rfl, Unbuffered.isIgnored, hsettings, hend]
    exact ⟨_, rfl⟩
  obtain ⟨e, hahead⟩ := hahead
  have hpeek := hs.peekExpecting 0 []
  rw [hahead] at hpeek
  refine ⟨none, u, ?_, rfl, htext⟩
  unfold Parser.operator?
  obtain ⟨hvalue, hshows, hkept, hsource, hstream⟩ := hpeek
  rw [show s.peek = (.error e, (s.peekExpecting 0 []).2) from Prod.ext hvalue rfl]
  exact ⟨rfl, hshows, hkept, hsource, hstream⟩

end MachineLang
