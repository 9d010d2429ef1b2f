import MachineLang.Proofs.Lexing
import MachineLang.TokenStream.Basic
import Mathlib.Data.String.Basic

/-!
# Reading without a buffer

An `Unbuffered` stream is a place in the source with the settings in force. It cuts each token off
the source when it is asked for it, under the settings of that moment, and coming back to a place is
taking the old stream again. A token stream `Shows` such a stream if its cursor stands at the same
place and its buffered tokens follow each other from the start of the source on, each cut under the
modes that it remembers. Then the next buffered token is the one that the unbuffered stream cuts, or
is dropped and cut anew (`Shows.fill`), so every operation gives the same on both (`Shows.advance`,
`Shows.peekExpecting`).
-/

namespace MachineLang

/-- A source that is read without a buffer. -/
structure Unbuffered where
  /-- The whole text. -/
  source : String
  /-- The place of the cursor. -/
  place : Location
  /-- How many tokens have been passed. -/
  index : Nat
  /-- Where the last token that was read and not skipped ends. -/
  lastEnd : Location
  /-- The settings in force. -/
  settings : Settings
deriving DecidableEq, Repr

namespace Unbuffered

/-- A source from its beginning on. -/
def ofSource (source : String) : Unbuffered := ⟨source, .start, 0, .start, .initial⟩

/-- The place of the cursor with the text from there on. -/
def cursor (u : Unbuffered) : Cursor := .ofLocation u.source.toList u.place

/-- The token at the cursor, cut under the modes in force. -/
def token (u : Unbuffered) : Token := (u.cursor.lex (activeRules u.settings.modes)).1

/-- The stream behind the token at its cursor. -/
def pass (u : Unbuffered) : Unbuffered := { u with place := u.token.stop, index := u.index + 1 }

/-- Whether reading skips tokens of a kind. -/
def isIgnored (u : Unbuffered) (kind : TokenKind) : Bool := u.settings.ignored.contains kind

/-- The text behind a token is the text of the stream behind it. -/
theorem cursor_pass (u : Unbuffered) :
    u.pass.cursor = (u.cursor.lex (activeRules u.settings.modes)).2 :=
  (Cursor.ofLocation_lex u.settings.modes u.source.toList u.place).symm

/-- Less text is left behind a token that is not the end token. -/
theorem length_rest_pass_lt {u : Unbuffered} (h : u.token.kind ≠ .endOfInput) :
    u.pass.cursor.rest.length < u.cursor.rest.length := by
  rw [cursor_pass]
  exact Cursor.length_rest_lex_lt u.settings.modes u.cursor h

/-- Reads the next token that is not skipped. -/
def advance (u : Unbuffered) (expected : List TokenKind) : Except SyntaxError Token × Unbuffered :=
  if _h : u.token.kind = .endOfInput then
    if u.isIgnored .endOfInput then (.error (.unexpectedEnd u.token.location expected), u)
    else (.ok u.token, { u with lastEnd := u.token.stop })
  else if u.isIgnored u.token.kind then u.pass.advance expected
  else (.ok u.token, { u.pass with lastEnd := u.token.stop })
termination_by u.cursor.rest.length
decreasing_by exact length_rest_pass_lt _h

/-- Reads `n` more tokens after a first result, stopping at the first error. -/
def advanceMore (expected : List TokenKind) :
    Nat → Except SyntaxError Token × Unbuffered → Except SyntaxError Token × Unbuffered
  | 0, result => result
  | _ + 1, (.error e, u) => (.error e, u)
  | n + 1, (.ok _, u) => advanceMore expected n (u.advance expected)

/-- The token that is so many places ahead, counting only those that are not skipped. -/
def ahead (u : Unbuffered) (n : Nat) (expected : List TokenKind) : Except SyntaxError Token :=
  (advanceMore expected n (u.advance expected)).1

/-- Where the next token begins, or where the source ends. -/
def location (u : Unbuffered) : Location :=
  match u.ahead 0 [] with
  | .ok token => token.location
  | .error e => e.span.start

/-- Whether the next token has a kind. -/
def check (u : Unbuffered) (kind : TokenKind) : Bool :=
  match u.ahead 0 [] with
  | .ok token => token.kind == kind
  | .error _ => false

/-- Whether the next token is a given identifier. -/
def checkWord (u : Unbuffered) (word : String) : Bool :=
  match u.ahead 0 [] with
  | .ok token => token.kind == .identifier && token.value == word
  | .error _ => false

/-- Reads the next token if it has a kind. -/
def accept (u : Unbuffered) (kind : TokenKind) : Except SyntaxError (Option Token) × Unbuffered :=
  if u.check kind then
    match u.advance [] with
    | (.ok token, u) => (.ok (some token), u)
    | (.error e, u) => (.error e, u)
  else (.ok none, u)

/-- Reads the next token, which has to be of one of some kinds. -/
def expect (u : Unbuffered) (kinds : List TokenKind) : Except SyntaxError Token × Unbuffered :=
  match u.ahead 0 kinds with
  | .error e => (.error e, u)
  | .ok token =>
    if kinds.contains token.kind then u.advance kinds
    else if token.kind = .endOfInput then (.error (.unexpectedEnd token.location kinds), u)
    else (.error (.unexpectedToken token kinds), u)

/-- Puts settings in force; whatever is read from here on is read under them. -/
def apply (u : Unbuffered) (settings : Settings) : Unbuffered := { u with settings }

/-- Runs `body` under changed settings, and puts the old ones back in force. -/
def withSettings {α : Type} (update : Settings → Settings) (body : Unbuffered → α × Unbuffered)
    (u : Unbuffered) : α × Unbuffered :=
  let (result, u') := body (u.apply (update u.settings))
  (result, u'.apply u.settings)

/-- Runs `body`, which also says whether it has committed itself. After a failure that is not
committed the stream is what it was. -/
def checkpoint {α : Type} (body : Unbuffered → (Except SyntaxError α × Bool) × Unbuffered)
    (u : Unbuffered) : Except SyntaxError (Attempt α) × Unbuffered :=
  match body u with
  | ((.ok value, _), u') => (.ok (.done value), u')
  | ((.error e, committed), u') =>
    if committed || e.isEndless then (.error e, u') else (.ok (.rolledBack e), u)

end Unbuffered

/-! ## Buffered tokens -/

/-- Buffered tokens that follow each other in a text from one place to another, each cut under the
modes that it remembers. -/
inductive Chain (text : List Char) : Location → List Buffered → Location → Prop
  /-- No tokens. -/
  | nil (l : Location) : Chain text l [] l
  /-- A token in front of others. -/
  | cons {l m : Location} {b : Buffered} {bs : List Buffered}
      (hlex : (Cursor.ofLocation text l).lex (activeRules b.modes) =
        (b.token, ⟨b.token.stop, b.rest⟩))
      (hrest : Chain text b.token.stop bs m) : Chain text l (b :: bs) m

namespace Chain

variable {text : List Char} {l m m' : Location} {b : Buffered} {bs cs : List Buffered}

/-- Tokens behind others begin where these end, and the other way round: a chain can be taken apart
at any place, and chains that meet are one. -/
theorem append_iff : Chain text l (bs ++ cs) m ↔ ∃ p, Chain text l bs p ∧ Chain text p cs m := by
  induction bs generalizing l with
  | nil =>
    constructor
    · exact fun h => ⟨l, .nil l, h⟩
    · rintro ⟨p, hnil, h⟩
      cases hnil
      exact h
  | cons b bs ih =>
    constructor
    · intro h
      cases h with
      | cons hlex hrest =>
        obtain ⟨p, hbs, hcs⟩ := ih.1 hrest
        exact ⟨p, .cons hlex hbs, hcs⟩
    · rintro ⟨p, hbs, hcs⟩
      cases hbs with
      | cons hlex hrest => exact .cons hlex (ih.2 ⟨p, hrest, hcs⟩)

/-- No tokens lead nowhere: the chain ends where it began. -/
theorem eq_of_nil (h : Chain text l [] m) : m = l := by
  cases h
  rfl

/-- A single token leads to the place where it ends. -/
theorem single (hlex : (Cursor.ofLocation text l).lex (activeRules b.modes) =
    (b.token, ⟨b.token.stop, b.rest⟩)) : Chain text l [b] b.token.stop :=
  .cons hlex (.nil _)

/-- Tokens end at one place, which the places of the tokens determine. -/
theorem unique (h : Chain text l bs m) (h' : Chain text l bs m') : m = m' := by
  induction h with
  | nil l =>
    cases h'
    rfl
  | cons hlex hrest ih =>
    cases h' with
    | cons _ hrest' => exact ih hrest'

/-- The last token ends at the place where all of them do, in front of the text from there on. -/
theorem getLast_eq (h : Chain text l (bs ++ [b]) m) :
    (⟨b.token.stop, b.rest⟩ : Cursor) = .ofLocation text m := by
  obtain ⟨p, -, hlast⟩ := append_iff.1 h
  cases hlast with
  | cons hlex hrest =>
    cases hrest
    have hbehind := Cursor.ofLocation_lex b.modes text p
    rw [hlex] at hbehind
    exact hbehind

end Chain

namespace TokenStream

/-- The buffered tokens behind the cursor, which were read. -/
def consumed (s : TokenStream) : List Buffered := s.buffer.toList.take s.index

/-- The buffered tokens ahead of the cursor, which were looked at but not read. -/
def pending (s : TokenStream) : List Buffered := s.buffer.toList.drop s.index

/-- The buffer holds the tokens behind the cursor and those ahead of it. -/
theorem toList_buffer (s : TokenStream) : s.buffer.toList = s.consumed ++ s.pending :=
  (List.take_append_drop s.index _).symm

/-- The next buffered token is the first one ahead of the cursor. -/
theorem head?_pending (s : TokenStream) : s.pending.head? = s.buffer[s.index]? := by
  rw [← Array.getElem?_toList, pending, List.head?_drop]

/-- If no token is ahead of the cursor, the buffer holds those behind it. -/
theorem toList_buffer_of_nil {s : TokenStream} (hnil : s.pending = []) :
    s.buffer.toList = s.consumed := by
  rw [toList_buffer, hnil, List.append_nil]

/-- Putting settings in force keeps the source. -/
theorem source_apply (s : TokenStream) (settings : Settings) :
    (s.apply settings).source = s.source := by
  unfold apply
  split <;> rfl

/-- Coming back to a place keeps the source. -/
theorem source_restore (s : TokenStream) (target : Snapshot) :
    (s.restore target).source = s.source := source_apply _ _

end TokenStream

/-- A token stream stands where an unbuffered one does, and its buffer holds what is in the
source. -/
structure Shows (s : TokenStream) (u : Unbuffered) : Prop where
  /-- The sources are the same. -/
  source_eq : s.source = u.source
  /-- As many tokens have been passed. -/
  index_eq : s.index = u.index
  /-- The last token read ends at the same place. -/
  lastEnd_eq : s.lastEnd = u.lastEnd
  /-- The same settings are in force. -/
  settings_eq : s.settings = u.settings
  /-- The cursor is inside the buffer. -/
  index_le : s.index ≤ s.buffer.size
  /-- The tokens behind the cursor lead from the start to its place. -/
  consumed : Chain s.source.toList .start s.consumed u.place
  /-- The tokens ahead of the cursor go on from there. -/
  pending : ∃ l, Chain s.source.toList u.place s.pending l
  /-- The end token is not behind the cursor. -/
  kind_ne : ∀ b ∈ s.consumed, b.token.kind ≠ .endOfInput

namespace Shows

variable {s : TokenStream} {u : Unbuffered} {expected : List TokenKind}

/-- Both streams begin at the start of the source. -/
theorem ofSource (source : String) : Shows (.ofSource source) (.ofSource source) :=
  ⟨rfl, rfl, rfl, rfl, Nat.le_refl 0, .nil _, ⟨.start, .nil _⟩, List.forall_mem_nil _⟩

/-- As many tokens are behind the cursor as its index says. -/
theorem length_consumed (h : Shows s u) : s.consumed.length = s.index := by
  unfold TokenStream.consumed
  rw [List.length_take, Array.length_toList, Nat.min_eq_left h.index_le]

/-- A stream is the same with another buffer that agrees behind the cursor, if what is ahead of it
goes on from there. -/
theorem with_buffer (h : Shows s u) {buffer : Array Buffered} {pending : List Buffered}
    {l : Location} (hbuffer : buffer.toList = s.consumed ++ pending)
    (hpending : Chain s.source.toList u.place pending l) :
    Shows { s with buffer } u ∧ { s with buffer }.consumed = s.consumed ∧
      { s with buffer }.pending = pending := by
  -- The new buffer splits at the cursor as the old one did.
  have hconsumed : { s with buffer }.consumed = s.consumed := by
    show buffer.toList.take s.index = s.consumed
    rw [hbuffer, ← h.length_consumed, List.take_left]
  have hahead : { s with buffer }.pending = pending := by
    show buffer.toList.drop s.index = pending
    rw [hbuffer, ← h.length_consumed, List.drop_left]
  have hindex : s.index ≤ buffer.size := by
    rw [← Array.length_toList, hbuffer, List.length_append, h.length_consumed]
    omega
  refine ⟨⟨h.source_eq, h.index_eq, h.lastEnd_eq, h.settings_eq, hindex, ?_, ?_, ?_⟩,
    hconsumed, hahead⟩
  · rw [hconsumed]
    exact h.consumed
  · rw [hahead]
    exact ⟨l, hpending⟩
  · rw [hconsumed]
    exact h.kind_ne

/-- If no token is ahead of the cursor, the next one is cut off at its place. -/
theorem frontier_eq (h : Shows s u) (hnil : s.pending = []) : s.frontier = u.cursor := by
  have hchain := h.consumed
  rw [h.source_eq, ← TokenStream.toList_buffer_of_nil hnil] at hchain
  unfold TokenStream.frontier Unbuffered.cursor
  rw [← Array.getLast?_toList]
  -- The buffer ends at the cursor; where its last token ends, the next one begins.
  cases hlast : s.buffer.toList.getLast? with
  | none =>
    rw [List.getLast?_eq_none_iff.1 hlast] at hchain
    rw [hchain.eq_of_nil, h.source_eq, Cursor.ofLocation_start]
  | some b =>
    obtain ⟨before, hbefore⟩ := List.getLast?_eq_some_iff.1 hlast
    rw [hbefore] at hchain
    exact hchain.getLast_eq

/-- One more token is cut off at the place of the cursor, if none is ahead of it. -/
theorem cut (h : Shows s u) (hnil : s.pending = []) :
    ∃ b, Shows s.cut u ∧ s.cut.consumed = s.consumed ∧ s.cut.pending = [b] ∧ b.token = u.token := by
  have hbehind := u.cursor_pass
  generalize hlex : u.cursor.lex (activeRules u.settings.modes) = result at hbehind
  have htoken : u.token = result.1 := congrArg Prod.fst hlex
  let b : Buffered := ⟨result.1, u.settings.modes, result.2.rest⟩
  have hcut : s.cut = { s with buffer := s.buffer.push b } := by
    unfold TokenStream.cut
    rw [h.frontier_eq hnil, h.settings_eq, hlex]
  have hbuffer : (s.buffer.push b).toList = s.consumed ++ [b] := by
    rw [Array.toList_push, TokenStream.toList_buffer_of_nil hnil]
  have hnext : result.2 = ⟨b.token.stop, b.rest⟩ := by
    rw [← hbehind]
    show Cursor.mk u.token.stop _ = ⟨result.1.stop, result.2.rest⟩
    rw [htoken, ← hbehind]
    rfl
  -- What is cut is the token that the unbuffered stream would read next.
  have hchain : Chain s.source.toList u.place [b] b.token.stop := by
    refine .single ?_
    rw [h.source_eq]
    exact hlex.trans (Prod.ext rfl hnext)
  obtain ⟨hshows, hconsumed, hpending⟩ := h.with_buffer hbuffer hchain
  rw [hcut]
  exact ⟨b, hshows, hconsumed, hpending, htoken.symm⟩

/-- Tokens ahead of the cursor that were cut under other modes are dropped, so the buffer ahead is
empty, or it begins with the token that the unbuffered stream cuts. -/
theorem refresh (h : Shows s u) :
    Shows (s.refresh s.index) u ∧ (s.refresh s.index).consumed = s.consumed ∧
      ((s.refresh s.index).pending = [] ∨
        ∃ b more, (s.refresh s.index).pending = b :: more ∧ b.token = u.token) := by
  obtain ⟨l, hpending⟩ := h.pending
  unfold TokenStream.refresh
  rw [← TokenStream.head?_pending]
  cases hahead : s.pending with
  | nil => exact ⟨h, rfl, .inl hahead⟩
  | cons b more =>
    rw [List.head?_cons, Option.any_some]
    by_cases hmodes : b.modes = s.settings.modes
    · -- The token was cut at the place of the cursor under the modes in force: it is the
      -- unbuffered one.
      rw [if_neg (by simpa using hmodes)]
      rw [hahead, h.source_eq] at hpending
      rw [h.settings_eq] at hmodes
      refine ⟨h, rfl, .inr ⟨b, more, hahead, ?_⟩⟩
      cases hpending with
      | cons hlex hrest =>
        rw [hmodes] at hlex
        exact (congrArg Prod.fst hlex).symm
    · rw [if_pos (by simpa using hmodes)]
      have hbuffer : (s.buffer.shrink s.index).toList = s.consumed ++ [] := by
        rw [Array.toList_shrink, List.append_nil]
        rfl
      obtain ⟨hshows, hconsumed, hnil⟩ := h.with_buffer hbuffer (.nil u.place)
      exact ⟨hshows, hconsumed, .inl hnil⟩

/-- The buffer is filled up to the token that the unbuffered stream cuts: it is the next one in the
buffer, whatever was read ahead before. -/
theorem fill (h : Shows s u) :
    ∃ b more, Shows (s.fill s.index) u ∧ (s.fill s.index).consumed = s.consumed ∧
      (s.fill s.index).pending = b :: more ∧ b.token = u.token := by
  obtain ⟨hshows, hconsumed, hpending⟩ := h.refresh
  have hindex : (s.refresh s.index).index = s.index := by rw [hshows.index_eq, h.index_eq]
  have hsize : (s.refresh s.index).buffer.size = s.index + (s.refresh s.index).pending.length := by
    rw [← Array.length_toList, TokenStream.pending, List.length_drop, hindex, Array.length_toList]
    have hle := hshows.index_le
    omega
  unfold TokenStream.fill
  dsimp only
  generalize s.refresh s.index = t at *
  rcases hpending with hnil | ⟨b, more, hmore, htoken⟩
  · -- The token has to be cut: the buffer ends at the cursor, and not with the end token.
    have hmissing : s.index + 1 - t.buffer.size = 1 := by
      rw [hsize, hnil, List.length_nil]
      omega
    have hlast : t.buffer.back?.any (fun last => last.token.kind == .endOfInput) = false := by
      rw [← Array.getLast?_toList, TokenStream.toList_buffer_of_nil hnil,
        Option.any_eq_false_iff_get]
      intro hsome
      have hmem := List.mem_of_getLast? (Option.some_get hsome).symm
      simpa using hshows.kind_ne _ hmem
    obtain ⟨b, hcut, hbehind, hahead, htoken⟩ := hshows.cut hnil
    rw [hmissing, TokenStream.cutUpTo, hlast]
    exact ⟨b, [], hcut, hbehind.trans hconsumed, hahead, htoken⟩
  · have hmissing : s.index + 1 - t.buffer.size = 0 := by
      rw [hsize, hmore, List.length_cons]
      omega
    rw [hmissing]
    exact ⟨b, more, hshows, hconsumed, hmore, htoken⟩

/-- Behind the token that both streams have next they stand at the same place again, and the token
has become the last one of those that were read. -/
theorem pass (h : Shows s u) {b : Buffered} {more : List Buffered}
    (hpending : s.pending = b :: more) (htoken : b.token = u.token)
    (hkind : u.token.kind ≠ .endOfInput) :
    Shows { s with index := s.index + 1 } u.pass ∧
      { s with index := s.index + 1 }.consumed = s.consumed ++ [b] := by
  have hbuffer : s.buffer.toList = (s.consumed ++ [b]) ++ more := by
    rw [TokenStream.toList_buffer, hpending, List.append_assoc, List.singleton_append]
  have hlength : (s.consumed ++ [b]).length = s.index + 1 := by
    rw [List.length_append, h.length_consumed, List.length_singleton]
  have hconsumed : { s with index := s.index + 1 }.consumed = s.consumed ++ [b] := by
    show s.buffer.toList.take (s.index + 1) = _
    rw [hbuffer, ← hlength, List.take_left]
  have hahead : { s with index := s.index + 1 }.pending = more := by
    show s.buffer.toList.drop (s.index + 1) = _
    rw [hbuffer, ← hlength, List.drop_left]
  have hsize : s.index + 1 ≤ s.buffer.size := by
    rw [← Array.length_toList, hbuffer, List.length_append, hlength]
    omega
  -- The tokens ahead are a chain; its first link goes to the chain of those that were read.
  obtain ⟨l, hchain⟩ := h.pending
  rw [hpending] at hchain
  have hplace : u.pass.place = b.token.stop := by
    rw [htoken]
    rfl
  refine ⟨⟨h.source_eq, congrArg (· + 1) h.index_eq, h.lastEnd_eq, h.settings_eq, hsize, ?_, ?_,
    ?_⟩, hconsumed⟩
  · cases hchain with
    | cons hlex hrest =>
      rw [hconsumed, hplace]
      exact Chain.append_iff.2 ⟨u.place, h.consumed, .single hlex⟩
  · cases hchain with
    | cons hlex hrest =>
      rw [hahead, hplace]
      exact ⟨l, hrest⟩
  · rw [hconsumed]
    intro c hc
    rcases List.mem_append.1 hc with hc | hc
    · exact h.kind_ne c hc
    · rw [List.mem_singleton.1 hc, htoken]
      exact hkind

/-- The last end may be moved on both streams. -/
theorem with_lastEnd (h : Shows s u) (l : Location) :
    Shows { s with lastEnd := l } { u with lastEnd := l } :=
  ⟨h.source_eq, h.index_eq, rfl, h.settings_eq, h.index_le, h.consumed, h.pending, h.kind_ne⟩

end Shows

/-- An operation on a token stream that stands at `s` gives the same as one on an unbuffered stream.
It leaves both at the same place, under the settings that were in force, and keeps what is behind
the cursor. -/
structure Agrees {α : Type} (s : TokenStream) (result : α × TokenStream)
    (result' : α × Unbuffered) :
    Prop where
  /-- The results are the same. -/
  value_eq : result.1 = result'.1
  /-- The streams stand at the same place. -/
  shows : Shows result.2 result'.2
  /-- The tokens behind the cursor are still there. -/
  kept : s.consumed <+: result.2.consumed
  /-- The source is the same as before. -/
  source_eq : result.2.source = s.source
  /-- The settings are the same as before. -/
  settings_eq : result.2.settings = s.settings

namespace Agrees

variable {α β : Type} {s t : TokenStream} {u : Unbuffered}

/-- Giving a value agrees: it leaves both streams alone. -/
theorem pure (h : Shows s u) (a : α) : Agrees s (a, s) (a, u) :=
  ⟨rfl, h, List.prefix_rfl, rfl, rfl⟩

/-- What agrees from a place further on agrees from the place before it. -/
theorem of_kept {result : α × TokenStream} {result' : α × Unbuffered} (h : Agrees t result result')
    (hkept : s.consumed <+: t.consumed) (hsource : t.source = s.source)
    (hsettings : t.settings = s.settings) : Agrees s result result' :=
  ⟨h.value_eq, h.shows, hkept.trans h.kept, h.source_eq.trans hsource,
    h.settings_eq.trans hsettings⟩

end Agrees

/-- A text has no more characters than bytes. -/
theorem length_le_utf8Len (text : List Char) : text.length ≤ String.utf8Len text := by
  induction text with
  | nil => exact Nat.le_refl 0
  | cons c cs ih =>
    have hpos := c.utf8Size_pos
    rw [List.length_cons, String.utf8Len_cons]
    omega

/-- A source has no more characters than bytes. -/
theorem length_toList_le (source : String) : source.toList.length ≤ source.utf8ByteSize :=
  calc source.toList.length ≤ String.utf8Len source.toList := length_le_utf8Len _
    _ = (String.ofList source.toList).utf8ByteSize := (String.utf8ByteSize_ofList _).symm
    _ = source.utf8ByteSize := by rw [String.ofList_toList]

/-- The text from an offset on is no longer than the whole text. -/
theorem length_textFrom_le (offset : Nat) (text : List Char) :
    (textFrom offset text).length ≤ text.length := by
  by_cases hnil : textFrom offset text = []
  · rw [hnil]
    exact Nat.zero_le _
  · obtain ⟨before, htext, -⟩ := exists_of_textFrom_ne_nil hnil
    have hlength := congrArg List.length htext
    rw [List.length_append] at hlength
    omega

namespace Shows

variable {s : TokenStream} {u : Unbuffered} {expected : List TokenKind}

/-- Reading on agrees, if there are more steps than characters left: each step reads a token or
skips one, and every token but the end takes a character. -/
theorem advanceWithin (h : Shows s u) {steps : Nat} (hsteps : u.cursor.rest.length < steps) :
    Agrees s (s.advanceWithin expected steps) (u.advance expected) := by
  induction steps generalizing s u with
  | zero => exact absurd hsteps (Nat.not_lt_zero _)
  | succ steps ih =>
    obtain ⟨b, more, hfill, hconsumed, hpending, htoken⟩ := h.fill
    have hsource : (s.fill s.index).source = s.source := hfill.source_eq.trans h.source_eq.symm
    have hsettings : (s.fill s.index).settings = s.settings :=
      hfill.settings_eq.trans h.settings_eq.symm
    rw [TokenStream.advanceWithin, Unbuffered.advance]
    dsimp only
    generalize s.fill s.index = t at *
    have hnext : t.buffer[t.index]? = some b := by
      rw [← TokenStream.head?_pending, hpending, List.head?_cons]
    -- The buffer holds the next token at the cursor, so the position is not cut down to the last
    -- one.
    have hposition : min t.index (t.buffer.size - 1) = t.index := by
      obtain ⟨hlt, -⟩ := Array.getElem?_eq_some_iff.1 hnext
      omega
    have hignored : ∀ kind, t.isIgnored kind = u.isIgnored kind := by
      intro kind
      unfold TokenStream.isIgnored Unbuffered.isIgnored
      rw [hfill.settings_eq]
    obtain ⟨token, modes, rest⟩ := b
    obtain rfl : token = u.token := htoken
    rw [hposition, hnext]
    dsimp only
    by_cases hkind : u.token.kind = .endOfInput
    · -- The end token stays ahead of the cursor.
      rw [if_pos hkind, dif_pos hkind, hignored]
      split
      · exact ⟨rfl, hfill, hconsumed ▸ List.prefix_rfl, hsource, hsettings⟩
      · exact ⟨rfl, hfill.with_lastEnd _, hconsumed ▸ List.prefix_rfl, hsource, hsettings⟩
    · rw [if_neg hkind, dif_neg hkind]
      obtain ⟨hpass, hbehind⟩ := hfill.pass hpending rfl hkind
      have hkept : s.consumed <+: { t with index := t.index + 1 }.consumed := by
        rw [hbehind, hconsumed]
        exact List.prefix_append _ _
      have hpassed : { t with index := t.index + 1 }.isIgnored u.token.kind =
          u.isIgnored u.token.kind := hignored _
      rw [hpassed]
      split
      · have hless := Unbuffered.length_rest_pass_lt hkind
        exact (ih hpass (by omega)).of_kept hkept hsource hsettings
      · exact ⟨rfl, hpass.with_lastEnd _, hkept, hsource, hsettings⟩

/-- There are at most as many characters left as the source has bytes. -/
theorem length_rest_lt_limit (h : Shows s u) : u.cursor.rest.length < s.limit := by
  have hsource : u.source.toList.length ≤ u.source.utf8ByteSize := length_toList_le u.source
  have hle : u.cursor.rest.length ≤ u.source.toList.length :=
    length_textFrom_le u.place.offset u.source.toList
  unfold TokenStream.limit
  rw [h.source_eq]
  omega

/-- Reading the next token agrees, in its answer and in where it leads. -/
theorem advance (h : Shows s u) : Agrees s (s.advance expected) (u.advance expected) :=
  h.advanceWithin h.length_rest_lt_limit

end Shows

/-- Reading more tokens agrees, if the first result does. -/
theorem Agrees.advanceMore {s : TokenStream} {expected : List TokenKind}
    {result : Except SyntaxError Token × TokenStream}
    {result' : Except SyntaxError Token × Unbuffered} (h : Agrees s result result') (n : Nat) :
    Agrees s (TokenStream.advanceMore expected n result)
      (Unbuffered.advanceMore expected n result') := by
  induction n generalizing result result' with
  | zero => exact h
  | succ n ih =>
    obtain ⟨r, t⟩ := result
    obtain ⟨r', v⟩ := result'
    obtain rfl : r = r' := h.value_eq
    cases r with
    | error e => exact h
    | ok token => exact ih ((h.shows.advance).of_kept h.kept h.source_eq h.settings_eq)

/-! ## Coming back -/

/-- A token stream can come back to a place where it shows an unbuffered stream. -/
structure Recalls (s : TokenStream) (target : Snapshot) (u : Unbuffered) : Prop where
  /-- The sources are the same. -/
  source_eq : s.source = u.source
  /-- As many tokens had been passed. -/
  index_eq : target.index = u.index
  /-- The last token read ended at the same place. -/
  lastEnd_eq : target.lastEnd = u.lastEnd
  /-- The same settings were in force. -/
  settings_eq : target.settings = u.settings
  /-- The place is not ahead of the cursor. -/
  index_le : target.index ≤ s.consumed.length
  /-- The tokens in front of the place still lead to it. -/
  consumed : Chain s.source.toList .start (s.consumed.take target.index) u.place

/-- A token stream can come back to where it stands, so a snapshot of it may be taken at any
time. -/
theorem Shows.recalls {s : TokenStream} {u : Unbuffered} (h : Shows s u) :
    Recalls s s.snapshot u where
  source_eq := h.source_eq
  index_eq := h.index_eq
  lastEnd_eq := h.lastEnd_eq
  settings_eq := h.settings_eq
  index_le := Nat.le_of_eq h.length_consumed.symm
  consumed := by
    have hall : s.consumed.take s.index = s.consumed := by
      rw [← h.length_consumed, List.take_length]
    show Chain s.source.toList .start (s.consumed.take s.index) u.place
    rw [hall]
    exact h.consumed

namespace Recalls

variable {s t : TokenStream} {u v : Unbuffered} {target : Snapshot}

/-- A place can be come back to as long as the tokens in front of it are there. -/
theorem of_kept (h : Recalls s target u) (hkept : s.consumed <+: t.consumed)
    (hsource : t.source = s.source) : Recalls t target u where
  source_eq := hsource.trans h.source_eq
  index_eq := h.index_eq
  lastEnd_eq := h.lastEnd_eq
  settings_eq := h.settings_eq
  index_le := Nat.le_trans h.index_le hkept.length_le
  consumed := by
    obtain ⟨more, hmore⟩ := hkept
    rw [hsource, ← hmore, List.take_append_of_le_length h.index_le]
    exact h.consumed

/-- The tokens behind a place that was come back to. -/
theorem consumed_back (h : Recalls s target u) (hs : Shows s v) (l : Location) :
    { s with index := target.index, lastEnd := l }.consumed = s.consumed.take target.index := by
  have hle := h.index_le
  rw [hs.length_consumed] at hle
  show s.buffer.toList.take target.index = (s.buffer.toList.take s.index).take target.index
  rw [List.take_take, Nat.min_eq_left hle]

/-- Moving the cursor back leaves the settings that are in force, while the place and the text are
those of the earlier stream again. -/
theorem back (h : Recalls s target u) (hs : Shows s v) :
    Shows { s with index := target.index, lastEnd := target.lastEnd }
      (u.apply v.settings) := by
  have hbehind := h.consumed_back hs target.lastEnd
  have hle := h.index_le
  rw [hs.length_consumed] at hle
  obtain ⟨l, hpending⟩ := hs.pending
  -- The whole buffer is one chain, so what is ahead of the old place goes on from where it ended.
  have hall : Chain s.source.toList .start s.buffer.toList l := by
    rw [s.toList_buffer]
    exact Chain.append_iff.2 ⟨v.place, hs.consumed, hpending⟩
  have hsplit : s.buffer.toList =
      s.consumed.take target.index ++ s.buffer.toList.drop target.index := by
    rw [← hbehind]
    exact (List.take_append_drop target.index _).symm
  rw [hsplit] at hall
  obtain ⟨p, hfirst, hrest⟩ := Chain.append_iff.1 hall
  obtain rfl : p = u.place := hfirst.unique h.consumed
  have hindex := Nat.le_trans hle hs.index_le
  refine ⟨h.source_eq, h.index_eq, h.lastEnd_eq, hs.settings_eq, hindex, ?_, ⟨l, hrest⟩, ?_⟩
  · rw [hbehind]
    exact h.consumed
  · rw [hbehind]
    exact fun b hb => hs.kind_ne b (List.mem_of_mem_take hb)

end Recalls

namespace Shows

variable {s : TokenStream} {u : Unbuffered}

/-- Putting settings in force agrees, and keeps what is behind the cursor. -/
theorem apply (h : Shows s u) (settings : Settings) :
    Shows (s.apply settings) (u.apply settings) ∧ (s.apply settings).consumed = s.consumed := by
  have hsame : Shows { s with settings } (u.apply settings) :=
    ⟨h.source_eq, h.index_eq, h.lastEnd_eq, rfl, h.index_le, h.consumed, h.pending, h.kind_ne⟩
  unfold TokenStream.apply
  split
  · exact ⟨hsame, rfl⟩
  · have hbuffer : (s.buffer.shrink s.index).toList = { s with settings }.consumed ++ [] := by
      rw [Array.toList_shrink, List.append_nil]
      rfl
    obtain ⟨hshows, hconsumed, -⟩ := hsame.with_buffer hbuffer (.nil u.place)
    exact ⟨hshows, hconsumed⟩

end Shows

/-- Coming back to a place is taking the unbuffered stream of that place, also if more was read
ahead or under other modes since then. -/
theorem Recalls.restore {s : TokenStream} {u v : Unbuffered} {target : Snapshot}
    (h : Recalls s target u) (hs : Shows s v) :
    Shows (s.restore target) u ∧ (s.restore target).consumed = s.consumed.take target.index := by
  obtain ⟨hshows, hconsumed⟩ := (h.back hs).apply target.settings
  rw [h.consumed_back hs] at hconsumed
  refine ⟨?_, hconsumed⟩
  have hsame : u.apply target.settings = u := by
    rw [h.settings_eq]
    rfl
  rw [← hsame]
  exact hshows

/-! ## Every operation -/

namespace Shows

variable {s : TokenStream} {u : Unbuffered}

/-- Looking ahead agrees, however many tokens are looked at, and leaves both streams where they
stand: what was read ahead stays in the buffer. -/
theorem peekExpecting (h : Shows s u) (n : Nat) (expected : List TokenKind) :
    Agrees s (s.peekExpecting n expected) (u.ahead n expected, u) := by
  have hmore : Agrees s (TokenStream.advanceMore expected n (s.advance expected))
      (Unbuffered.advanceMore expected n (u.advance expected)) := h.advance.advanceMore n
  unfold TokenStream.peekExpecting Unbuffered.ahead
  dsimp only
  generalize TokenStream.advanceMore expected n (s.advance expected) = result at *
  generalize Unbuffered.advanceMore expected n (u.advance expected) = result' at *
  obtain ⟨r, t⟩ := result
  obtain ⟨hvalue, hshows, hkept, hsource, hsettings⟩ := hmore
  -- What was read stays in the buffer, and the cursor is moved back in front of it.
  have hrecalls := h.recalls.of_kept hkept hsource
  have hback := hrecalls.back hshows
  have hbehind := hrecalls.consumed_back hshows s.lastEnd
  have hsame : u.apply result'.2.settings = u := by
    rw [← hshows.settings_eq, hsettings, h.settings_eq]
    rfl
  rw [hsame] at hback
  have hfirst : t.consumed.take s.index = s.consumed := by
    rw [← h.length_consumed]
    exact (List.prefix_iff_eq_take.1 hkept).symm
  have hkept : { t with index := s.index, lastEnd := s.lastEnd }.consumed = s.consumed :=
    hbehind.trans hfirst
  exact ⟨hvalue, hback, hkept ▸ List.prefix_rfl, hsource, hsettings⟩

/-- Asking for something about the next token agrees, and so does the error if there is none. Both
streams stay where they are. -/
theorem ask {β : Type} (h : Shows s u) (onToken : Token → β) (onError : SyntaxError → β) :
    Agrees s
      (match s.peek with
        | (.ok token, s) => (onToken token, s)
        | (.error e, s) => (onError e, s))
      (match u.ahead 0 [] with
        | .ok token => onToken token
        | .error e => onError e, u) := by
  have hpeek : Agrees s s.peek (u.ahead 0 [], u) := h.peekExpecting 0 []
  obtain ⟨hvalue, hshows, hkept, hsource, hsettings⟩ := hpeek
  generalize s.peek = result at *
  obtain ⟨r, t⟩ := result
  obtain rfl : r = u.ahead 0 [] := hvalue
  cases u.ahead 0 [] with
  | error e => exact ⟨rfl, hshows, hkept, hsource, hsettings⟩
  | ok token => exact ⟨rfl, hshows, hkept, hsource, hsettings⟩

/-- Asking for the place of the next token agrees. -/
theorem location (h : Shows s u) : Agrees s s.location (u.location, u) :=
  h.ask Token.location fun e => e.span.start

/-- Asking for the kind of the next token agrees. -/
theorem check (h : Shows s u) (kind : TokenKind) : Agrees s (s.check kind) (u.check kind, u) :=
  h.ask (fun token => token.kind == kind) fun _ => false

/-- Asking for a word agrees: it looks at the next token of both. -/
theorem checkWord (h : Shows s u) (word : String) :
    Agrees s (s.checkWord word) (u.checkWord word, u) :=
  h.ask (fun token => token.kind == .identifier && token.value == word) fun _ => false

/-- Reading a token of a kind agrees: either both streams read the same token, or neither of them
reads anything. -/
theorem accept (h : Shows s u) (kind : TokenKind) : Agrees s (s.accept kind) (u.accept kind) := by
  obtain ⟨hvalue, hshows, hkept, hsource, hsettings⟩ := h.check kind
  unfold TokenStream.accept Unbuffered.accept
  generalize s.check kind = result at *
  obtain ⟨found, t⟩ := result
  obtain rfl : found = u.check kind := hvalue
  -- If the token is not of that kind, nothing is read; otherwise both read the token.
  cases u.check kind with
  | false => exact ⟨rfl, hshows, hkept, hsource, hsettings⟩
  | true =>
    have hnext : Agrees s t.next (u.advance []) := hshows.advance.of_kept hkept hsource hsettings
    rw [if_pos rfl]
    dsimp only
    generalize t.next = next at *
    generalize u.advance [] = next' at *
    obtain ⟨r, t'⟩ := next
    obtain ⟨r', u'⟩ := next'
    obtain rfl : r = r' := hnext.value_eq
    cases r with
    | error e => exact ⟨rfl, hnext.shows, hnext.kept, hnext.source_eq, hnext.settings_eq⟩
    | ok token => exact ⟨rfl, hnext.shows, hnext.kept, hnext.source_eq, hnext.settings_eq⟩

/-- Reading a token of one of some kinds agrees: the same token, or the same error about another one
or about the end. -/
theorem expect (h : Shows s u) (kinds : List TokenKind) :
    Agrees s (s.expect kinds) (u.expect kinds) := by
  have hpeek := h.peekExpecting 0 kinds
  obtain ⟨hvalue, hshows, hkept, hsource, hsettings⟩ := hpeek
  unfold TokenStream.expect Unbuffered.expect
  generalize s.peekExpecting 0 kinds = result at *
  obtain ⟨r, t⟩ := result
  obtain rfl : r = u.ahead 0 kinds := hvalue
  cases u.ahead 0 kinds with
  | error e => exact ⟨rfl, hshows, hkept, hsource, hsettings⟩
  | ok token =>
    dsimp only
    -- Looking first has only filled the buffer, so reading behind it agrees with reading at once.
    split_ifs
    · exact hshows.advance.of_kept hkept hsource hsettings
    · exact ⟨rfl, hshows, hkept, hsource, hsettings⟩
    · exact ⟨rfl, hshows, hkept, hsource, hsettings⟩

end Shows

end MachineLang
