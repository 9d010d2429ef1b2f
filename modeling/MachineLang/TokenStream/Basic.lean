import MachineLang.SyntaxError.Basic
import MachineLang.Token.Scan

/-!
# The token stream

Tokens are cut off the source when they are first asked for, kept in a buffer, and read through a
cursor. The settings in force, a stack of lexer modes and the kinds that reading skips, can be
changed for a while (`withSettings`), and a failed attempt can be taken back (`checkpoint`).
Buffered tokens remember the modes they were cut under: a token met again under other modes is cut
anew.
-/

namespace MachineLang

/-- The part of a stream that changes for a while. -/
structure Settings where
  /-- The lexer modes in force, innermost first. -/
  modes : List LexMode
  /-- The kinds of tokens that reading skips. -/
  ignored : List TokenKind
deriving DecidableEq, Repr

namespace Settings

/-- The settings of a fresh stream: statements, with spacing, comments and the end skipped. -/
def initial : Settings := ⟨[.base], [.whitespace, .newline, .comment, .endOfInput]⟩

/-- Puts a mode on top of the modes in force. -/
def push (mode : LexMode) (s : Settings) : Settings := { s with modes := mode :: s.modes }

/-- Stops skipping some kinds, so that they are read as tokens. -/
def intercept (kinds : List TokenKind) (s : Settings) : Settings :=
  { s with ignored := s.ignored.filter fun kind => !kinds.contains kind }

/-- Starts skipping some kinds, besides those that are skipped already. -/
def ignore (kinds : List TokenKind) (s : Settings) : Settings :=
  { s with ignored := kinds ++ s.ignored }

end Settings

/-- A token in the buffer, with the modes under which it was cut off. -/
structure Buffered where
  /-- The token. -/
  token : Token
  /-- The modes under which it was cut. -/
  modes : List LexMode
  /-- The text behind it. -/
  rest : List Char
deriving DecidableEq, Repr

/-- A source being read: what was cut off so far, and how far the reader has come. -/
structure TokenStream where
  /-- The whole text. -/
  source : String
  /-- The tokens cut so far, in order. -/
  buffer : Array Buffered
  /-- How many tokens of the buffer lie behind the cursor. -/
  index : Nat
  /-- Where the last token that was read and not skipped ends. -/
  lastEnd : Location
  /-- The settings in force. -/
  settings : Settings
deriving DecidableEq, Repr

/-- A place in a stream to come back to. -/
structure Snapshot where
  /-- The cursor. -/
  index : Nat
  /-- The end of the last token read. -/
  lastEnd : Location
  /-- The settings in force. -/
  settings : Settings
deriving DecidableEq, Repr

/-- What became of an attempt that may be taken back. -/
inductive Attempt (α : Type)
  /-- The attempt succeeded. -/
  | done (value : α)
  /-- The attempt failed, and the stream is back where it began. -/
  | rolledBack (error : SyntaxError)
deriving Repr

namespace TokenStream

/-- A fresh stream over a text, under the settings with which a source begins. -/
def ofSource (source : String) : TokenStream := ⟨source, #[], 0, .start, .initial⟩

/-- Every token cut so far, in order, those that were skipped included. -/
def tokens (s : TokenStream) : List Token := s.buffer.toList.map Buffered.token

/-- Whether reading skips tokens of a kind. -/
def isIgnored (s : TokenStream) (kind : TokenKind) : Bool := s.settings.ignored.contains kind

/-- The place behind the buffered tokens, from which the next one is cut off. -/
def frontier (s : TokenStream) : Cursor :=
  match s.buffer.back? with
  | none => .ofText s.source.toList
  | some last => ⟨last.token.stop, last.rest⟩

/-- Cuts one more token off the source, under the modes in force. -/
def cut (s : TokenStream) : TokenStream :=
  let (token, next) := s.frontier.lex (activeRules s.settings.modes)
  { s with buffer := s.buffer.push ⟨token, s.settings.modes, next.rest⟩ }

/-- Cuts up to `missing` more tokens off the source, none behind the end token. -/
def cutUpTo (s : TokenStream) : Nat → TokenStream
  | 0 => s
  | missing + 1 =>
    if s.buffer.back?.any fun last => last.token.kind == .endOfInput then s
    else s.cut.cutUpTo missing

/-- Drops the buffered tokens from `index` on, if the one there was cut under other modes. -/
def refresh (s : TokenStream) (index : Nat) : TokenStream :=
  if s.buffer[index]?.any fun b => b.modes != s.settings.modes then
    { s with buffer := s.buffer.shrink index }
  else s

/-- Makes sure that the buffer holds the token at `index`, cut under the modes in force, or else
ends with the end token. -/
def fill (s : TokenStream) (index : Nat) : TokenStream :=
  let s := s.refresh index
  s.cutUpTo (index + 1 - s.buffer.size)

/-- A bound on the number of tokens of the source, the end token included. -/
def limit (s : TokenStream) : Nat := s.source.utf8ByteSize + 2

/-- Reads on to the next token that is not skipped, over at most `steps` tokens. -/
def advanceWithin (expected : List TokenKind) :
    Nat → TokenStream → Except SyntaxError Token × TokenStream
  | 0, s => (.error (.unexpectedEnd s.frontier.location expected), s)
  | steps + 1, s =>
    let s := s.fill s.index
    let position := min s.index (s.buffer.size - 1)
    match s.buffer[position]? with
    | none => (.error (.unexpectedEnd s.frontier.location expected), s)
    | some ⟨token, _, _⟩ =>
      if token.kind = .endOfInput then
        if s.isIgnored .endOfInput then (.error (.unexpectedEnd token.location expected), s)
        else (.ok token, { s with index := position, lastEnd := token.stop })
      else
        let s := { s with index := position + 1 }
        if s.isIgnored token.kind then advanceWithin expected steps s
        else (.ok token, { s with lastEnd := token.stop })

/-- Reads the next token that is not skipped; `expected` is only for the message if there is
none. -/
def advance (s : TokenStream) (expected : List TokenKind) :
    Except SyntaxError Token × TokenStream :=
  advanceWithin expected s.limit s

/-- Reads the next token, which may be the end of the source if that is not skipped. -/
def next (s : TokenStream) : Except SyntaxError Token × TokenStream := s.advance []

/-- Reads `n` more tokens after a first result, stopping at the first error. -/
def advanceMore (expected : List TokenKind) :
    Nat → Except SyntaxError Token × TokenStream → Except SyntaxError Token × TokenStream
  | 0, result => result
  | _ + 1, (.error e, s) => (.error e, s)
  | n + 1, (.ok _, s) => advanceMore expected n (s.advance expected)

/-- The `n`-th token ahead, without moving. -/
def peekExpecting (s : TokenStream) (n : Nat) (expected : List TokenKind) :
    Except SyntaxError Token × TokenStream :=
  let index := s.index
  let lastEnd := s.lastEnd
  let (result, s) := advanceMore expected n (s.advance expected)
  (result, { s with index, lastEnd })

/-- The `n`-th token ahead, without moving. -/
def peekNth (s : TokenStream) (n : Nat) : Except SyntaxError Token × TokenStream :=
  s.peekExpecting n []

/-- The next token, without moving on to it. -/
def peek (s : TokenStream) : Except SyntaxError Token × TokenStream := s.peekNth 0

/-- Where the next token begins, or where the source ends. -/
def location (s : TokenStream) : Location × TokenStream :=
  match s.peek with
  | (.ok token, s) => (token.location, s)
  | (.error e, s) => (e.span.start, s)

/-- Whether the next token has a kind. -/
def check (s : TokenStream) (kind : TokenKind) : Bool × TokenStream :=
  match s.peek with
  | (.ok token, s) => (token.kind == kind, s)
  | (.error _, s) => (false, s)

/-- Whether the next token is a given identifier. -/
def checkWord (s : TokenStream) (word : String) : Bool × TokenStream :=
  match s.peek with
  | (.ok token, s) => (token.kind == .identifier && token.value == word, s)
  | (.error _, s) => (false, s)

/-- Reads the next token if it has a kind. -/
def accept (s : TokenStream) (kind : TokenKind) :
    Except SyntaxError (Option Token) × TokenStream :=
  match s.check kind with
  | (false, s) => (.ok none, s)
  | (true, s) =>
    match s.next with
    | (.ok token, s) => (.ok (some token), s)
    | (.error e, s) => (.error e, s)

/-- Reads the next token, which has to be of one of some kinds. -/
def expect (s : TokenStream) (kinds : List TokenKind) : Except SyntaxError Token × TokenStream :=
  match s.peekExpecting 0 kinds with
  | (.error e, s) => (.error e, s)
  | (.ok token, s) =>
    if kinds.contains token.kind then s.advance kinds
    else if token.kind = .endOfInput then (.error (.unexpectedEnd token.location kinds), s)
    else (.error (.unexpectedToken token kinds), s)

/-- Puts settings in force. Tokens ahead of the cursor are dropped if the modes change. -/
def apply (s : TokenStream) (settings : Settings) : TokenStream :=
  if settings.modes = s.settings.modes then { s with settings }
  else { s with buffer := s.buffer.shrink s.index, settings }

/-- The place to come back to, with the settings in force there. -/
def snapshot (s : TokenStream) : Snapshot := ⟨s.index, s.lastEnd, s.settings⟩

/-- Comes back to a place, with the settings that were in force there. -/
def restore (s : TokenStream) (target : Snapshot) : TokenStream :=
  { s with index := target.index, lastEnd := target.lastEnd }.apply target.settings

/-- Runs `body` under changed settings, and puts the old ones back in force. -/
def withSettings {α : Type} (update : Settings → Settings) (body : TokenStream → α × TokenStream)
    (s : TokenStream) : α × TokenStream :=
  let saved := s.settings
  let (result, s') := body (s.apply (update saved))
  (result, s'.apply saved)

/-- Runs `body`, which also says whether it has committed itself. A failure that is not committed is
taken back; one that says that the rules have no end never is. -/
def checkpoint {α : Type}
    (body : TokenStream → (Except SyntaxError α × Bool) × TokenStream) (s : TokenStream) :
    Except SyntaxError (Attempt α) × TokenStream :=
  let saved := s.snapshot
  match body s with
  | ((.ok value, _), s') => (.ok (.done value), s')
  | ((.error e, committed), s') =>
    if committed || e.isEndless then (.error e, s')
    else (.ok (.rolledBack e), s'.restore saved)

end TokenStream

end MachineLang
