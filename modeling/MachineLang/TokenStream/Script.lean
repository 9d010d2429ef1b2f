import MachineLang.Parser.Standard

/-!
# Scripts of stream operations

A `Step` is one operation on a token stream, or a block of steps run under changed settings or as an
attempt. `Step.playAll` runs a script and reports what every step gave and where the stream stood
after it. Outside attempts a failed step does not stop the script; inside one it ends the attempt.
-/

namespace MachineLang

/-- A change of settings for the length of a block. -/
inductive Change
  /-- Puts a mode on top of those in force. -/
  | push (mode : LexMode)
  /-- Stops skipping some kinds. -/
  | intercept (kinds : List TokenKind)
  /-- Starts skipping some kinds. -/
  | ignore (kinds : List TokenKind)
deriving DecidableEq, Repr

/-- The settings after a change, which hold until the end of a block. -/
def Change.apply : Change → Settings → Settings
  | push mode => .push mode
  | intercept kinds => .intercept kinds
  | ignore kinds => .ignore kinds

/-- One operation on a token stream. -/
inductive Step
  | next
  | peek (ahead : Nat)
  | check (kind : TokenKind)
  | isIgnored (kind : TokenKind)
  | checkWord (word : String)
  | accept (kind : TokenKind)
  | expect (kinds : List TokenKind)
  | location
  | tokens
  | source
  /-- Remembers the place in a slot. -/
  | snapshot (slot : String)
  /-- Comes back to the place in a slot. -/
  | restore (slot : String)
  /-- Runs a rule of the machine language. -/
  | parse (rule : String)
  /-- Fails. -/
  | fail
  /-- Commits the innermost attempt. -/
  | commit
  /-- Runs steps under changed settings. -/
  | block (change : Change) (steps : List Step)
  /-- Runs steps as an attempt. -/
  | checkpoint (steps : List Step)
deriving Repr

/-- What became of an attempt to read something. -/
inductive Outcome
  | done
  | rolledBack
  | error
deriving DecidableEq, Repr

mutual

/-- What a step gave, in the form in which a run reports it. -/
inductive Answer
  | nothing
  | token (token : Option Token)
  | flag (value : Bool)
  | place (location : Location)
  | tokens (tokens : List Token)
  | text (source : String)
  | tree (node : Node)
  | failure (error : SyntaxError)
  | steps (reports : List Report)
  | checkpoint (outcome : Outcome) (reports : List Report) (cause : Option SyntaxError)

/-- What a step gave and where the stream stood after it. -/
inductive Report
  | mk (answer : Answer) (index : Nat) (lastEnd : Location)

end

/-- A stream in the course of a script. -/
structure Play where
  /-- The stream. -/
  stream : TokenStream
  /-- The remembered places, the latest first. -/
  slots : List (String × Snapshot)
  /-- Whether the innermost attempt is committed. -/
  committed : Bool
deriving Repr

namespace Play

/-- The report of a step that gave `answer`. -/
def report (p : Play) (answer : Answer) : Report := .mk answer p.stream.index p.stream.lastEnd

/-- A result of the stream operations as an answer, with the error if there is one. -/
def answer {α : Type} (p : Play) (wrap : α → Answer)
    (result : Except SyntaxError α × TokenStream) : Answer × Option SyntaxError × Play :=
  match result with
  | (.ok value, s) => (wrap value, none, { p with stream := s })
  | (.error e, s) => (.failure e, some e, { p with stream := s })

/-- An answer of the stream operations that cannot fail. -/
def tell {α : Type} (p : Play) (wrap : α → Answer) (result : α × TokenStream) :
    Answer × Option SyntaxError × Play :=
  (wrap result.1, none, { p with stream := result.2 })

end Play

namespace Step

mutual

/-- Runs one step; gives its answer and the error with which it failed. -/
def play (inside : Bool) (p : Play) : Step → Answer × Option SyntaxError × Play
  | next => p.answer (fun t => .token (some t)) p.stream.next
  | peek ahead => p.answer (fun t => .token (some t)) (p.stream.peekNth ahead)
  | check kind => p.tell .flag (p.stream.check kind)
  | isIgnored kind => p.tell .flag (p.stream.isIgnored kind, p.stream)
  | checkWord word => p.tell .flag (p.stream.checkWord word)
  | accept kind => p.answer .token (p.stream.accept kind)
  | expect kinds => p.answer (fun t => .token (some t)) (p.stream.expect kinds)
  | location => p.tell .place p.stream.location
  | tokens => p.tell .tokens (p.stream.tokens, p.stream)
  | source => p.tell .text (p.stream.source, p.stream)
  | snapshot slot => (.nothing, none, { p with slots := (slot, p.stream.snapshot) :: p.slots })
  | restore slot =>
    match p.slots.lookup slot with
    | some saved => (.nothing, none, { p with stream := p.stream.restore saved })
    | none => (.nothing, none, p)
  | parse rule => p.answer .tree (RuleTable.standard.parse rule p.stream)
  | fail =>
    let e := SyntaxError.invalid (.other "requested failure") (.point .start)
    (.failure e, some e, p)
  | commit => (.flag true, none, { p with committed := true })
  | block change steps =>
    let ((reports, error, q), s) := p.stream.withSettings change.apply fun s =>
      let played := playAll inside { p with stream := s } steps
      (played, played.2.2.stream)
    (.steps reports, error, { q with stream := s })
  | checkpoint steps =>
    let (reports, error, q) := playAll true { p with committed := false } steps
    let result : Except SyntaxError Unit := match error with
      | none => .ok ()
      | some e => .error e
    match p.stream.checkpoint fun _ => ((result, q.committed), q.stream) with
    | (.ok (.done _), s) =>
      (.checkpoint .done reports none, none, ⟨s, q.slots, p.committed⟩)
    | (.ok (.rolledBack e), s) =>
      (.checkpoint .rolledBack reports (some e), none, ⟨s, q.slots, p.committed⟩)
    | (.error e, s) =>
      (.checkpoint .error reports (some e), some e, ⟨s, q.slots, p.committed⟩)

/-- Runs steps in order; inside an attempt the first failure ends the run and is given back. -/
def playAll (inside : Bool) (p : Play) : List Step → List Report × Option SyntaxError × Play
  | [] => ([], none, p)
  | step :: steps =>
    let (answer, error, q) := step.play inside p
    match inside, error with
    | true, some e => ([q.report answer], some e, q)
    | _, _ =>
      let (reports, error, r) := playAll inside q steps
      (q.report answer :: reports, error, r)

end

/-- Runs a script on a fresh stream. -/
def run (source : String) (steps : List Step) : List Report :=
  (playAll false ⟨.ofSource source, [], false⟩ steps).1

end Step

end MachineLang
