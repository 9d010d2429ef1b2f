import MachineLang.Proofs.Spans

/-!
# Rounds

Whatever repeats in a parser goes in rounds, as many as it is allowed: separators, statements,
elements of a list, alternatives and their symbols, and operations (`Loops`). Each round that
another one follows has taken some text, so that there are no more rounds than characters, and the
bound is not met (`Ends.iterate`). Errors are allowed as they are: all of them, if one asks what a
round has taken, or all but the one that says that the rules have no end, if one asks whether a
parser comes to an end by itself.
-/

namespace MachineLang

namespace Parser

variable {α β σ : Type}

/-- Fewer characters than a number are left, which is what bounds the rounds behind. -/
def Left (n : Nat) : α → TokenStream → Prop := fun _ t => t.text.length < n

namespace Ends

variable {p : Parser α} {f : α → Parser β} {allowed : SyntaxError → Prop} {s : TokenStream}
  {n : Nat} {Q : α → TokenStream → Prop} {R : β → TokenStream → Prop}

/-! ## How much text is left -/

/-- Once fewer characters than a number are left, it stays so. -/
theorem left (hs : Reliable s) (hlt : s.text.length < n) (h : p.Ends allowed s Q) :
    p.Ends allowed s (Left n) :=
  h.imp fun _ _ ht hlater _ => Nat.lt_of_le_of_lt (hs.length_text_le ht hlater) hlt

/-- Once fewer characters than a number are left, it stays so in what follows. -/
theorem bind_left (hs : Reliable s) (hlt : s.text.length < n) (h : p.Ends allowed s Q)
    (hf : ∀ value t, Reliable t → t.text.length < n → (f value).Ends allowed t R) :
    (p >>= f).Ends allowed s R :=
  (h.left hs hlt).bind fun value t ht _ hlt' => hf value t ht hlt'

/-- Other settings do not change how much is left. -/
theorem withSettings_left {update : Settings → Settings} (hs : Reliable s)
    (hordinary : (update s.settings).Ordinary)
    (h : p.Ends allowed (s.apply (update s.settings)) (Left n)) :
    (Parser.withSettings update p).Ends allowed s (Left n) :=
  Ends.withSettings hs hordinary h fun value t ht _ hlt => by
    unfold Left
    rw [ht.text_apply hs.ordinary]
    exact hlt

/-- Another mode does not change how much is left. -/
theorem withMode_left {mode : LexMode} (hs : Reliable s)
    (h : ∀ t, Reliable t → t.text.length = s.text.length → p.Ends allowed t (Left n)) :
    (Parser.withMode mode p).Ends allowed s (Left n) := by
  have hordinary := hs.ordinary.push mode
  refine withSettings_left hs hordinary (h _ (hs.apply hordinary).1 ?_)
  rw [hs.text_apply hordinary]

end Ends

/-! ## Single tokens -/

/-- Reading a token fails at the end of the source only. -/
theorem isEndless_of_next {s t : TokenStream} {e : SyntaxError} (hs : Reliable s)
    (h : next s = (.error e, t)) :
    e.isEndless = false := by
  obtain ⟨-, -, hresult⟩ := hs.advance []
  rw [show s.advance [] = (.error e, t) from h] at hresult
  obtain ⟨rfl, -⟩ := hresult
  rfl

/-- Expecting a token fails at the end of the source or at another token. Neither says that the
rules can never end, so another alternative may still be tried. -/
theorem isEndless_of_expect {s t : TokenStream} {e : SyntaxError} {kinds : List TokenKind}
    (hs : Reliable s) (h : expect kinds s = (.error e, t)) : e.isEndless = false := by
  obtain ⟨r, hstays, hpeek | ⟨-, hpeek⟩⟩ := hs.peekExpecting kinds
  · have hexpect : expect kinds s =
        if kinds.contains s.nextToken.kind then r.advance kinds
        else if s.nextToken.kind = .endOfInput
          then (.error (.unexpectedEnd s.nextToken.location kinds), r)
        else (.error (.unexpectedToken s.nextToken kinds), r) := by
      unfold expect TokenStream.expect
      rw [hpeek]
    rw [hexpect] at h
    split_ifs at h
    · obtain ⟨-, -, hresult⟩ := hstays.reliable.advance kinds
      rw [h] at hresult
      obtain ⟨rfl, -⟩ := hresult
      rfl
    · cases h
      rfl
    · cases h
      rfl
  · have hexpect : expect kinds s = (.error (.unexpectedEnd s.nextPlace kinds), r) := by
      unfold expect TokenStream.expect
      rw [hpeek]
    cases hexpect.symm.trans h
    rfl

/-- Accepting a token fails where reading it does. -/
theorem isEndless_of_accept {s t : TokenStream} {e : SyntaxError} {kind : TokenKind}
    (hs : Reliable s) (h : accept kind s = (.error e, t)) : e.isEndless = false := by
  obtain ⟨-, -, -, -, hstays⟩ := (Meets.check hs kind).of_eq_ok
    (show check kind s = (.ok (s.check kind).1, (s.check kind).2) from rfl)
  unfold accept TokenStream.accept at h
  generalize s.check kind = result at *
  obtain ⟨found, r⟩ := result
  -- Without the token nothing is read, and nothing can fail.
  cases found with
  | false => cases h
  | true =>
    dsimp only at h
    rcases hnext : r.next with ⟨e' | token, q⟩
    · rw [hnext] at h
      cases h
      exact isEndless_of_next hstays.reliable hnext
    · rw [hnext] at h
      cases h

/-- The next token of a choice is missing at the end of the source only, which does not say that the
rules can never end. -/
theorem isEndless_of_choiceToken {s t : TokenStream} {e : SyntaxError} {mode : Option LexMode}
    {kinds : List TokenKind} (hs : Reliable s) (h : choiceToken mode kinds s = (.error e, t)) :
    e.isEndless = false := by
  have hpeek : ∀ r q, Reliable r → ∀ e', peek r = (.error e', q) → e'.isEndless = false := by
    intro r q hr e' hpeek
    obtain ⟨_, -, hpeek' | ⟨-, hpeek'⟩⟩ := hr.peekExpecting []
    · cases hpeek'.symm.trans hpeek
    · cases hpeek'.symm.trans hpeek
      rfl
  have hmode : ∀ q e', withMode? mode peek s = (.error e', q) → e'.isEndless = false := by
    intro q e' hmode
    cases mode with
    | none => exact hpeek s q hs e' hmode
    | some mode =>
      have happly : ∀ p : Parser Token,
          withMode? (some mode) p s = ((p (s.apply (s.settings.push mode))).1,
            (p (s.apply (s.settings.push mode))).2.apply s.settings) := fun _ => rfl
      rw [happly] at hmode
      rcases hinner : peek (s.apply (s.settings.push mode)) with ⟨result, r⟩
      rw [hinner] at hmode
      cases hmode
      exact hpeek _ _ (hs.apply (hs.ordinary.push mode)).1 e' hinner
  -- Any other error would be one of looking at the next token.
  unfold choiceToken at h
  rw [Parser.tryCatch_apply] at h
  rcases hresult : withMode? mode peek s with ⟨e' | token, q⟩
  · rw [hresult] at h
    have he := hmode q e' hresult
    dsimp only at h
    split at h
    · cases h
      rfl
    · cases h
      exact he
  · rw [hresult] at h
    cases h

/-- Without another mode, the next token of a choice is the next one of the stream. -/
theorem token_of_choiceToken {s t : TokenStream} {token : Token} {kinds : List TokenKind}
    (hs : Reliable s) (h : choiceToken none kinds s = (.ok token, t)) : token = s.nextToken := by
  have hchoice : choiceToken none kinds s = _ := Parser.tryCatch_apply peek _ s
  rw [hchoice] at h
  rcases hpeek : peek s with ⟨e | found, r⟩
  · rw [hpeek] at h
    dsimp only at h
    split at h
    · cases h
    · cases h
  · rw [hpeek] at h
    cases h
    exact ((Meets.peek hs).of_eq_ok hpeek).2.2.1

namespace Ends

variable {allowed : SyntaxError → Prop} {s : TokenStream}

/-- Where the next token begins is told without reading anything. -/
theorem location (hs : Reliable s) : Parser.location.Ends allowed s fun _ t => Stays s t :=
  ((Meets.location hs).ends_of fun _ _ h => by cases h).imp fun _ _ _ _ h => h.2

/-- Whether the next token has a kind. -/
theorem check (hs : Reliable s) (kind : TokenKind) :
    (Parser.check kind).Ends allowed s fun found t =>
    (found = true → s.nextToken.kind = kind) ∧ Stays s t :=
  ((Meets.check hs kind).ends_of fun _ _ h => by cases h).imp fun _ _ _ _ h => ⟨h.1, h.2.2⟩

/-- Whether the next token is a word. -/
theorem checkWord (hs : Reliable s) (word : String) :
    (Parser.checkWord word).Ends allowed s fun found t =>
    (found = true → s.nextToken.kind = .identifier) ∧ Stays s t :=
  ((Meets.checkWord hs word).ends_of fun _ _ h => by cases h).imp fun _ _ _ _ h =>
    ⟨fun hfound => (h.1 hfound).1, h.2⟩

/-- Which operator the next token is. -/
theorem operator? {α : Type} (hs : Reliable s) (operators : List (TokenKind × α)) :
    (Parser.operator? operators).Ends allowed s fun op t =>
      (op.isSome = true → operators.lookup s.nextToken.kind = op) ∧ Stays s t := by
  refine (Meets.operator? hs operators).ends_of fun e t h => ?_
  unfold Parser.operator? at h
  split at h
  · cases h
  · cases h

/-- How many rounds there may be: more than characters are left. -/
theorem limit (hs : Reliable s) :
    Parser.limit.Ends allowed s fun steps t => s = t ∧ s.text.length < steps :=
  of_ok rfl hs (.refl s) ⟨rfl, hs.shows.length_rest_lt_limit⟩

/-- The range from a place to the end of the last token read. -/
theorem spanFrom (hs : Reliable s) (start : Location) :
    (Parser.spanFrom start).Ends allowed s fun _ t => s = t :=
  ((Meets.spanFrom hs start).ends_of fun _ _ h => by cases h).imp fun _ _ _ _ h => h.2

end Ends

section Allowed

variable {allowed : SyntaxError → Prop} (hallowed : ∀ e, e.isEndless = false → allowed e)
  {s : TokenStream}
include hallowed

namespace Ends

/-- The next token is read, or the error is one of those that are allowed. -/
theorem next (hs : Reliable s) : Parser.next.Ends allowed s fun token t => Took s token t :=
  (Meets.next hs).ends_of fun _ _ h => hallowed _ (isEndless_of_next hs h)

/-- The next token is read, if it is of one of some kinds. -/
theorem expect (hs : Reliable s) (kinds : List TokenKind) :
    (Parser.expect kinds).Ends allowed s fun token t => Took s token t ∧ token.kind ∈ kinds :=
  (Meets.expect hs kinds).ends_of fun _ _ h => hallowed _ (isEndless_of_expect hs h)

/-- If a token is read, less text is left. -/
theorem expect_left (hs : Reliable s) {kinds : List TokenKind} (hkinds : .endOfInput ∉ kinds) :
    (Parser.expect kinds).Ends allowed s (Left s.text.length) :=
  (expect hallowed hs kinds).imp fun _ _ _ _ h => h.1.length_lt (kind_ne_of_mem h.2 hkinds)

/-- The next token is read, if it is of a kind. -/
theorem accept (hs : Reliable s) (kind : TokenKind) :
    (Parser.accept kind).Ends allowed s fun found t =>
    found.isSome = true → kind ≠ .endOfInput → t.text.length < s.text.length := by
  refine ((Meets.accept hs kind).ends_of fun _ _ h => hallowed _ (isEndless_of_accept hs h)).imp
    fun found t _ _ h hfound hkind => ?_
  cases found with
  | none => cases hfound
  | some token => exact h.1.length_lt (h.2 ▸ hkind)

/-- A name takes some text. -/
theorem identifier (hs : Reliable s) : Parser.identifier.Ends allowed s (Left s.text.length) :=
  (expect_left hallowed hs (by decide)).bind fun _ _ ht _ hlt => Ends.pure ht hlt

/-- A character takes some text, unless its name is unknown. -/
theorem character (hs : Reliable s) : Parser.character.Ends allowed s (Left s.text.length) := by
  refine (expect_left hallowed hs (by decide)).bind fun token t ht _ hlt => ?_
  split
  · exact Ends.pure ht hlt
  · split
    · exact Ends.pure ht hlt
    · exact Ends.throw ht (hallowed _ rfl)
  · exact Ends.pure ht hlt

/-- A string takes some text, unless it is not terminated. -/
theorem string (hs : Reliable s) : Parser.string.Ends allowed s (Left s.text.length) := by
  refine (expect_left hallowed hs (by decide)).bind fun token t ht _ hlt => ?_
  split_ifs
  · exact (Ends.throw (Q := fun _ _ => False) ht (hallowed _ rfl)).bind fun _ _ _ _ h => h.elim
  · exact Ends.pure ht hlt

/-- The name that a token gives to a non-terminal. -/
theorem nonTerminalName (hs : Reliable s) (token : Token) :
    (Parser.nonTerminalName token).Ends allowed s fun _ t => s = t := by
  unfold Parser.nonTerminalName
  split
  · exact Ends.pure hs rfl
  · exact Ends.throw hs (hallowed _ rfl)
  · exact Ends.pure hs rfl

/-- A non-terminal takes some text, unless it is not closed. -/
theorem nonTerminal (hs : Reliable s) : Parser.nonTerminal.Ends allowed s (Left s.text.length) := by
  refine (expect_left hallowed hs (by decide)).bind fun token t ht _ hlt => ?_
  exact bind_left ht hlt (nonTerminalName hallowed ht token) fun _ _ hr hlt' => Ends.pure hr hlt'

/-- A movement takes some text. -/
theorem shift (hs : Reliable s) : Parser.shift.Ends allowed s (Left s.text.length) := by
  refine (expect_left hallowed hs (by decide)).bind fun token t ht _ hlt => ?_
  split
  · exact Ends.pure ht hlt
  · exact Ends.throw ht (hallowed _ rfl)

/-- The next token of a choice; without another mode it is the next one of the stream. -/
theorem choiceToken (hs : Reliable s) (mode : Option LexMode) (kinds : List TokenKind) :
    (Parser.choiceToken mode kinds).Ends allowed s fun token t => Stays s t ∧
      (mode = none → token = s.nextToken) := by
  refine (((meets_choiceToken hs mode kinds).ends_of fun _ _ h =>
    hallowed _ (isEndless_of_choiceToken hs h)).and_of fun token t h => ?_).imp fun _ _ _ _ h =>
    ⟨h.1.2.2, h.2⟩
  rintro rfl
  exact token_of_choiceToken hs h

end Ends

end Allowed

/-! ## Loops -/

/-- Goes in rounds, up to one that no other one follows. -/
def iterate (round : σ → Parser (σ ⊕ α)) : Nat → σ → Parser α
  | 0, _ => endless
  | rounds + 1, a => do
    match ← round a with
    | .inl next => iterate round rounds next
    | .inr value => return value

/-- A round that another one follows has taken some text. -/
def Advances (round : σ → Parser (σ ⊕ α)) : Prop :=
  ∀ a s next t, Reliable s → round a s = (.ok (.inl next), t) → t.text.length < s.text.length

/-- With more rounds than characters, a loop comes to an end if each of its rounds does, and has
taken some text if another one follows. -/
theorem Ends.iterate {round : σ → Parser (σ ⊕ α)} {allowed : SyntaxError → Prop} {s : TokenStream}
    (hs : Reliable s) (hround : ∀ a t, Reliable t → t.text.length ≤ s.text.length →
      (round a).Ends allowed t fun next r => next.isLeft = true → r.text.length < t.text.length)
    {rounds : Nat} (hrounds : s.text.length < rounds) (a : σ) :
    (iterate round rounds a).Ends allowed s fun _ _ => True := by
  induction rounds generalizing s a with
  | zero => exact absurd hrounds (Nat.not_lt_zero _)
  | succ rounds ih =>
    refine (hround a s hs (Nat.le_refl _)).bind fun next t ht _ hnext => ?_
    cases next with
    | inl next =>
      -- A round is spent and at least a character is taken, so there are still more rounds than
      -- characters.
      have hlt := hnext rfl
      exact ih ht (fun a r hr hle => hround a r hr (Nat.le_trans hle (Nat.le_of_lt hlt)))
        (by omega) next
    | inr value => exact Ends.pure ht trivial

/-- One round of skipping separators: it goes on if one was there, and is over otherwise. -/
def separatorRound (_ : Unit) : Parser (Unit ⊕ Unit) := do
  if ← (do if ← check .newline then return true else check .semicolon) then
    let _ ← next
    return .inl ()
  return .inr ()

/-- One round of gathering values: it goes on if one was given, and is over otherwise. -/
def collectRound (step : Parser (Option α)) (values : List α) : Parser (List α ⊕ List α) := do
  match ← step with
  | none => return .inr values.reverse
  | some value => return .inl (value :: values)

/-- One element of a list, and the separator behind it. -/
def elementRound (separator : TokenKind) (item : Parser Node) (before : List Node) :
    Parser (List Node ⊕ List Node) := do
  let node ← item
  if (← accept separator).isSome then return .inl (node :: before)
    else return .inr (node :: before).reverse

/-- One operator with the operand behind it. -/
def operationRound (operators : List (TokenKind × BinaryOp)) (operand : Parser Node)
    (start : Location) (left : Node) :
    Parser (Node ⊕ Node) := do
  match ← operator? operators with
  | none => return .inr left
  | some op =>
    let _ ← next
    let right ← operand
    let span ← spanFrom start
    return .inl (.binary op left right span)

/-- One alternative of a production, and the bar behind it. -/
def alternativeRound (rule : String → Parser Node) (before : List (List Node)) :
    Parser (List (List Node) ⊕ List (List Node)) := do
  let sequence ← collect (alternativeItem rule)
  if (← accept .pipe).isSome then return .inl (sequence :: before)
    else return .inr (sequence :: before).reverse

/-- Separators are skipped in rounds, as many as there are steps. -/
theorem skipSeparatorsWithin_eq_iterate (rounds : Nat) :
    skipSeparatorsWithin rounds = iterate separatorRound rounds () := by
  induction rounds with
  | zero => rfl
  | succ rounds ih =>
    simp only [skipSeparatorsWithin, iterate, separatorRound, bind_assoc]
    refine congrArg _ (funext fun found => congrArg _ (funext fun found' => ?_))
    cases found' with
    | false => rfl
    | true =>
      rw [if_pos rfl, if_pos rfl, bind_assoc, ih]
      rfl

/-- Values are gathered in rounds, each of which hands on what was gathered so far. -/
theorem collectWithin_eq_iterate (step : Parser (Option α)) (rounds : Nat) (values : List α) :
    collectWithin step rounds values = iterate (collectRound step) rounds values := by
  induction rounds generalizing values with
  | zero => rfl
  | succ rounds ih =>
    unfold collectWithin iterate collectRound
    rw [bind_assoc]
    refine congrArg _ (funext fun found => ?_)
    cases found with
    | none => rfl
    | some value => exact ih _

/-- The elements of a list are read in rounds. -/
theorem elementsWithin_eq_iterate (separator : TokenKind) (item : Parser Node) (rounds : Nat)
    (before : List Node) :
    elementsWithin separator item rounds before = iterate (elementRound separator item) rounds
      before := by
  induction rounds generalizing before with
  | zero => rfl
  | succ rounds ih =>
    unfold elementsWithin iterate elementRound
    rw [bind_assoc]
    refine congrArg _ (funext fun node => ?_)
    rw [bind_assoc]
    refine congrArg _ (funext fun found => ?_)
    cases found with
    | none => rfl
    | some token => exact ih _

/-- Operations are read in rounds, each of which hands on the operand read so far. In this form they
are one more loop for which the bound on rounds is proved once. -/
theorem operationsWithin_eq_iterate (operators : List (TokenKind × BinaryOp))
    (operand : Parser Node) (start : Location) (rounds : Nat) (left : Node) :
    operationsWithin operators operand start rounds left =
      iterate (operationRound operators operand start) rounds left := by
  induction rounds generalizing left with
  | zero => rfl
  | succ rounds ih =>
    unfold operationsWithin iterate operationRound
    rw [bind_assoc]
    -- Both sides are the same program up to the grouping of its steps, which is undone one step at
    -- a time.
    refine congrArg _ (funext fun op => ?_)
    cases op with
    | none => rfl
    | some op =>
      dsimp only
      rw [bind_assoc]
      refine congrArg _ (funext fun _ => ?_)
      rw [bind_assoc]
      refine congrArg _ (funext fun right => ?_)
      rw [bind_assoc]
      exact congrArg _ (funext fun span => ih _)

/-- Alternatives are read in rounds, each of which hands on those read so far. -/
theorem alternativesWithin_eq_iterate (rule : String → Parser Node) (rounds : Nat)
    (before : List (List Node)) :
    alternativesWithin rule rounds before = iterate (alternativeRound rule) rounds before := by
  induction rounds generalizing before with
  | zero => rfl
  | succ rounds ih =>
    unfold alternativesWithin iterate alternativeRound
    rw [bind_assoc]
    refine congrArg _ (funext fun sequence => ?_)
    rw [bind_assoc]
    refine congrArg _ (funext fun found => ?_)
    cases found with
    | none => rfl
    | some token => exact ih _

/-! ## What rounds take -/

/-- A round advances if nothing else is known of it. -/
theorem Advances.of_ends {round : σ → Parser (σ ⊕ α)}
    (h : ∀ a s, Reliable s → (round a).Ends (fun _ => True) s fun next t =>
      next.isLeft = true → t.text.length < s.text.length) :
    Advances round :=
  fun a s _ _ hs hround => ((h a s hs).of_eq_ok hround).2.2 rfl

section Allowed

variable {allowed : SyntaxError → Prop} (hallowed : ∀ e, e.isEndless = false → allowed e)
  {s : TokenStream}

/-- A round of gathering values takes what giving a value takes. -/
theorem ends_collectRound {step : Parser (Option α)} (values : List α)
    (hstep : step.Ends allowed s fun found t => found.isSome = true →
      t.text.length < s.text.length) :
    (collectRound step values).Ends allowed s fun next t => next.isLeft = true →
      t.text.length < s.text.length := by
  refine hstep.bind fun found t ht _ hfound => ?_
  cases found with
  | none => exact Ends.pure ht nofun
  | some value => exact Ends.pure ht fun _ => hfound rfl

/-- Gathering values comes to an end if giving one does, and takes some text. -/
theorem ends_collect {step : Parser (Option α)} (hs : Reliable s)
    (hstep : ∀ t, Reliable t → t.text.length ≤ s.text.length →
      step.Ends allowed t fun found r => found.isSome = true → r.text.length < t.text.length) :
    (collect step).Ends allowed s fun _ _ => True := by
  refine (Ends.limit hs).bind fun rounds t _ _ hlimit => ?_
  obtain ⟨rfl, hrounds⟩ := hlimit
  rw [collectWithin_eq_iterate]
  exact Ends.iterate hs (fun values t ht hle => ends_collectRound values (hstep t ht hle))
    hrounds []

/-- A symbol of an alternative takes some text, so the loop over the symbols ends before its rounds
do. -/
theorem ends_alternativeItem {rule : String → Parser Node} (hs : Reliable s)
    (hrule : ∀ name, name ≠ "module" → ∀ t, Reliable t → t.text.length ≤ s.text.length →
      (rule name).Ends allowed t (Left t.text.length)) :
    (alternativeItem rule).Ends allowed s fun found t => found.isSome = true →
      t.text.length < s.text.length := by
  have hitem : ∀ name, name ≠ "module" → ∀ t, Stays s t →
      (some <$> rule name).Ends allowed t fun found r => found.isSome = true →
        r.text.length < s.text.length :=
    fun name hname t hstays =>
      (hrule name hname t hstays.reliable (Nat.le_of_eq (congrArg _ hstays.text_eq))).map
      fun node r _ _ hlt _ => hstays.text_eq ▸ hlt
  obtain ⟨t, hstays, hread | hread | hread⟩ := exists_alternativeItem_eq rule hs
  · exact Ends.of_eq hread hstays.later (hitem _ (by decide) t hstays)
  · exact Ends.of_eq hread hstays.later (hitem _ (by decide) t hstays)
  · exact Ends.of_eq hread hstays.later (Ends.pure hstays.reliable nofun)

include hallowed

/-- A separator takes some text, so a round that goes on has less left than it began with. -/
theorem ends_separatorRound (hs : Reliable s) :
    (separatorRound ()).Ends allowed s fun next t => next.isLeft = true →
      t.text.length < s.text.length := by
  -- Asking for a line end and then for a semicolon moves nothing, so both ask the same token.
  have hseparator : (do
      if ← check .newline then return true else check .semicolon : Parser Bool).Ends allowed s
        fun found t => (found = true → s.nextToken.kind ≠ .endOfInput) ∧ Stays s t := by
    refine (Ends.check hs .newline).bind fun found t ht _ hfound => ?_
    obtain ⟨hkind, hstays⟩ := hfound
    split_ifs with h
    · exact Ends.pure ht ⟨fun _ => hkind h ▸ by decide, hstays⟩
    · refine (Ends.check ht .semicolon).imp fun found' r _ _ hfound' =>
        ⟨fun hfound => ?_, hstays.trans hfound'.2⟩
      rw [← show t.nextToken = s.nextToken from congrArg (fun u => u.skip.token)
        hstays.unbuffered_eq, hfound'.1 hfound]
      decide
  refine hseparator.bind fun found t ht _ hfound => ?_
  obtain ⟨hkind, hstays⟩ := hfound
  split_ifs with h
  · refine (Ends.next hallowed ht).bind fun token r hr _ htook => Ends.pure hr fun _ => ?_
    have htook := htook.of_stays hstays
    exact htook.length_lt (htook.token_eq ▸ hkind h)
  · exact Ends.pure ht nofun

/-- Skipping separators comes to an end. -/
theorem ends_skipSeparatorsWithin (hs : Reliable s) {rounds : Nat}
    (hrounds : s.text.length < rounds) :
    (skipSeparatorsWithin rounds).Ends allowed s fun _ _ => True := by
  rw [skipSeparatorsWithin_eq_iterate]
  exact Ends.iterate hs (fun _ t ht _ => ends_separatorRound hallowed ht) hrounds ()

/-- A statement takes some text, so reading them one after another comes to an end. -/
theorem ends_statement (hs : Reliable s) (closing : TokenKind) {item : Parser Node}
    (hitem : ∀ t, Reliable t → t.text.length ≤ s.text.length →
      item.Ends allowed t (Left t.text.length)) :
    (statement closing item).Ends allowed s fun found t => found.isSome = true →
      t.text.length < s.text.length := by
  refine (Ends.limit hs).bind fun rounds _ _ _ hlimit => ?_
  obtain ⟨rfl, hrounds⟩ := hlimit
  refine (ends_skipSeparatorsWithin hallowed hs hrounds).bind fun _ t ht hlater _ => ?_
  have hle := hs.length_text_le ht hlater
  refine (Ends.check ht closing).bind fun found r hr _ hfound => ?_
  obtain ⟨-, hstays⟩ := hfound
  split_ifs
  · exact (Ends.next hallowed hr).bind fun _ q hq _ _ => Ends.pure hq nofun
  · rw [← hstays.text_eq] at hle
    exact (hitem r hr hle).bind fun node q hq _ hlt => Ends.pure hq fun _ =>
      Nat.lt_of_lt_of_le hlt hle

/-- An element of a list takes some text. -/
theorem ends_elementRound (separator : TokenKind) {item : Parser Node}
    (hitem : item.Ends allowed s (Left s.text.length)) (before : List Node) :
    (elementRound separator item before).Ends allowed s fun next t =>
      next.isLeft = true → t.text.length < s.text.length := by
  refine hitem.bind fun node t ht _ hlt => ?_
  refine Ends.bind_left ht hlt (Ends.accept hallowed ht separator) fun found r hr hlt' => ?_
  split_ifs
  · exact Ends.pure hr fun _ => hlt'
  · exact Ends.pure hr fun _ => hlt'

/-- An operator with its operand takes some text, so the loop over operations ends before its rounds
do. -/
theorem ends_operationRound (hs : Reliable s) (operators : List (TokenKind × BinaryOp))
    {operand : Parser Node}
    (hoperand : ∀ t, Reliable t → t.text.length ≤ s.text.length →
      operand.Ends allowed t (Left t.text.length)) (start : Location) (left : Node) :
    (operationRound operators operand start left).Ends allowed s fun next t =>
      next.isLeft = true → t.text.length < s.text.length := by
  refine (Ends.operator? hs operators).bind fun op t ht hlater hop => ?_
  cases op with
  | none => exact Ends.pure ht nofun
  | some op =>
    refine (Ends.next hallowed ht).bind fun _ r hr hlater' _ => ?_
    have hle := hs.length_text_le hr (hlater.trans hlater')
    refine (hoperand r hr hle).bind fun right q hq _ hlt => ?_
    refine (Ends.spanFrom hq start).bind fun span _ _ _ hspan => ?_
    subst hspan
    exact Ends.pure hq fun _ => Nat.lt_of_lt_of_le hlt hle

/-- An alternative, with the bar behind it, takes some text, so the loop over alternatives ends
before its rounds do. -/
theorem ends_alternativeRound {rule : String → Parser Node} (hs : Reliable s)
    (hrule : ∀ name, name ≠ "module" → ∀ t, Reliable t → t.text.length ≤ s.text.length →
      (rule name).Ends allowed t (Left t.text.length)) (before : List (List Node)) :
    (alternativeRound rule before).Ends allowed s fun next t =>
      next.isLeft = true → t.text.length < s.text.length := by
  have hcollect := ends_collect hs fun t ht hle =>
    ends_alternativeItem ht fun name hname r hr hle' =>
      hrule name hname r hr (Nat.le_trans hle' hle)
  refine hcollect.bind fun sequence t ht hlater _ => ?_
  have hle := hs.length_text_le ht hlater
  refine (Ends.accept hallowed ht _).bind fun found r hr _ hfound => ?_
  split_ifs with h
  · exact Ends.pure hr fun _ => Nat.lt_of_lt_of_le (hfound h (by decide)) hle
  · exact Ends.pure hr nofun

end Allowed

end Parser

end MachineLang
