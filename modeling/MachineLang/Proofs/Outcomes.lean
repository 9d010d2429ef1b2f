import MachineLang.Parser.Run
import MachineLang.Proofs.Reading
import MachineLang.Proofs.Runs

/-!
# What parsers leave

A parser `Ends` with a condition on a stream if it leaves a reliable stream that is later, and if
what it gives is as the condition says, or is an error that is allowed; it `Meets` the condition if
any error that it gives has a range of the text. The condition is about one stream at a time, so
that what is known of a stream is at hand when the next parser runs on a later one (`Ends.bind`).
Unlike for a parser that reads a given text, nothing is said about whether it succeeds: the rules
hold on every text, under every ordinary setting, and behind every attempt that was taken back
(`Ends.oneOf`).
-/

namespace MachineLang

namespace Parser

variable {α β : Type}

/-! ## How parsers end -/

/-- The parser leaves a reliable, later stream, and what it gives is as stated, or is an error that
is allowed. -/
def Ends (p : Parser α) (allowed : SyntaxError → Prop) (s : TokenStream)
    (Q : α → TokenStream → Prop) : Prop :=
  Reliable (p s).2 ∧ Later s (p s).2 ∧
    match (p s).1 with
    | .ok value => Q value (p s).2
    | .error e => allowed e

namespace Ends

variable {p : Parser α} {f : α → Parser β} {allowed : SyntaxError → Prop} {s : TokenStream}
  {Q Q' : α → TokenStream → Prop} {R : β → TokenStream → Prop}

/-- A parser whose result is known. -/
theorem of_ok {a : α} {t : TokenStream} (hp : p s = (.ok a, t)) (ht : Reliable t)
    (hlater : Later s t) (h : Q a t) :
    p.Ends allowed s Q := by
  unfold Ends
  rw [hp]
  exact ⟨ht, hlater, h⟩

/-- A parser whose error is known. -/
theorem of_error {e : SyntaxError} {t : TokenStream} (hp : p s = (.error e, t)) (ht : Reliable t)
    (hlater : Later s t) (h : allowed e) : p.Ends allowed s Q := by
  unfold Ends
  rw [hp]
  exact ⟨ht, hlater, h⟩

/-- A parser that does what another one does on a later stream. -/
theorem of_eq {q : Parser α} {t : TokenStream} (h : p s = q t) (hlater : Later s t)
    (hq : q.Ends allowed t Q) :
    p.Ends allowed s Q := by
  obtain ⟨ht, hlater', hresult⟩ := hq
  unfold Ends
  rw [h]
  exact ⟨ht, hlater.trans hlater', hresult⟩

/-- What is known of a parser that succeeds. -/
theorem of_eq_ok {value : α} {t : TokenStream} (h : p.Ends allowed s Q)
    (hp : p s = (.ok value, t)) :
    Reliable t ∧ Later s t ∧ Q value t := by
  unfold Ends at h
  rw [hp] at h
  exact h

/-- What is known of a parser that fails. -/
theorem of_eq_error {e : SyntaxError} {t : TokenStream} (h : p.Ends allowed s Q)
    (hp : p s = (.error e, t)) :
    allowed e := by
  unfold Ends at h
  rw [hp] at h
  exact h.2.2

/-- Giving a value leaves the stream as it is. -/
theorem pure (hs : Reliable s) {value : α} (h : Q value s) :
    (pure value : Parser α).Ends allowed s Q :=
  of_ok rfl hs (.refl s) h

/-- Giving an error leaves the stream as it is. -/
theorem throw (hs : Reliable s) {e : SyntaxError} (h : allowed e) :
    (throw e : Parser α).Ends allowed s Q :=
  of_error rfl hs (.refl s) h

/-- What is known of the result may be said in other words. -/
theorem imp (h : p.Ends allowed s Q)
    (himp : ∀ value t, Reliable t → Later s t → Q value t → Q' value t) :
    p.Ends allowed s Q' := by
  obtain ⟨ht, hlater, hresult⟩ := h
  refine ⟨ht, hlater, ?_⟩
  cases hvalue : (p s).1 with
  | ok value =>
    rw [hvalue] at hresult
    exact himp value _ ht hlater hresult
  | error e =>
    rw [hvalue] at hresult
    exact hresult

/-- What is known of a parser in two ways. -/
theorem and_of (h : p.Ends allowed s Q) (h' : ∀ value t, p s = (.ok value, t) → Q' value t) :
    p.Ends allowed s fun value t => Q value t ∧ Q' value t := by
  obtain ⟨ht, hlater, hresult⟩ := h
  refine ⟨ht, hlater, ?_⟩
  rcases hp : p s with ⟨e | value, t⟩
  · rw [hp] at hresult
    exact hresult
  · rw [hp] at hresult
    exact ⟨hresult, h' value t hp⟩

/-- A parser and one that goes on with what it gives. -/
theorem bind (h : p.Ends allowed s Q)
    (hf : ∀ value t, Reliable t → Later s t → Q value t → (f value).Ends allowed t R) :
    (p >>= f).Ends allowed s R := by
  obtain ⟨ht, hlater, hresult⟩ := h
  have happly := Parser.bind_apply p f s
  generalize p s = result at *
  obtain ⟨_ | value, t⟩ := result
  · exact of_error happly ht hlater hresult
  · exact of_eq happly hlater (hf value t ht hlater hresult)

/-- A function of what a parser gives. -/
theorem map {g : α → β} (h : p.Ends allowed s Q)
    (hg : ∀ value t, Reliable t → Later s t → Q value t → R (g value) t) :
    (g <$> p).Ends allowed s R :=
  h.bind fun value t ht hlater hvalue => Ends.pure ht (hg value t ht hlater hvalue)

/-- On an error the handler goes on. -/
theorem tryCatch {handler : SyntaxError → Parser α} (h : p.Ends allowed s Q)
    (hhandler : ∀ e t, Reliable t → Later s t → allowed e → (handler e).Ends allowed t Q) :
    (tryCatch p handler).Ends allowed s Q := by
  obtain ⟨ht, hlater, hresult⟩ := h
  have happly := Parser.tryCatch_apply p handler s
  generalize p s = result at *
  obtain ⟨e | value, t⟩ := result
  · exact of_eq happly hlater (hhandler e t ht hlater hresult)
  · exact of_ok happly ht hlater hresult

/-- A parser under changed settings ends as it does under these, and the old ones are back in
force. -/
theorem withSettings {update : Settings → Settings} (hs : Reliable s)
    (hordinary : (update s.settings).Ordinary) (h : p.Ends allowed (s.apply (update s.settings)) Q)
    (hQ : ∀ value t, Reliable t → Later (s.apply (update s.settings)) t → Q value t →
      Q' value (t.apply s.settings)) :
    (Parser.withSettings update p).Ends allowed s Q' := by
  obtain ⟨ht, hlater, hresult⟩ := h
  have happly : Parser.withSettings update p s = ((p (s.apply (update s.settings))).1,
      (p (s.apply (update s.settings))).2.apply s.settings) := rfl
  generalize p (s.apply (update s.settings)) = result at *
  obtain ⟨e | value, t⟩ := result
  · exact of_error happly (ht.apply hs.ordinary).1 (hs.later_apply hordinary ht hlater) hresult
  · exact of_ok happly (ht.apply hs.ordinary).1 (hs.later_apply hordinary ht hlater)
      (hQ value t ht hlater hresult)

/-- An attempt that fails leaves the stream where it stood and tells the error, which is one of
those that are allowed. An attempt that succeeds goes on from where its parser ended. -/
theorem attempt (hs : Reliable s) (h : p.Ends allowed s Q) :
    (Parser.attempt p).Ends allowed s fun result t =>
      match result with
      | .done value => Q value t
      | .rolledBack e => Stays s t ∧ allowed e := by
  obtain ⟨ht, hlater, hresult⟩ := h
  have happly := Parser.attempt_apply p s
  generalize p s = result at *
  obtain ⟨e | value, t⟩ := result
  · dsimp only at happly
    -- Only the failure of a loop that runs out of steps is passed on; any other one takes the
    -- stream back.
    by_cases hendless : e.isEndless = true
    · rw [if_pos hendless] at happly
      exact of_error happly ht hlater hresult
    · rw [if_neg hendless] at happly
      have hback := hs.restore ht hlater
      exact of_ok happly hback.reliable hback.later ⟨hback, hresult⟩
  · exact of_ok happly ht hlater hresult

/-- The first of some parsers that succeeds. -/
theorem oneOf {failure : SyntaxError} {ps : List (Parser α)} (hs : Reliable s)
    (hfailure : allowed failure) (h : ∀ p ∈ ps, ∀ t, Stays s t → p.Ends allowed t Q) :
    (Parser.oneOf failure ps).Ends allowed s Q := by
  induction ps generalizing s failure with
  | nil => exact Ends.throw hs hfailure
  | cons p ps ih =>
    obtain ⟨hp, hps⟩ := List.forall_mem_cons.1 h
    refine (Ends.attempt hs (hp s (.refl hs))).bind fun result t ht _ hresult => ?_
    cases result with
    | done value => exact Ends.pure ht hresult
    | rolledBack e =>
      obtain ⟨hstays, he⟩ := hresult
      exact ih ht he fun p hp t' hstays' => hps p hp t' (hstays.trans hstays')

end Ends

/-- The parser leaves a reliable, later stream, and what it gives is as stated, or is an error with
a range of the text. -/
def Meets (p : Parser α) (s : TokenStream) (Q : α → TokenStream → Prop) : Prop :=
  Reliable (p s).2 ∧ Later s (p s).2 ∧
    match (p s).1 with
    | .ok value => Q value (p s).2
    | .error e => IsRange s.source.toList e.span

namespace Meets

variable {p : Parser α} {f : α → Parser β} {s t : TokenStream} {Q Q' : α → TokenStream → Prop}
  {R : β → TokenStream → Prop}

/-! ## Sequences, settings and attempts -/

/-- To meet a condition is to end with it, where errors have a range of the text. -/
theorem iff_ends : p.Meets s Q ↔ p.Ends (fun e => IsRange s.source.toList e.span) s Q := Iff.rfl

/-- A parser whose errors are allowed ends with what it meets. -/
theorem ends_of {allowed : SyntaxError → Prop} (h : p.Meets s Q)
    (hallowed : ∀ e t, p s = (.error e, t) → allowed e) :
    p.Ends allowed s Q := by
  obtain ⟨ht, hlater, hresult⟩ := h
  refine ⟨ht, hlater, ?_⟩
  rcases hp : p s with ⟨e | value, t⟩
  · exact hallowed e t hp
  · rw [hp] at hresult
    exact hresult

/-- What a parser meets on a later stream is said with ranges of the same text. -/
theorem ends (h : p.Meets t Q) (hlater : Later s t) :
    p.Ends (fun e => IsRange s.source.toList e.span) t Q := by
  rw [← hlater.source_eq]
  exact h

/-- A parser whose result is known. -/
theorem of_ok {a : α} (hp : p s = (.ok a, t)) (ht : Reliable t) (hlater : Later s t) (h : Q a t) :
    p.Meets s Q :=
  iff_ends.2 (Ends.of_ok hp ht hlater h)

/-- A parser whose error is known. -/
theorem of_error {e : SyntaxError} (hp : p s = (.error e, t)) (ht : Reliable t) (hlater : Later s t)
    (h : IsRange s.source.toList e.span) : p.Meets s Q :=
  iff_ends.2 (Ends.of_error hp ht hlater h)

/-- A parser that does what another one does on a later stream. -/
theorem of_eq {q : Parser α} (h : p s = q t) (hlater : Later s t) (hq : q.Meets t Q) :
    p.Meets s Q :=
  iff_ends.2 (Ends.of_eq h hlater (hq.ends hlater))

/-- What is known of a parser that succeeds. -/
theorem of_eq_ok {value : α} (h : p.Meets s Q) (hp : p s = (.ok value, t)) :
    Reliable t ∧ Later s t ∧ Q value t :=
  Ends.of_eq_ok h hp

/-- What is known of a parser that fails. -/
theorem of_eq_error {e : SyntaxError} (h : p.Meets s Q) (hp : p s = (.error e, t)) :
    IsRange s.source.toList e.span :=
  Ends.of_eq_error h hp

/-- Giving a value leaves the stream as it is. -/
theorem pure (hs : Reliable s) {value : α} (h : Q value s) : (pure value : Parser α).Meets s Q :=
  iff_ends.2 (Ends.pure hs h)

/-- Giving an error leaves the stream as it is. -/
theorem throw (hs : Reliable s) {e : SyntaxError} (h : IsRange s.source.toList e.span) :
    (throw e : Parser α).Meets s Q :=
  iff_ends.2 (Ends.throw hs h)

/-- What is known of the result may be said in other words. -/
theorem imp (h : p.Meets s Q) (himp : ∀ value t, Reliable t → Later s t → Q value t → Q' value t) :
    p.Meets s Q' :=
  iff_ends.2 (Ends.imp h himp)

/-- A parser and one that goes on with what it gives. -/
theorem bind (h : p.Meets s Q)
    (hf : ∀ value t, Reliable t → Later s t → Q value t → (f value).Meets t R) :
    (p >>= f).Meets s R :=
  iff_ends.2 <| Ends.bind h fun value t ht hlater hvalue =>
    (hf value t ht hlater hvalue).ends hlater

/-- A function of what a parser gives. -/
theorem map {g : α → β} (h : p.Meets s Q)
    (hg : ∀ value t, Reliable t → Later s t → Q value t → R (g value) t) :
    (g <$> p).Meets s R :=
  iff_ends.2 (Ends.map h hg)

/-- On an error the handler goes on. -/
theorem tryCatch {handler : SyntaxError → Parser α} (h : p.Meets s Q)
    (hhandler : ∀ e t, Reliable t → Later s t → IsRange t.source.toList e.span →
      (handler e).Meets t Q) :
    (tryCatch p handler).Meets s Q :=
  Ends.tryCatch h fun e t ht hlater he =>
    (hhandler e t ht hlater (hlater.source_eq.symm ▸ he)).ends hlater

/-- A parser under changed settings meets what it does under these, and the old ones are back in
force. -/
theorem withSettings {update : Settings → Settings} (hs : Reliable s)
    (hordinary : (update s.settings).Ordinary) (h : p.Meets (s.apply (update s.settings)) Q)
    (hQ : ∀ value t, Reliable t → Later (s.apply (update s.settings)) t → Q value t →
      Q' value (t.apply s.settings)) :
    (Parser.withSettings update p).Meets s Q' := by
  unfold Meets at h
  rw [TokenStream.source_apply] at h
  exact Ends.withSettings hs hordinary h hQ

/-- The first of some parsers that succeeds. -/
theorem oneOf {failure : SyntaxError} {ps : List (Parser α)} (hs : Reliable s)
    (hfailure : IsRange s.source.toList failure.span) (h : ∀ p ∈ ps, ∀ t, Stays s t → p.Meets t Q) :
    (Parser.oneOf failure ps).Meets s Q :=
  iff_ends.2 <| Ends.oneOf hs hfailure fun p hp t hstays => (h p hp t hstays).ends hstays.later

/-! ## Asking about the next token -/

/-- The next token is given, and the stream stays where it stood. -/
theorem peek (hs : Reliable s) :
    Parser.peek.Meets s fun token t => token = s.nextToken ∧ Stays s t := by
  obtain ⟨t, hstays, hpeek | ⟨hend, hpeek⟩⟩ := hs.peekExpecting []
  · exact of_ok hpeek hstays.reliable hstays.later ⟨rfl, hstays⟩
  · exact of_error hpeek hstays.reliable hstays.later (IsRange.point hs.nextPlace.1)

/-- The place where the next token begins is given, and the stream stays where it stood, although it
may have to read ahead for that. -/
theorem location (hs : Reliable s) :
    Parser.location.Meets s fun l t => l = s.nextPlace ∧ Stays s t := by
  obtain ⟨t, hstays, hpeek | ⟨hend, hpeek⟩⟩ := hs.peekExpecting []
  · have hlocation : s.location = (s.nextToken.location, t) := by
      unfold TokenStream.location
      rw [show s.peek = _ from hpeek]
    refine of_ok (a := s.nextToken.location) (t := t) ?_ hstays.reliable hstays.later
      ⟨hs.nextToken.2, hstays⟩
    unfold Parser.location
    rw [hlocation]
  · -- At the end of the source there is no token to ask, and the stream answers with the end
    -- itself.
    have hlocation : s.location = (s.nextPlace, t) := by
      unfold TokenStream.location
      rw [show s.peek = _ from hpeek]
      rfl
    refine of_ok (a := s.nextPlace) (t := t) ?_ hstays.reliable hstays.later ⟨rfl, hstays⟩
    unfold Parser.location
    rw [hlocation]

/-- Whether the next token has a kind is asked without reading it. If the answer is no, it has
another one, or the source ends there. -/
theorem check (hs : Reliable s) (kind : TokenKind) :
    (Parser.check kind).Meets s fun b t => (b = true → s.nextToken.kind = kind) ∧
      (b = false → s.nextToken.kind ≠ kind ∨ s.nextToken.kind = .endOfInput) ∧ Stays s t := by
  obtain ⟨t, hstays, hpeek | ⟨hend, hpeek⟩⟩ := hs.peekExpecting []
  · refine of_ok (a := s.nextToken.kind == kind) (t := t) ?_ hstays.reliable hstays.later
      ⟨beq_iff_eq.1, fun h => .inl (beq_eq_false_iff_ne.1 h), hstays⟩
    unfold Parser.check TokenStream.check
    rw [show s.peek = _ from hpeek]
  · refine of_ok (a := false) (t := t) ?_ hstays.reliable hstays.later
      ⟨fun h => absurd h (by decide), fun _ => .inr hend, hstays⟩
    unfold Parser.check TokenStream.check
    rw [show s.peek = _ from hpeek]

/-- Whether the next token is a word. -/
theorem checkWord (hs : Reliable s) (word : String) : (Parser.checkWord word).Meets s fun b t =>
    (b = true → s.nextToken.kind = .identifier ∧ s.nextToken.value = word) ∧ Stays s t := by
  obtain ⟨t, hstays, hpeek | ⟨hend, hpeek⟩⟩ := hs.peekExpecting []
  · refine of_ok (a := s.nextToken.kind == .identifier && s.nextToken.value == word) (t := t) ?_
      hstays.reliable hstays.later ⟨fun h => ?_, hstays⟩
    · unfold Parser.checkWord TokenStream.checkWord
      rw [show s.peek = _ from hpeek]
    · rw [Bool.and_eq_true, beq_iff_eq, beq_iff_eq] at h
      exact h
  · refine of_ok (a := false) (t := t) ?_ hstays.reliable hstays.later
      ⟨fun h => absurd h (by decide), hstays⟩
    unfold Parser.checkWord TokenStream.checkWord
    rw [show s.peek = _ from hpeek]

/-- Which operator the next token is, if it is one of a list, is asked without reading it. The
operators are told apart by the kinds of their tokens. -/
theorem operator? (hs : Reliable s) (operators : List (TokenKind × α)) :
    (Parser.operator? operators).Meets s fun op t =>
      (op.isSome = true → operators.lookup s.nextToken.kind = op) ∧ Stays s t := by
  obtain ⟨t, hstays, hpeek | ⟨hend, hpeek⟩⟩ := hs.peekExpecting []
  · refine of_ok (a := operators.lookup s.nextToken.kind) (t := t) ?_ hstays.reliable hstays.later
      ⟨fun _ => rfl, hstays⟩
    unfold Parser.operator?
    rw [show s.peek = _ from hpeek]
  · refine of_ok (a := none) (t := t) ?_ hstays.reliable hstays.later
      ⟨fun h => absurd h (by simp), hstays⟩
    unfold Parser.operator?
    rw [show s.peek = _ from hpeek]

/-! ## Reading the next token -/

/-- The next token is read, unless the source ends in front of it. -/
theorem next (hs : Reliable s) : Parser.next.Meets s fun token t => Took s token t := by
  obtain ⟨ht, hlater, hresult⟩ := hs.advance []
  refine ⟨ht, hlater, ?_⟩
  have hnext : Parser.next s = s.advance [] := rfl
  rw [hnext]
  cases hvalue : (s.advance []).1 with
  | ok token =>
    rw [hvalue] at hresult
    exact hresult
  | error e =>
    rw [hvalue] at hresult
    obtain ⟨rfl, -⟩ := hresult
    exact IsRange.point hs.nextPlace.1

/-- The next token is read if it is of one of some kinds. Otherwise reading fails with an error that
points into the text, as every outcome here has to. -/
theorem expect (hs : Reliable s) (kinds : List TokenKind) :
    (Parser.expect kinds).Meets s fun token t => Took s token t ∧ token.kind ∈ kinds := by
  obtain ⟨t, hstays, hpeek | ⟨hend, hpeek⟩⟩ := hs.peekExpecting kinds
  · have hplace := hs.nextToken.2
    have hrange := hs.nextToken.1.isRange
    have hexpect : Parser.expect kinds s =
        if kinds.contains s.nextToken.kind then t.advance kinds
        else if s.nextToken.kind = .endOfInput
          then (.error (.unexpectedEnd s.nextToken.location kinds), t)
        else (.error (.unexpectedToken s.nextToken kinds), t) := by
      unfold Parser.expect TokenStream.expect
      rw [hpeek]
    split_ifs at hexpect with hkind hend
    · -- The next token is one of them, and reading gives it.
      obtain ⟨ht, hlater, hresult⟩ := hstays.reliable.advance kinds
      unfold Meets
      rw [hexpect]
      refine ⟨ht, hstays.later.trans hlater, ?_⟩
      cases hvalue : (t.advance kinds).1 with
      | ok token =>
        rw [hvalue] at hresult
        have htook := hresult.of_stays hstays
        exact ⟨htook, htook.token_eq ▸ List.contains_iff_mem.1 hkind⟩
      | error e =>
        rw [hvalue] at hresult
        obtain ⟨rfl, -⟩ := hresult
        rw [hstays.nextPlace_eq]
        exact IsRange.point hs.nextPlace.1
    · refine of_error hexpect hstays.reliable hstays.later ?_
      rw [hplace]
      exact IsRange.point hs.nextPlace.1
    · exact of_error hexpect hstays.reliable hstays.later hrange
  · refine of_error (e := .unexpectedEnd s.nextPlace kinds) (t := t) ?_ hstays.reliable hstays.later
      (IsRange.point hs.nextPlace.1)
    unfold Parser.expect TokenStream.expect
    rw [hpeek]

/-- The next token is read if it is of a kind. Otherwise nothing is, and the stream stays where it
stood, so other parsers can be tried on the same token. -/
theorem accept (hs : Reliable s) (kind : TokenKind) :
    (Parser.accept kind).Meets s fun found t =>
      match found with
      | none => Stays s t
      | some token => Took s token t ∧ token.kind = kind := by
  have hnone : ∀ t, s.check kind = (false, t) → Parser.accept kind s = (.ok none, t) := by
    intro t hcheck
    unfold Parser.accept TokenStream.accept
    rw [hcheck]
  obtain ⟨t, hstays, hpeek | ⟨hend, hpeek⟩⟩ := hs.peekExpecting []
  · have hcheck : s.check kind = (s.nextToken.kind == kind, t) := by
      unfold TokenStream.check
      rw [show s.peek = _ from hpeek]
    by_cases hkind : s.nextToken.kind = kind
    · rw [beq_iff_eq.2 hkind] at hcheck
      -- Having looked ahead, accepting the token is reading the next one.
      have haccept : Parser.accept kind s = (some <$> Parser.next : Parser (Option Token)) t := by
        show s.accept kind = (Parser.next >>= fun token => Pure.pure (some token)) t
        rw [Parser.bind_apply, show Parser.next t = t.next from rfl]
        unfold TokenStream.accept
        rw [hcheck]
        dsimp only
        rcases t.next with ⟨_ | token, t'⟩
        · rfl
        · rfl
      refine of_eq haccept hstays.later ((next hstays.reliable).map fun token r _ _ htook => ?_)
      have htook := htook.of_stays hstays
      exact ⟨htook, htook.token_eq ▸ hkind⟩
    · rw [beq_eq_false_iff_ne.2 hkind] at hcheck
      exact of_ok (hnone t hcheck) hstays.reliable hstays.later hstays
  · refine of_ok (hnone t ?_) hstays.reliable hstays.later hstays
    unfold TokenStream.check
    rw [show s.peek = _ from hpeek]

/-- Where the last token read ends. -/
theorem lastEnd (hs : Reliable s) : Parser.lastEnd.Meets s fun l t => l = s.lastEnd ∧ s = t :=
  of_ok rfl hs (.refl s) ⟨rfl, rfl⟩

/-- How many steps there are is asked without reading anything. -/
theorem limit (hs : Reliable s) : Parser.limit.Meets s fun _ t => s = t :=
  of_ok rfl hs (.refl s) rfl

/-- The range from a place to the end of the last token read. -/
theorem spanFrom (hs : Reliable s) (start : Location) :
    (Parser.spanFrom start).Meets s fun span t => span = ⟨start, s.lastEnd⟩ ∧ s = t :=
  (lastEnd hs).bind fun _ _ ht _ hl => Meets.pure ht ⟨hl.1 ▸ rfl, hl.2⟩

/-- Rules without end are reported where the next token begins. -/
theorem endless (hs : Reliable s) : (Parser.endless : Parser α).Meets s Q := by
  refine (location hs).bind fun l t ht hlater hl => ?_
  obtain ⟨rfl, hstays⟩ := hl
  refine Meets.throw ht ?_
  rw [hlater.source_eq]
  exact IsRange.point hs.nextPlace.1

/-- Repeating a parser keeps what one round keeps, and gives what the last round gives. There are as
many rounds as there can be tokens, so they are enough. -/
theorem collectWithin {step : Parser (Option α)} {Q : List α → TokenStream → Prop}
    {I : List α → TokenStream → Prop} (hs : Reliable s) {steps : Nat} {values : List α}
    (hI : I values s)
    (hstep : ∀ values t, Reliable t → Later s t → I values t → step.Meets t fun found r =>
      match found with
      | none => Q values.reverse r
      | some value => I (value :: values) r) :
    (Parser.collectWithin step steps values).Meets s Q := by
  induction steps generalizing s values with
  | zero => exact endless hs
  | succ steps ih =>
    refine (hstep values s hs (.refl s) hI).bind fun found t ht hlater hfound => ?_
    cases found with
    | none => exact Meets.pure ht hfound
    | some value =>
      exact ih ht hfound fun values r hr hlater' hI => hstep values r hr (hlater.trans hlater') hI

/-- Repeating a parser keeps what one round keeps. -/
theorem collect {step : Parser (Option α)} {Q : List α → TokenStream → Prop}
    {I : List α → TokenStream → Prop} (hs : Reliable s) (hI : I [] s)
    (hstep : ∀ values t, Reliable t → Later s t → I values t → step.Meets t fun found r =>
      match found with
      | none => Q values.reverse r
      | some value => I (value :: values) r) :
    (Parser.collect step).Meets s Q := by
  refine (limit hs).bind fun steps t _ _ ht => ?_
  subst ht
  exact collectWithin hs hI hstep

end Meets

/-! ## Symbols of alternatives -/

/-- What comes next decides whether a symbol of an alternative is read, and by which rule. -/
theorem exists_alternativeItem_eq (rule : String → Parser Node) {s : TokenStream}
    (hs : Reliable s) : ∃ t, Stays s t ∧
    (alternativeItem rule s = (some <$> rule "string") t ∨
      alternativeItem rule s = (some <$> rule "non_terminal") t ∨
      alternativeItem rule s = (pure none : Parser (Option Node)) t) := by
  obtain ⟨t, hstays, hpeek | ⟨-, hpeek⟩⟩ := hs.peekExpecting []
  · have hpeek : s.peek = (.ok s.nextToken, t) := hpeek
    refine ⟨t, hstays, ?_⟩
    unfold alternativeItem
    generalize s.peek = result at hpeek
    subst hpeek
    dsimp only
    -- A text or a name is read by its rule, and every other kind ends the alternative.
    cases s.nextToken.kind <;> simp only [true_or, or_true]
  · have hpeek : s.peek = (.error (.unexpectedEnd s.nextPlace []), t) := hpeek
    refine ⟨t, hstays, .inr (.inr ?_)⟩
    unfold alternativeItem
    rw [hpeek]
    rfl

end Parser

end MachineLang
