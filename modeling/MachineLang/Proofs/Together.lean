import MachineLang.Proofs.Following

/-!
# Repetitions and choices side by side

Each way of repeating parsers, of putting something in brackets, and of choosing by the next token
is followed by the same way of treating parsers that follow the ones it is made of. A repetition may
be allowed more rounds in the other source. Where one of several parsers is chosen because others
fail, these have to fail in the other source as well, which is a matter of what the texts begin with
(`Follows.oneOf_cons`).
-/

namespace MachineLang

variable {α β : Type} {J : Splice} {settings : Settings} {P P' : List Char → Prop} {t : List Char}
  {kinds : List TokenKind} {ignored : List TokenKind}

/-! ## What the next token says of the text -/

namespace Starts

/-- In front of a word both sources look alike. -/
theorem alike (h : Starts J ⟨[.base], ignored⟩ kinds t)
    (hsettings : Settings.OfLine ⟨[.base], ignored⟩)
    (hkinds : ∀ kind ∈ kinds, kind.isSolid = true) : Alike J.rest J.rest' t := by
  obtain ⟨kind, hkind, value, t', hnext⟩ := h
  exact Seam.alike_of_word J.seam hsettings hnext (hkinds kind hkind)

/-- In front of a symbol both sources look alike. -/
theorem alike_of_symbol (h : Starts J ⟨[.char, .base], ignored⟩ kinds t)
    (hsettings : Settings.OfLine ⟨[.char, .base], ignored⟩)
    (hkinds : ∀ kind ∈ kinds, kind ≠ .newline ∧ kind ≠ .endOfInput) : Alike J.rest J.rest' t := by
  obtain ⟨kind, hkind, value, t', hnext⟩ := h
  obtain ⟨hnewline, hend⟩ := hkinds kind hkind
  exact Seam.alike J.seam (hnext.widest_of_symbol hsettings hnewline) hend

/-- No colon is next in front of another word. -/
theorem avoidsColon (h : Starts J ⟨[.base], ignored⟩ kinds t) (hskips : SkipsBlanks ignored)
    (hcolon : .colon ∉ kinds) (hend : .endOfInput ∉ kinds) : AvoidsColon J.rest' ignored t := by
  obtain ⟨kind, hkind, value, t', hnext⟩ := h
  intro colon rest hnext'
  have hkind' : kind ≠ .endOfInput := fun heq => hend (heq ▸ hkind)
  obtain ⟨rfl, -⟩ := (J.seam (by decide) hskips hkind' hnext).unique hskips (by decide) hnext'
  exact hcolon hkind

/-- No colon is next in the line in front of another word, on this line or a later one. -/
theorem avoidsColon_line (h : Starts J ⟨[.base], .newline :: ignored⟩ kinds t)
    (hskips : SkipsBlanks ignored) (hcolon : .colon ∉ kinds) (hend : .endOfInput ∉ kinds) :
    AvoidsColon J.rest' ignored t :=
  fun value rest hnext =>
  h.avoidsColon hskips.newline hcolon hend value rest (hnext.ignore_newline (by decide))

end Starts

/-! ## What was recognized -/

section

variable {p : Parser α} {view : α → β} {G : Recognizer β} {s s₁ : TokenStream}

/-- What a parser read is what the text begins with. -/
theorem Recognizes.of_ok {a : α} (h : Recognizes settings p view G) (hs : Reliable s)
    (hsettings : s.settings = settings) (hp : p s = (.ok a, s₁)) : G s.text (view a) s₁.text := by
  by_cases hbegins : G.Begins s.text
  · obtain ⟨b, rest, hG⟩ := hbegins
    obtain ⟨_, _, hp', rfl, hrest⟩ := (h.reads hG).exists_apply hs hsettings rfl
    cases hp'.symm.trans hp
    exact hrest.symm ▸ hG
  · obtain ⟨e, _, hagrees, -⟩ := h.fails hbegins s s.unbuffered hs.shows hsettings rfl
    rw [hp] at hagrees
    exact absurd hagrees.value_eq (by simp)

/-- Where a parser fails, the text begins with nothing that it recognizes. -/
theorem Recognizes.of_error {e : SyntaxError} (h : Recognizes settings p view G) (hs : Reliable s)
    (hsettings : s.settings = settings) (hp : p s = (.error e, s₁)) : ¬ G.Begins s.text := by
  rintro ⟨b, rest, hG⟩
  obtain ⟨_, _, hp', -⟩ := (h.reads hG).exists_apply hs hsettings rfl
  cases hp'.symm.trans hp

end

namespace Follows

/-! ## Other modes -/

/-- The settings with one more mode, if there is one. -/
def inMode (settings : Settings) (mode : Option LexMode) : Settings :=
  mode.elim settings settings.push

/-- Under one more mode, if there is one. -/
theorem withMode? {R : α → β → Prop} {Q : α → List Char → Prop} {p : Parser α} {q : Parser β}
    {mode : Option LexMode} (hordinary : settings.Ordinary)
    (h : Follows J (inMode settings mode) P R Q p q) :
    Follows J settings P R Q (Parser.withMode? mode p) (Parser.withMode? mode q) := by
  cases mode with
  | none => exact h
  | some mode => exact withSettings hordinary (hordinary.push mode) h

/-- Looking at the next token for a choice. -/
theorem choiceToken {Q : Token → List Char → Prop} {mode : Option LexMode} (hinner : settings.Inner)
    (hP : ∀ token t, Starts J (inMode settings mode) [token.kind] t → Q token t → P t)
    (hQ : ∀ token t, Q token t → Stands J (inMode settings mode) t) (kinds : List TokenKind) :
    Follows J settings P (J.Same Token.relocated) Q (Parser.choiceToken mode kinds)
      (Parser.choiceToken mode kinds) := by
  have hmode : (inMode settings mode).Inner := by
    cases mode with
    | none => exact hinner
    | some mode => exact hinner.push mode
  refine tryCatch (withMode? hinner.ordinary (peek hmode hP hQ)) fun e s hs => ?_
  split
  · exact Parser.Gives.throw hs _
  · exact Parser.Gives.throw hs _

/-! ## Repetitions -/

/-- Lists that look the same still do with one more element that does. -/
theorem same_cons {move : (Location → Location) → α → α} {a a' : α} {before before' : List α}
    (h : J.Same move a a') (hbefore : J.Same (fun f => List.map (move f)) before before') :
    J.Same (fun f => List.map (move f)) (a :: before) (a' :: before') := by
  show List.map _ (a :: before) = List.map _ (a' :: before')
  rw [List.map_cons, List.map_cons, show move J.view a = move J.view' a' from h]
  exact congrArg _ hbefore

/-- Lists that look the same still do in the other order. -/
theorem same_reverse {move : (Location → Location) → α → α} {before before' : List α}
    (hbefore : J.Same (fun f => List.map (move f)) before before') :
    J.Same (fun f => List.map (move f)) before.reverse before'.reverse := by
  show List.map _ before.reverse = List.map _ before'.reverse
  rw [List.map_reverse, List.map_reverse]
  exact congrArg List.reverse hbefore

/-- A repeated parser is followed by itself with as many rounds or more. Each round gives the same
on both sides, so the loop ends in the same one. -/
theorem collectWithin {move : (Location → Location) → α → α} {step step' : Parser (Option α)}
    {C Q : List Char → Prop}
    (hstep : Follows J settings C (J.Same fun f => Option.map (move f)) (found Q C) step step')
    {steps steps' : Nat} (hle : steps ≤ steps') {before before' : List α}
    (hbefore : J.Same (fun f => List.map (move f)) before before') :
    Follows J settings C (J.Same fun f => List.map (move f)) (fun _ => Q)
      (Parser.collectWithin step steps before) (Parser.collectWithin step' steps' before') := by
  induction steps generalizing steps' before before' with
  | zero => exact endless
  | succ steps ih =>
    obtain ⟨steps', rfl⟩ := Nat.exists_eq_add_one_of_ne_zero (by omega : steps' ≠ 0)
    refine hstep.bind fun found found' hfound => ?_
    obtain ⟨rfl, rfl⟩ | ⟨value, value', rfl, rfl, hvalue⟩ := hfound.option_cases
    · exact pure (Q := fun _ => Q) (same_reverse hbefore)
    · exact ih (by omega) (same_cons hvalue hbefore)

/-- A repeated parser, with as many rounds as there are tokens. -/
theorem collect {move : (Location → Location) → α → α} {step step' : Parser (Option α)}
    {C Q : List Char → Prop}
    (hstep : Follows J settings C (J.Same fun f => Option.map (move f)) (found Q C) step step') :
    Follows J settings C (J.Same fun f => List.map (move f)) (fun _ => Q) (Parser.collect step)
      (Parser.collect step') :=
  (limit C).bind fun _ _ hle => collectWithin hstep hle rfl

section

variable {item item' : Parser Node} (hinner : settings.Inner)
include hinner

/-- Elements between separators; what is asked for behind an element holds in front of a separator,
and at the end. -/
theorem elementsWithin {Q Q' : List Char → Prop} {separator : TokenKind}
    (hseparator : separator ≠ .endOfInput)
    (hitem : Follows J settings P (J.Same Node.relocated) (fun _ => Q) item item')
    (hmore : ∀ t, Starts J settings [separator] t → Q t)
    (hlast : ∀ t, Q' t → Stands J settings t ∧ Q t) {steps steps' : Nat} (hle : steps ≤ steps')
    {before before' : List Node}
    (hbefore : J.Same (fun f => List.map (Node.relocated f)) before before') :
    Follows J settings P (J.Same fun f => List.map (Node.relocated f)) (fun _ => Q')
      (Parser.elementsWithin separator item steps before)
        (Parser.elementsWithin separator item' steps' before') := by
  induction steps generalizing steps' before before' with
  | zero => exact endless
  | succ steps ih =>
    obtain ⟨steps', rfl⟩ := Nat.exists_eq_add_one_of_ne_zero (by omega : steps' ≠ 0)
    refine hitem.bind fun node node' hnode => ?_
    refine (accept (S := P) hinner hseparator
      (fun t t₁ value hnext _ => hmore t ⟨_, List.mem_cons_self, value, t₁, hnext⟩) hlast).bind
      fun found found' hfound => ?_
    -- The element that was read goes in front of the others on both sides.
    have hcons := same_cons hnode hbefore
    obtain ⟨rfl, rfl⟩ | ⟨token, token', rfl, rfl, -⟩ := hfound.option_cases
    · exact pure (Q := fun _ => Q') (same_reverse hcons)
    · exact ih (by omega) hcons

/-- Elements in brackets are the same in both sources, whatever comes behind the closing bracket.
Line ends are skipped inside, so the brackets may stand on different lines. -/
theorem bracketed {Q : List Char → Prop} {opening closing separator : TokenKind}
    (hopening : opening ≠ .endOfInput) (hclosing : closing ≠ .endOfInput)
    (hseparator : separator ≠ .endOfInput)
    (hitem : Follows J (settings.ignore [.newline]) P (J.Same Node.relocated) (fun _ => Q)
      item item')
    (hP : ∀ t, P t → Stands J (settings.ignore [.newline]) t)
    (hQ : ∀ t, Starts J (settings.ignore [.newline]) [separator, closing] t → Q t)
    {start start' : Location} (hstart : J.view start = J.view' start') :
    Follows J settings (Starts J (settings.ignore [.newline]) [opening]) (J.Same Node.relocated)
      (fun _ _ => True) (Parser.bracketed opening closing separator item start)
      (Parser.bracketed opening closing separator item' start') := by
  have hbrackets := hinner.brackets
  -- What follows the elements is the same, whether there are any or not.
  have hclose : ∀ nodes nodes', J.Same (fun f => List.map (Node.relocated f)) nodes nodes' →
      Follows J (settings.ignore [.newline]) (Starts J (settings.ignore [.newline]) [closing])
        (J.Same Node.relocated) (fun _ _ => True)
        (do let _ ← Parser.expect [closing]; return .list nodes (← Parser.spanFrom start))
        (do let _ ← Parser.expect [closing]; return .list nodes' (← Parser.spanFrom start')) := by
    intro nodes nodes' hnodes
    refine (expect hbrackets (by simpa using hclosing.symm)).bind fun _ _ _ => ?_
    refine (spanFrom (fun _ => True) hstart).bind fun span span' hspan =>
      pure (Q := fun _ _ => True) ?_
    show Node.relocated _ _ = Node.relocated _ _
    rw [Node.relocated, Node.relocated, Node.relocatedList_eq_map, Node.relocatedList_eq_map,
      show List.map _ nodes = _ from hnodes, show span.relocated _ = _ from hspan]
  have hstands : ∀ kind ≠ .endOfInput, ∀ t, Starts J (settings.ignore [.newline]) [kind] t →
      Stands J (settings.ignore [.newline]) t :=
        fun kind hkind t ht => ht.stands (by simpa using hkind.symm)
  refine withSettings hinner.ordinary hbrackets.ordinary ?_
  refine (expect hbrackets (by simpa using hopening.symm)).bind fun _ _ _ => ?_
  refine weaken (P := Stands J (settings.ignore [.newline])) ?_ fun _ _ => trivial
  refine (check (Q := fun _ => Stands J (settings.ignore [.newline])) hbrackets closing fun _ _ h =>
    ⟨h, h⟩).bind fun closed closed' hclosed => ?_
  subst hclosed
  split_ifs
  · have hnil : Follows J (settings.ignore [.newline])
        (Starts J (settings.ignore [.newline]) [closing])
        (J.Same fun f => List.map (Node.relocated f))
        (fun _ => Starts J (settings.ignore [.newline]) [closing]) (Pure.pure []) (Pure.pure []) :=
          pure (Q := fun _ => Starts J (settings.ignore [.newline]) [closing]) rfl
    exact (hnil.bind hclose).weaken (hstands _ hclosing)
  · refine ((limit P).bind fun steps steps' hle => ?_).weaken hP
    have hQ' : ∀ t, Starts J (settings.ignore [.newline]) [closing] t →
        Stands J (settings.ignore [.newline]) t ∧ Q t := fun t ht =>
      ⟨hstands _ hclosing t ht, hQ t (ht.mono (by simp))⟩
    have helements :=
      elementsWithin hbrackets hseparator hitem (fun t ht => hQ t (ht.mono (by simp))) hQ' hle
        (show J.Same (fun f => List.map (Node.relocated f)) [] [] from rfl)
    exact helements.bind hclose

/-- Operations: none follows where no operator is next in the other source, unless it lies inside
the text. -/
theorem operationsWithin {operators : List (TokenKind × BinaryOp)} {Q : List Char → Prop}
    (hitem : Follows J settings P (J.Same Node.relocated) (fun _ => Q) item item')
    (hP : ∀ t, P t → t ≠ []) (hstands : ∀ t, Stands J settings t → Q t)
    (hQ : ∀ t, Q t → Stands J settings t ∨ ∀ kind value rest,
      Next settings kind value rest (t ++ J.rest') → operators.lookup kind = none)
    {start start' : Location} (hstart : J.view start = J.view' start') {steps steps' : Nat}
    (hle : steps ≤ steps') {left left' : Node} (hleft : J.Same Node.relocated left left') :
    Follows J settings Q (J.Same Node.relocated) (fun _ => Q)
      (Parser.operationsWithin operators item start steps left)
      (Parser.operationsWithin operators item' start' steps' left') := by
  induction steps generalizing steps' left left' with
  | zero => exact endless
  | succ steps ih =>
    obtain ⟨steps', rfl⟩ := Nat.exists_eq_add_one_of_ne_zero (by omega : steps' ≠ 0)
    -- Whether an operator comes next is the same in both sources: where the text ends, none follows
    -- in either.
    have hoperator : Follows J settings Q Eq (found Q (Stands J settings))
        (Parser.operator? operators) (Parser.operator? operators) := by
      refine operator? hinner fun {op t} hop => ?_
      cases op with
      | none => exact ⟨hop, hQ t hop⟩
      | some op => exact ⟨hstands t hop, .inl hop⟩
    refine hoperator.bind fun op op' hop => ?_
    subst hop
    cases op with
    | none => exact pure (Q := fun _ => Q) hleft
    | some op =>
      refine (next hinner).bind fun _ _ _ => ?_
      refine (hitem.bind fun right right' hright => ?_).weaken hP
      refine (spanFrom Q hstart).bind fun span span' hspan => ih (by omega) ?_
      show Node.relocated _ _ = Node.relocated _ _
      rw [Node.relocated, Node.relocated, show left.relocated _ = _ from hleft,
        show right.relocated _ = _ from hright, show span.relocated _ = _ from hspan]

end

/-! ## Alternatives -/

/-- The first of some parsers that succeeds: the first one, or, if that fails, one of the others. -/
theorem oneOf_cons_apply (failure : SyntaxError) (p : Parser α) (ps : List (Parser α))
    (s : TokenStream) :
    Parser.oneOf failure (p :: ps) s = match p s with
      | (.ok a, t) => (.ok a, t)
      | (.error e, t) =>
        if e.isEndless then (.error e, t) else Parser.oneOf e ps (t.restore s.snapshot) := by
  rw [Parser.oneOf, Parser.bind_apply, Parser.attempt_apply]
  rcases p s with ⟨e | a, t⟩
  · dsimp only
    split_ifs
    · rfl
    · rfl
  · rfl

/-- Of some parsers the first one succeeds, or it fails and one of the others succeeds where the
stream stood. -/
theorem cases_of_oneOf_cons {failure : SyntaxError} {p : Parser α} {ps : List (Parser α)}
    {Q : α → Prop} {s s₁ : TokenStream} {a : α} (hs : Reliable s) (hp : p.Gives s Q)
    (h : Parser.oneOf failure (p :: ps) s = (.ok a, s₁)) :
    p s = (.ok a, s₁) ∨ ∃ e r, (∃ t, p s = (.error e, t)) ∧ Stays s r ∧
      Parser.oneOf e ps r = (.ok a, s₁) := by
  obtain ⟨ht, hlater, -⟩ := hp
  rw [oneOf_cons_apply] at h
  generalize p s = result at *
  obtain ⟨e | b, t⟩ := result
  · dsimp only at h
    split_ifs at h
    · cases h
    · exact .inr ⟨e, _, ⟨t, rfl⟩, hs.restore ht hlater, h⟩
  · exact .inl h

/-- One more parser in front of others: where it fails and one of the others succeeds, it fails in
the other source. -/
theorem oneOf_cons {γ : Type} {R : α → β → Prop} {Q : α → List Char → Prop} {p : Parser α}
    {q : Parser β} {ps : List (Parser α)} {qs : List (Parser β)} {view : α → γ} {view' : β → γ}
    {G G' : Recognizer γ} (hp : Follows J settings P R Q p q)
    (hps : ∀ e e', Follows J settings P R Q (Parser.oneOf e ps) (Parser.oneOf e' qs))
    (hG : Recognizes settings p view G) (hq : Recognizes settings q view' G)
    (hG' : ∀ e, Recognizes settings (Parser.oneOf e ps) view G') (hblanks : G.PassesBlanks)
    (hgives : ∀ {s}, Reliable s → q.Gives s fun _ => True)
    (hcarry : ∀ {t a t₁}, ¬ G.Begins (t ++ J.rest) → G' (t ++ J.rest) (view a) (t₁ ++ J.rest) →
      Q a t₁ → ¬ G.Begins (t ++ J.rest'))
    (failure failure' : SyntaxError) :
    Follows J settings P R Q (Parser.oneOf failure (p :: ps))
      (Parser.oneOf failure' (q :: qs)) := by
  refine ⟨fun {s} hs hsettings => ?_, fun hs hsettings ht h ht₁ hQ => ?_,
    fun {t t₁ s s' s₁ a} hs hsettings h ht₁ hQ => ?_⟩
  · obtain ⟨ht, hlater, hvalue⟩ := hp.gives hs hsettings
    unfold Parser.Gives
    rw [oneOf_cons_apply]
    generalize p s = result at *
    obtain ⟨e | b, t⟩ := result
    · dsimp only
      split_ifs
      · exact ⟨ht, hlater, fun _ heq => by cases heq⟩
      · have hback := hs.restore ht hlater
        obtain ⟨hr, hlater', hvalue'⟩ :=
          (hps e e).gives hback.reliable (hback.later.settings_eq.trans hsettings)
        exact ⟨hr, hback.later.trans hlater', hvalue'⟩
    · exact ⟨ht, hlater, hvalue⟩
  · rcases cases_of_oneOf_cons hs (hp.gives hs hsettings) h with h | ⟨e, r, -, hr, h⟩
    · exact hp.before hs hsettings ht h ht₁ hQ
    · exact (hps e e).before hr.reliable (hr.later.settings_eq.trans hsettings)
        (hr.text_eq.trans ht) h ht₁ hQ
  · rcases cases_of_oneOf_cons hs.reliable (hp.gives hs.reliable hsettings) h with h |
      ⟨e, r, ⟨u, hfails⟩, hr, h⟩
    · obtain ⟨b, s₁', hb, hab, hbeside⟩ := hp.reads hs hsettings h ht₁ hQ
      refine ⟨b, s₁', ?_, hab, hbeside⟩
      rw [oneOf_cons_apply, hb]
    · -- The first parser fails in the other source as well, and leaves the stream where it stood.
      have hnone := hG.of_error hs.reliable hsettings hfails
      have hrest := (hG' e).of_ok hr.reliable (hr.later.settings_eq.trans hsettings) h
      rw [hs.text_eq] at hnone
      rw [hr.text_eq, hs.text_eq, ht₁] at hrest
      have hsettings' := hs.settings_eq.trans hsettings
      obtain ⟨gap, hgap, -, htext'⟩ := hs.exists_gap
      have hnone' := (not_congr (hblanks.begins_iff hgap)).2 (hcarry hnone hrest hQ)
      obtain ⟨e', _, hagrees, he'⟩ :=
        hq.fails hnone' s' s'.unbuffered hs.reliable'.shows hsettings' htext'
      obtain ⟨hr', hlater', -⟩ := hgives hs.reliable'
      have hvalue := hagrees.value_eq
      have happly := oneOf_cons_apply failure' q qs s'
      generalize q s' = result at *
      obtain ⟨f | b, r'⟩ := result
      · cases hvalue
        dsimp only at happly
        rw [if_neg (by rw [he']; exact Bool.false_ne_true)] at happly
        obtain ⟨b, s₁', hb, hab, hbeside⟩ :=
          (hps e e').reads (hs.of_stays hr (hs.reliable'.restore hr' hlater'))
            (hr.later.settings_eq.trans hsettings) h ht₁ hQ
        exact ⟨b, s₁', happly.trans hb, hab, hbeside⟩
      · cases hvalue

/-- The only one of some parsers. -/
theorem oneOf_singleton {R : α → β → Prop} {Q : α → List Char → Prop} {p : Parser α}
    {q : Parser β} (h : Follows J settings P R Q p q)
    (hgives : ∀ {s}, Reliable s → p.Gives s fun _ => True) (failure failure' : SyntaxError) :
    Follows J settings P R Q (Parser.oneOf failure [p]) (Parser.oneOf failure' [q]) := by
  refine h.of_ok (fun hs => .oneOf hs (List.forall_mem_singleton.2 fun _ => hgives))
    (fun s a t _ _ hp => ?_) fun s b t _ _ hq => ?_
  · rw [oneOf_cons_apply] at hp
    -- If the only parser fails, the choice fails, with one error or the other.
    rcases hp' : p s with ⟨e | b, r⟩
    · rw [hp'] at hp
      dsimp only at hp
      split_ifs at hp
      · cases hp
      · cases hp
    · rw [hp'] at hp
      exact hp
  · rw [oneOf_cons_apply, hq]

end Follows

end MachineLang
