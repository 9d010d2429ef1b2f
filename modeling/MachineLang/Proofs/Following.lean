import MachineLang.Proofs.Carrying
import MachineLang.Proofs.Placement
import MachineLang.Proofs.Shapes
import MachineLang.Proofs.Splices

/-!
# Parsers side by side

A parser for the one source of a splice is followed by a parser for the other source (`Follows`) if
this reads the same whenever the first one succeeds inside the text: the values are related, and the
streams stand beside each other again. What comes behind may matter where the sources differ, so a
condition on the text behind what was read is asked for, and a condition on the text in front of it
is given in return. There is one rule for each way of putting parsers together, and one for each
question about the next token.
-/

namespace MachineLang

variable {α α' β β' : Type} {J : Splice} {settings : Settings} {P P' : List Char → Prop}
  {R R' : α → β → Prop} {Q Q' : α → List Char → Prop} {p : Parser α} {q : Parser β}

/-! ## Related values -/

/-- Two values look the same, each in the view of its source. -/
def Splice.Same {α : Type} (J : Splice) (move : (Location → Location) → α → α) (a b : α) : Prop :=
  move J.view a = move J.view' b

/-- Every value looks like some value. -/
theorem Splice.exists_same {move : (Location → Location) → α → α}
    (hmove : ∀ f g a, move g (move f a) = move (g ∘ f) a) (a : α) : ∃ b, J.Same move a b := by
  obtain ⟨m, hm⟩ := Classical.axiomOfChoice J.total
  refine ⟨move m a, ?_⟩
  show move J.view a = move J.view' (move m a)
  rw [hmove, show J.view' ∘ m = J.view from funext fun l => (hm l).symm]

/-- Where optional values look the same, both are missing, or both are there and look the same. -/
theorem Splice.Same.option_cases {move : (Location → Location) → α → α} {a? b? : Option α}
    (h : J.Same (fun f => Option.map (move f)) a? b?) :
    a? = none ∧ b? = none ∨ ∃ a b, a? = some a ∧ b? = some b ∧ J.Same move a b := by
  have h : a?.map (move J.view) = b?.map (move J.view') := h
  cases a? with
  | none => exact .inl ⟨rfl, Option.map_eq_none_iff.1 h.symm⟩
  | some a =>
    obtain ⟨b, hb, hmove⟩ := Option.map_eq_some_iff.1 h.symm
    exact .inr ⟨a, b, rfl, hb, hmove.symm⟩

/-- Every token looks like some token. -/
theorem Splice.exists_sameToken (token : Token) : ∃ token', J.Same Token.relocated token token' :=
  J.exists_same (fun _ _ _ => rfl) token

/-! ## Following -/

/-- Wherever the first parser succeeds inside the text, and the condition `Q` holds of the text
behind, the second one reads the same in the other source, and the condition `P` holds of the
text. -/
structure Follows (J : Splice) (settings : Settings) (P : List Char → Prop) (R : α → β → Prop)
    (Q : α → List Char → Prop) (p : Parser α) (q : Parser β) : Prop where
  /-- The first parser goes on in the source, and what it gives is related to something. -/
  gives : ∀ {s}, Reliable s → s.settings = settings → p.Gives s fun a => ∃ b, R a b
  /-- The condition on the text behind gives the one on the text. -/
  before : ∀ {t t₁ s s₁ a}, Reliable s → s.settings = settings → s.text = t ++ J.rest →
    p s = (.ok a, s₁) →
    s₁.text = t₁ ++ J.rest → Q a t₁ → P t
  /-- The second parser reads the same. -/
  reads : ∀ {t t₁ s s' s₁ a}, Beside J t s s' → s.settings = settings → p s = (.ok a, s₁) →
    s₁.text = t₁ ++ J.rest → Q a t₁ → ∃ b s₁', q s' = (.ok b, s₁') ∧ R a b ∧ Beside J t₁ s₁ s₁'

namespace Follows

/-- Less may be said of the text and of the values, and more of the text behind. -/
theorem mono (h : Follows J settings P R Q p q) (hP : ∀ t, P t → P' t) (hR : ∀ a b, R a b → R' a b)
    (hQ : ∀ a t, Q' a t → Q a t) : Follows J settings P' R' Q' p q where
  gives hs hsettings := (h.gives hs hsettings).imp fun a ⟨b, hab⟩ => ⟨b, hR a b hab⟩
  before hs hsettings ht hp ht₁ hQ' := hP _ (h.before hs hsettings ht hp ht₁ (hQ _ _ hQ'))
  reads hs hsettings hp ht₁ hQ' := by
    obtain ⟨b, s₁', hq, hab, hs₁⟩ := h.reads hs hsettings hp ht₁ (hQ _ _ hQ')
    exact ⟨b, s₁', hq, hR _ _ hab, hs₁⟩

/-- More may be asked of the text behind. -/
theorem strengthen (h : Follows J settings P R Q p q) (hQ : ∀ a t, Q' a t → Q a t) :
    Follows J settings P R Q' p q :=
  h.mono (fun _ => id) (fun _ _ => id) hQ

/-- Less may be said of the text. -/
theorem weaken (h : Follows J settings P R Q p q) (hP : ∀ t, P t → P' t) :
    Follows J settings P' R Q p q :=
  h.mono hP (fun _ _ => id) fun _ _ => id

/-- It is enough that a parser follows one that succeeds in the same way. -/
theorem of_ok {p' : Parser α} {q' : Parser β} (h : Follows J settings P R Q p q)
    (hgives : ∀ {s}, Reliable s → p'.Gives s fun _ => True)
    (hp : ∀ s a t, Reliable s → s.settings = settings → p' s = (.ok a, t) → p s = (.ok a, t))
    (hq : ∀ s b t, Reliable s → s.settings = settings → q s = (.ok b, t) → q' s = (.ok b, t)) :
    Follows J settings P R Q p' q' where
  gives {s} hs hsettings := by
    obtain ⟨ht, hlater, -⟩ := hgives hs
    refine ⟨ht, hlater, fun a ha => (h.gives hs hsettings).2.2 a ?_⟩
    rw [hp s a _ hs hsettings (Prod.ext ha rfl)]
  before hs hsettings ht hp' := h.before hs hsettings ht (hp _ _ _ hs hsettings hp')
  reads hs hsettings hp' ht₁ hQ := by
    obtain ⟨b, s₁', hb, hab, hbeside⟩ :=
      h.reads hs hsettings (hp _ _ _ hs.reliable hsettings hp') ht₁ hQ
    exact ⟨b, s₁', hq _ _ _ hs.reliable' (hs.settings_eq.trans hsettings) hb, hab, hbeside⟩

/-- Parsers that do the same, at least on reliable streams with these settings, follow each other
likewise. So one may be rewritten before it is compared. -/
theorem congr {p' : Parser α} {q' : Parser β} (h : Follows J settings P R Q p q)
    (hp : ∀ s, Reliable s → s.settings = settings → p' s = p s)
    (hq : ∀ s, Reliable s → s.settings = settings → q' s = q s) :
    Follows J settings P R Q p' q' where
  gives {s} hs hsettings := by
    unfold Parser.Gives
    rw [hp s hs hsettings]
    exact h.gives hs hsettings
  before hs hsettings ht hp' := h.before hs hsettings ht ((hp _ hs hsettings).symm.trans hp')
  reads hs hsettings hp' ht₁ hQ := by
    rw [hq _ hs.reliable' (hs.settings_eq.trans hsettings)]
    exact h.reads hs hsettings ((hp _ hs.reliable hsettings).symm.trans hp') ht₁ hQ

/-- A parser that never succeeds is followed by any parser. -/
theorem of_error (hgives : ∀ {s}, Reliable s → p.Gives s fun _ => False) :
    Follows J settings P R Q p q where
  gives hs _ := (hgives hs).imp fun _ => False.elim
  before hs _ _ hp := ((hgives hs).2.2 _ (congrArg Prod.fst hp)).elim
  reads hs _ hp := ((hgives hs.reliable).2.2 _ (congrArg Prod.fst hp)).elim

/-- An error is followed by anything: there is no success to be matched. -/
theorem throw (e : SyntaxError) : Follows J settings P R Q (throw e : Parser α) q :=
  of_error fun hs => Parser.Gives.throw hs e

/-- Rules without end are followed by anything, since they never succeed. -/
theorem endless : Follows J settings P R Q (Parser.endless : Parser α) q :=
  of_error Parser.Gives.endless

/-- Giving a value is followed by giving a related one. -/
theorem pure {a : α} {b : β} (h : R a b) :
    Follows J settings (Q a) R Q (Pure.pure a : Parser α) (Pure.pure b) where
  gives hs _ := Parser.Gives.pure hs ⟨b, h⟩
  before _ _ ht hp ht₁ hQ := by
    cases hp
    rw [List.append_cancel_right (ht.symm.trans ht₁)]
    exact hQ
  reads hs _ hp ht₁ hQ := by
    cases hp
    obtain rfl := List.append_cancel_right (hs.text_eq.symm.trans ht₁)
    exact ⟨b, _, rfl, h, hs⟩

/-- One parser after the other: the second one starts from the text that the first one leaves. -/
theorem bind {M : α → List Char → Prop} {R' : α' → β' → Prop} {Q : α' → List Char → Prop}
    {f : α → Parser α'} {g : β → Parser β'} (h : Follows J settings P R M p q)
    (hf : ∀ a b, R a b → Follows J settings (M a) R' Q (f a) (g b)) :
    Follows J settings P R' Q (p >>= f) (q >>= g) := by
  -- The first parser ends inside the text, since the second one does.
  have hsplit : ∀ {s s₂ a t₂}, Reliable s → s.settings = settings → (p >>= f) s = (.ok a, s₂) →
      s₂.text = t₂ ++ J.rest → ∃ b b' s₁ t₁, p s = (.ok b, s₁) ∧ R b b' ∧ f b s₁ = (.ok a, s₂) ∧
        Reliable s₁ ∧
        s₁.settings = settings ∧ s₁.text = t₁ ++ J.rest := by
    intro s s₂ a t₂ hs hsettings hp ht₂
    obtain ⟨hs₁, hlater, hvalue⟩ := h.gives hs hsettings
    obtain ⟨b, s₁, hb, hp⟩ := Parser.of_bind_eq_ok hp
    rw [hb] at hs₁ hlater hvalue
    obtain ⟨b', hbb'⟩ := hvalue b rfl
    have hsettings₁ := hlater.settings_eq.trans hsettings
    obtain ⟨hs₂, hlater', -⟩ := (hf b b' hbb').gives hs₁ hsettings₁
    have hsuffix := hs₁.text_suffix hs₂ hlater'
    rw [hp, ht₂] at hsuffix
    obtain ⟨t₁, ht₁⟩ := MachineLang.exists_between hsuffix
    exact ⟨b, b', s₁, t₁, hb, hbb', hp, hs₁, hsettings₁, ht₁⟩
  refine ⟨fun hs hsettings => ?_, fun hs hsettings ht hp ht₂ hQ => ?_,
    fun hs hsettings hp ht₂ hQ => ?_⟩
  · obtain ⟨hs₁, hlater, hvalue⟩ := h.gives hs hsettings
    unfold Parser.Gives
    rw [Parser.bind_apply]
    generalize p _ = result at *
    obtain ⟨e | b, s₁⟩ := result
    · exact ⟨hs₁, hlater, fun _ heq => by cases heq⟩
    · obtain ⟨b', hbb'⟩ := hvalue b rfl
      obtain ⟨hs₂, hlater', hvalue'⟩ :=
        (hf b b' hbb').gives hs₁ (hlater.settings_eq.trans hsettings)
      exact ⟨hs₂, hlater.trans hlater', hvalue'⟩
  · obtain ⟨b, b', s₁, t₁, hb, hbb', hf', hs₁, hsettings₁, ht₁⟩ := hsplit hs hsettings hp ht₂
    exact h.before hs hsettings ht hb ht₁ ((hf b b' hbb').before hs₁ hsettings₁ ht₁ hf' ht₂ hQ)
  · obtain ⟨b, b', s₁, t₁, hb, hbb', hf', hs₁, hsettings₁, ht₁⟩ :=
      hsplit hs.reliable hsettings hp ht₂
    have hM := (hf b b' hbb').before hs₁ hsettings₁ ht₁ hf' ht₂ hQ
    obtain ⟨c, s₁', hc, hbc, hbeside⟩ := h.reads hs hsettings hb ht₁ hM
    obtain ⟨d, s₂', hd, had, hbeside'⟩ := (hf b c hbc).reads hbeside hsettings₁ hf' ht₂ hQ
    refine ⟨d, s₂', ?_, had, hbeside'⟩
    rw [Parser.bind_apply, hc]
    exact hd

/-- One parser after another one behind which nothing is asked for. -/
theorem andThen {M : List Char → Prop} {R' : α' → β' → Prop} {Q : α' → List Char → Prop}
    {f : α → Parser α'} {g : β → Parser β'} (h : Follows J settings P R (fun _ _ => True) p q)
    (hf : ∀ a b, R a b → Follows J settings M R' Q (f a) (g b)) :
    Follows J settings P R' Q (p >>= f) (q >>= g) :=
  h.bind fun a b hab => (hf a b hab).weaken fun _ _ => trivial

/-- A function of what a parser gives. -/
theorem map {R' : α' → β' → Prop} {Q : List Char → Prop} {f : α → α'} {g : β → β'}
    (h : Follows J settings P R (fun _ => Q) p q) (hf : ∀ a b, R a b → R' (f a) (g b)) :
    Follows J settings P R' (fun _ => Q) (f <$> p) (g <$> q) :=
  h.bind fun a b hab => (pure (hf a b hab)).weaken fun _ => id

/-- Under changed settings a parser follows another one as it does under its own. The settings are
put back behind it, so what comes next is compared under the old ones again. -/
theorem withSettings {update : Settings → Settings} (hordinary : settings.Ordinary)
    (hordinary' : (update settings).Ordinary) (h : Follows J (update settings) P R Q p q) :
    Follows J settings P R Q (Parser.withSettings update p) (Parser.withSettings update q) := by
  -- A successful run is a run under the changed settings, with the old ones put back behind it.
  have hsplit : ∀ {s s₁ a t₁}, Reliable s → s.settings = settings →
      Parser.withSettings update p s = (.ok a, s₁) →
      s₁.text = t₁ ++ J.rest → ∃ s₂, p (s.apply (update settings)) = (.ok a, s₂) ∧
        s₁ = s₂.apply settings ∧
        s₂.text = t₁ ++ J.rest ∧ (s.apply (update settings)).settings = update settings := by
    rintro s s₁ a t₁ hs rfl hp ht₁
    have hunbuffered := (hs.apply hordinary').2.1
    have hsettings : (s.apply (update s.settings)).settings = update s.settings :=
      congrArg Unbuffered.settings hunbuffered
    obtain ⟨hs₂, -, -⟩ := h.gives (hs.apply hordinary').1 hsettings
    have happly : Parser.withSettings update p s = ((p (s.apply (update s.settings))).1,
        (p (s.apply (update s.settings))).2.apply s.settings) := rfl
    rw [happly] at hp
    generalize p (s.apply (update s.settings)) = result at *
    obtain ⟨r, s₂⟩ := result
    cases hp
    exact ⟨s₂, rfl, rfl, (hs₂.text_apply hordinary).symm.trans ht₁, hsettings⟩
  refine ⟨fun hs hsettings => ?_, fun hs hsettings ht hp ht₁ hQ => ?_,
    fun {t t₁ s s' s₁ a} hs hsettings hp ht₁ hQ => ?_⟩
  · subst hsettings
    exact Parser.Gives.withSettings hs hordinary'
      (h.gives (hs.apply hordinary').1 (congrArg Unbuffered.settings (hs.apply hordinary').2.1))
  · obtain ⟨s₂, hp, -, ht₂, hsettings'⟩ := hsplit hs hsettings hp ht₁
    exact h.before (hs.apply hordinary').1 hsettings' ((hs.text_apply hordinary').trans ht) hp
      ht₂ hQ
  · obtain ⟨s₂, hinner, rfl, ht₂, hsettings'⟩ := hsplit hs.reliable hsettings hp ht₁
    obtain ⟨b, s₂', hq, hab, hbeside⟩ := h.reads (hs.apply hordinary') hsettings' hinner ht₂ hQ
    refine ⟨b, s₂'.apply settings, ?_, hab, hbeside.apply hordinary⟩
    show ((q (s'.apply (update s'.settings))).1,
      (q (s'.apply (update s'.settings))).2.apply s'.settings) = _
    rw [hs.settings_eq, hsettings, hq]

/-- A parser that succeeds is not affected by what happens on failure. The handlers never give a
value here, so they only say which error is reported. -/
theorem tryCatch {handler : SyntaxError → Parser α} {handler' : SyntaxError → Parser β}
    (h : Follows J settings P R Q p q)
    (hhandler : ∀ e {s}, Reliable s → (handler e).Gives s fun _ => False) :
    Follows J settings P R Q (tryCatch p handler) (tryCatch q handler') := by
  -- The handler never gives a value, so a success is one of the parser itself.
  have hsplit : ∀ {s s₁ a}, Reliable s → s.settings = settings →
      (MonadExcept.tryCatch p handler) s = (.ok a, s₁) →
      p s = (.ok a, s₁) := by
    intro s s₁ a hs hsettings hp
    obtain ⟨hs₂, -, -⟩ := h.gives hs hsettings
    rw [Parser.tryCatch_apply] at hp
    generalize p s = result at *
    obtain ⟨e | b, s₂⟩ := result
    · exact ((hhandler e hs₂).2.2 _ (congrArg Prod.fst hp)).elim
    · exact hp
  refine ⟨fun hs hsettings => ?_, fun hs hsettings ht hp ht₁ hQ => ?_,
    fun hs hsettings hp ht₁ hQ => ?_⟩
  · exact (h.gives hs hsettings).tryCatch fun e t ht => (hhandler e ht).imp fun _ => False.elim
  · exact h.before hs hsettings ht (hsplit hs hsettings hp) ht₁ hQ
  · obtain ⟨b, s₁', hq, hab, hbeside⟩ :=
      h.reads hs hsettings (hsplit hs.reliable hsettings hp) ht₁ hQ
    refine ⟨b, s₁', ?_, hab, hbeside⟩
    rw [Parser.tryCatch_apply, hq]

/-- A condition if nothing was found, and another one if something was. -/
def found {γ : Type} (none some : List Char → Prop) (value : Option γ) : List Char → Prop :=
  value.elim none fun _ => some

/-! ## Questions about the next token -/

section

variable (hinner : settings.Inner)
include hinner

/-- An answer that the next token decides: it is the same if the token lies inside the text, or if
what comes next in the other source gives the same answer. What is asked for behind a question may
depend on its answer. -/
theorem ask {p : Parser α} (answer : TokenKind → List Char → α) {Q : α → List Char → Prop}
    (hreads : ∀ {kind value rest text}, Next settings kind value rest text →
      Reads settings p text (· = answer kind value) text)
    (hstays : ∀ {s}, Reliable s → p.Meets s fun _ t => Stays s t)
    (hQ : ∀ {a t}, (∀ kind value rest, Next settings kind value rest (t ++ J.rest) →
      answer kind value = a) → Q a t →
      P t ∧ (Stands J settings t ∨
        ∀ kind value rest, Next settings kind value rest (t ++ J.rest') → answer kind value = a)) :
    Follows J settings P Eq Q p p := by
  -- The answer is that of the next token, which the text alone determines.
  have hanswer : ∀ {s s₁ a}, Reliable s → s.settings = settings → p s = (.ok a, s₁) →
      ∀ kind value rest, Next settings kind value rest s.text → answer kind value = a := by
    intro s s₁ a hs hsettings hp kind value rest hnext
    obtain ⟨_, _, hp', rfl, -⟩ := (hreads hnext).exists_apply hs hsettings rfl
    cases hp'.symm.trans hp
    rfl
  refine ⟨fun hs _ => ?_, fun hs hsettings ht hp ht₁ hQa => ?_,
    fun {t t₁ s s' s₁ a} hs hsettings hp ht₁ hQa => ?_⟩
  · exact (hstays hs).gives fun a _ _ => ⟨a, rfl⟩
  · obtain ⟨-, -, hs₁⟩ := (hstays hs).of_eq_ok hp
    rw [hs₁.text_eq, ht] at ht₁
    obtain rfl := List.append_cancel_right ht₁
    exact (hQ (ht ▸ hanswer hs hsettings hp) hQa).1
  · obtain ⟨-, -, hs₁⟩ := (hstays hs.reliable).of_eq_ok hp
    rw [hs₁.text_eq, hs.text_eq] at ht₁
    obtain rfl := List.append_cancel_right ht₁
    obtain ⟨kind, value, rest, hnext⟩ := hinner.exists_next (t ++ J.rest')
    obtain ⟨gap, hgap, -, htext'⟩ := hs.exists_gap
    obtain ⟨b, s₁', hq, rfl, -⟩ :=
      (hreads ((Next.blanks_iff hinner.skips hinner.base_mem hgap).2 hnext)).exists_apply
        hs.reliable' (hs.settings_eq.trans hsettings) htext'
    obtain ⟨-, -, hs₁'⟩ := (hstays hs.reliable').of_eq_ok hq
    refine ⟨_, s₁', hq, ?_, hs.of_stays hs₁ hs₁'⟩
    have hanswer' := hs.text_eq ▸ hanswer hs.reliable hsettings hp
    rcases (hQ hanswer' hQa).2 with ⟨kind', value', t', hkind, hinside⟩ | hsame
    · obtain ⟨rfl, rfl, -⟩ :=
        hinner.unique hnext (J.seam hinner.base_mem hinner.skips hkind hinside)
      exact (hanswer' _ _ _ hinside).symm
    · exact (hsame _ _ _ hnext).symm

/-- Whether the next token is of a kind, if it lies inside the text. -/
theorem check {Q : Bool → List Char → Prop} (kind : TokenKind)
    (hQ : ∀ found t, Q found t → P t ∧ Stands J settings t) :
    Follows J settings P Eq Q (Parser.check kind) (Parser.check kind) :=
  ask hinner (fun kind' _ => kind' == kind) (fun h => Reads.check h kind)
    (fun hs => (Parser.Meets.check hs kind).imp fun _ _ _ _ h => h.2.2)
    fun _ h => ⟨(hQ _ _ h).1, .inl (hQ _ _ h).2⟩

/-- Whether the next token is a word. -/
theorem checkWord {Q : Bool → List Char → Prop} (word : String)
    (hQ : ∀ {found t}, (∀ kind value rest, Next settings kind value rest (t ++ J.rest) →
        (kind == .identifier && .ofList value == word) = found) → Q found t →
      P t ∧ (Stands J settings t ∨ ∀ kind value rest, Next settings kind value rest (t ++ J.rest') →
        (kind == .identifier && .ofList value == word) = found)) :
    Follows J settings P Eq Q (Parser.checkWord word) (Parser.checkWord word) :=
  ask hinner _ (fun h => Reads.checkWord h word)
    (fun hs => (Parser.Meets.checkWord hs word).imp fun _ _ _ _ h => h.2) hQ

/-- Which operator the next token is. -/
theorem operator? {operators : List (TokenKind × α)} {Q : Option α → List Char → Prop}
    (hQ : ∀ {op t}, Q op t → P t ∧ (Stands J settings t ∨
      ∀ kind value rest, Next settings kind value rest (t ++ J.rest') →
        operators.lookup kind = op)) :
    Follows J settings P Eq Q (Parser.operator? operators) (Parser.operator? operators) :=
  ask hinner (fun kind _ => operators.lookup kind) (fun h => Reads.operator? h operators)
    (fun hs => (Parser.Meets.operator? hs operators).imp fun _ _ _ _ h => h.2) fun _ => hQ

/-- Looking at the next token gives the same token in front of both endings, if what is known of the
token says that it stands in the text that they share. -/
theorem peek {Q : Token → List Char → Prop}
    (hP : ∀ token t, Starts J settings [token.kind] t → Q token t → P t)
    (hQ : ∀ token t, Q token t → Stands J settings t) :
    Follows J settings P (J.Same Token.relocated) Q Parser.peek Parser.peek where
  gives hs _ := (Parser.Meets.peek hs).gives fun token _ _ => J.exists_sameToken token
  before hs hsettings ht hp ht₁ hQa := by
    subst hsettings
    obtain ⟨-, -, rfl, hs₁⟩ := (Parser.Meets.peek hs).of_eq_ok hp
    rw [hs₁.text_eq, ht] at ht₁
    -- Looking takes nothing, so the text in front of the ending is the same before and after.
    obtain rfl := List.append_cancel_right ht₁
    obtain ⟨kind, value, t', hkind, hnext⟩ := hQ _ _ hQa
    rw [← ht] at hnext
    obtain ⟨_, -, htoken⟩ := Reliable.nextToken_of_next hnext
    rw [ht] at hnext
    refine hP _ _ ⟨kind, ?_, value, t', hnext⟩ hQa
    rw [htoken]
    exact List.mem_cons_self
  reads hs hsettings hp ht₁ hQa := by
    subst hsettings
    obtain ⟨-, -, rfl, hs₁⟩ := (Parser.Meets.peek hs.reliable).of_eq_ok hp
    rw [hs₁.text_eq, hs.text_eq] at ht₁
    obtain rfl := List.append_cancel_right ht₁
    obtain ⟨kind, value, t', hkind, hnext⟩ := hQ _ _ hQa
    obtain ⟨hsame, -, -, hnext'⟩ := hs.nextToken hinner hkind hnext
    obtain ⟨b, s₁', hq, -, -⟩ := (Reads.peek hnext').exists_apply hs.reliable' rfl rfl
    obtain ⟨-, -, rfl, hs₁'⟩ := (Parser.Meets.peek hs.reliable').of_eq_ok hq
    exact ⟨_, s₁', hq, hsame, hs.of_stays hs₁ hs₁'⟩

/-- The place where the next token begins is the same in both sources up to the relocation, if the
token lies inside the text that they share. -/
theorem location (hP : ∀ t, P t → Stands J settings t) :
    Follows J settings P (J.Same fun f l => f l) (fun _ => P) Parser.location Parser.location where
  gives hs _ := (Parser.Meets.location hs).gives fun l _ _ => J.total l
  -- Looking at the place reads nothing: the text left before it is the text left behind it.
  before hs _ ht hp ht₁ hQ := by
    obtain ⟨-, -, -, hs₁⟩ := (Parser.Meets.location hs).of_eq_ok hp
    rw [hs₁.text_eq, ht] at ht₁
    exact List.append_cancel_right ht₁ ▸ hQ
  reads hs hsettings hp ht₁ hQ := by
    subst hsettings
    obtain ⟨-, -, rfl, hs₁⟩ := (Parser.Meets.location hs.reliable).of_eq_ok hp
    rw [hs₁.text_eq, hs.text_eq] at ht₁
    obtain rfl := List.append_cancel_right ht₁
    obtain ⟨kind, value, t', hkind, hnext⟩ := hP _ hQ
    obtain ⟨hsame, -⟩ := hs.nextToken hinner hkind hnext
    obtain ⟨b, s₁', hq, -, -⟩ := Reads.location.exists_apply hs.reliable' rfl rfl
    obtain ⟨-, -, rfl, hs₁'⟩ := (Parser.Meets.location hs.reliable').of_eq_ok hq
    refine ⟨_, s₁', hq, ?_, hs.of_stays hs₁ hs₁'⟩
    rw [← hs.reliable.nextToken.2, ← hs.reliable'.nextToken.2]
    exact congrArg Token.location hsame

/-! ## Reading the next token -/

/-- Reading the next token, which is of one of some kinds, gives the same token in front of both
endings. The end of the input is none of these, so the token stands in the shared text. -/
theorem expect {kinds : List TokenKind} (hkinds : .endOfInput ∉ kinds) :
    Follows J settings (Starts J settings kinds) (fun a b => J.Same Token.relocated a b ∧
      a.kind ∈ kinds) (fun _ _ => True) (Parser.expect kinds) (Parser.expect kinds) where
  gives hs _ := (Parser.Meets.expect hs kinds).gives fun token _ htook =>
    (J.exists_sameToken token).imp fun _ hsame => ⟨hsame, htook.2⟩
  before hs hsettings ht hp ht₁ _ := by
    subst hsettings
    obtain ⟨-, -, htook, hkind⟩ := (Parser.Meets.expect hs kinds).of_eq_ok hp
    obtain ⟨value, hnext⟩ :=
      Reliable.exists_next_of_took hinner htook fun hend => hkinds (hend ▸ hkind)
    rw [ht, ht₁] at hnext
    exact ⟨_, hkind, value, _, hnext⟩
  reads hs hsettings hp ht₁ _ := by
    subst hsettings
    -- The token is of one of the kinds, none of which is the end of the input, so it stands in
    -- front of the ending and is cut the same way in front of the other one.
    obtain ⟨hs₁, hlater, htook, hkind⟩ := (Parser.Meets.expect hs.reliable kinds).of_eq_ok hp
    have hend : _ ≠ TokenKind.endOfInput := fun hend => hkinds (hend ▸ hkind)
    obtain ⟨value, hnext⟩ := Reliable.exists_next_of_took hinner htook hend
    rw [hs.text_eq, ht₁] at hnext
    obtain ⟨-, -, -, hnext'⟩ := hs.nextToken hinner hend hnext
    obtain ⟨b, s₁', hq, -, -⟩ :=
      (Reads.expect hnext' (List.contains_iff_mem.2 hkind)).exists_apply hs.reliable' rfl rfl
    obtain ⟨hs₁', hlater', htook', -⟩ := (Parser.Meets.expect hs.reliable' kinds).of_eq_ok hq
    obtain ⟨hsame, hbeside⟩ := hs.took hinner hend hnext hs₁ hlater htook hs₁' hlater' htook'
    exact ⟨b, s₁', hq, ⟨hsame, hkind⟩, hbeside⟩

/-- Reading the next token, where shared text is left behind it, gives the same token in front of
both endings: it ends inside this text, so nothing of the ending belongs to it. -/
theorem next :
    Follows J settings (Stands J settings) (J.Same Token.relocated) (fun _ t => t ≠ []) Parser.next
    Parser.next := by
  -- If text is left in front of the rest, the token that was read lies inside the text.
  have hinside : ∀ {t t₁ : List Char} {s s₁ : TokenStream} {token : Token}, Reliable s →
      s.settings = settings →
      s.text = t ++ J.rest → Parser.next s = (.ok token, s₁) → s₁.text = t₁ ++ J.rest → t₁ ≠ [] →
      token.kind ≠ .endOfInput ∧ ∃ value, Next settings token.kind value (t₁ ++ J.rest)
        (t ++ J.rest) := by
    intro t t₁ s s₁ token hs hsettings ht hp ht₁ hne
    subst hsettings
    obtain ⟨-, -, htook⟩ := (Parser.Meets.next hs).of_eq_ok hp
    have hend : token.kind ≠ .endOfInput := by
      intro hend
      obtain ⟨kind, value, rest, hnext⟩ := hinner.exists_next s.text
      obtain ⟨_, _, hp', htoken, hrest⟩ := (Reads.next hnext).exists_apply hs rfl rfl
      cases hp'.symm.trans hp
      rcases hnext.lexes with ⟨hlex, -⟩ | ⟨-, -, rfl⟩
      · exact hlex.kind_ne (htoken.kind_eq.symm.trans hend)
      · rw [ht₁] at hrest
        exact hne (List.append_eq_nil_iff.1 hrest).1
    obtain ⟨value, hnext⟩ := Reliable.exists_next_of_took hinner htook hend
    exact ⟨hend, value, by rw [← ht, ← ht₁]; exact hnext⟩
  refine ⟨fun hs _ => ?_, fun hs hsettings ht hp ht₁ hne => ?_, fun hs hsettings hp ht₁ hne => ?_⟩
  · exact (Parser.Meets.next hs).gives fun token _ _ => J.exists_sameToken token
  · obtain ⟨hend, value, hnext⟩ := hinside hs hsettings ht hp ht₁ hne
    exact ⟨_, value, _, hend, hnext⟩
  · obtain ⟨hend, value, hnext⟩ := hinside hs.reliable hsettings hs.text_eq hp ht₁ hne
    subst hsettings
    obtain ⟨hs₁, hlater, htook⟩ := (Parser.Meets.next hs.reliable).of_eq_ok hp
    obtain ⟨-, -, -, hnext'⟩ := hs.nextToken hinner hend hnext
    obtain ⟨b, s₁', hq, -, -⟩ := (Reads.next hnext').exists_apply hs.reliable' rfl rfl
    obtain ⟨hs₁', hlater', htook'⟩ := (Parser.Meets.next hs.reliable').of_eq_ok hq
    obtain ⟨hsame, hbeside⟩ := hs.took hinner hend hnext hs₁ hlater htook hs₁' hlater' htook'
    exact ⟨b, s₁', hq, hsame, hbeside⟩

/-- Reading the next token if it is of a kind; where it is not, another one lies inside the text. -/
theorem accept {kind : TokenKind} {Q S : List Char → Prop} (hkind : kind ≠ .endOfInput)
    (hsome : ∀ t t₁ value, Next settings kind value (t₁ ++ J.rest) (t ++ J.rest) → S t₁ → P t)
    (hnone : ∀ t, Q t → Stands J settings t ∧ P t) :
    Follows J settings P (J.Same fun f => Option.map (Token.relocated f)) (found Q S)
      (Parser.accept kind) (Parser.accept kind) where
  gives hs _ := (Parser.Meets.accept hs kind).gives fun found _ _ => by
    cases found with
    | none => exact ⟨none, rfl⟩
    | some token => exact (J.exists_sameToken token).imp' some fun _ hsame => congrArg some hsame
  before {t t₁ s s₁ found} hs hsettings ht hp ht₁ hQ := by
    subst hsettings
    obtain ⟨-, -, hfound⟩ := (Parser.Meets.accept hs kind).of_eq_ok hp
    cases found with
    | none =>
      rw [hfound.text_eq, ht] at ht₁
      exact List.append_cancel_right ht₁ ▸ (hnone _ hQ).2
    | some token =>
      obtain ⟨htook, rfl⟩ := hfound
      obtain ⟨value, hnext⟩ := Reliable.exists_next_of_took hinner htook hkind
      rw [ht, ht₁] at hnext
      exact hsome _ _ _ hnext hQ
  reads {t t₁ s s' s₁ found} hs hsettings hp ht₁ hQ := by
    subst hsettings
    obtain ⟨hs₁, hlater, hfound⟩ := (Parser.Meets.accept hs.reliable kind).of_eq_ok hp
    cases found with
    | none =>
      rw [hfound.text_eq, hs.text_eq] at ht₁
      obtain rfl := List.append_cancel_right ht₁
      obtain ⟨kind', value, t', hkind', hnext⟩ := (hnone _ hQ).1
      -- It is of another kind in both sources, since it was not read in the one.
      have hne : kind' ≠ kind := by
        rintro rfl
        obtain ⟨_, _, hp', ⟨_, rfl⟩, -⟩ :=
          (Reads.accept hnext).exists_apply hs.reliable rfl hs.text_eq
        cases hp'.symm.trans hp
      obtain ⟨-, -, -, hnext'⟩ := hs.nextToken hinner hkind' hnext
      obtain ⟨_, s₁', hq, rfl, -⟩ :=
        (Reads.accept_other hnext' hne).exists_apply hs.reliable' rfl rfl
      obtain ⟨-, -, hs₁'⟩ := (Parser.Meets.accept hs.reliable' kind).of_eq_ok hq
      exact ⟨none, s₁', hq, rfl, hs.of_stays hfound hs₁'⟩
    | some token =>
      obtain ⟨htook, rfl⟩ := hfound
      obtain ⟨value, hnext⟩ := Reliable.exists_next_of_took hinner htook hkind
      rw [hs.text_eq, ht₁] at hnext
      obtain ⟨-, -, -, hnext'⟩ := hs.nextToken hinner hkind hnext
      obtain ⟨_, s₁', hq, ⟨token', rfl⟩, -⟩ :=
        (Reads.accept hnext').exists_apply hs.reliable' rfl rfl
      obtain ⟨hs₁', hlater', htook', -⟩ := (Parser.Meets.accept hs.reliable' token.kind).of_eq_ok hq
      obtain ⟨hsame, hbeside⟩ := hs.took hinner hkind hnext hs₁ hlater htook hs₁' hlater' htook'
      exact ⟨some token', s₁', hq, congrArg some hsame, hbeside⟩

end

/-! ## What the stream keeps -/

/-- Where the last token read ends. -/
theorem lastEnd (P : List Char → Prop) :
    Follows J settings P (J.Same fun f l => f l) (fun _ => P) Parser.lastEnd
    Parser.lastEnd where
  gives hs _ := (Parser.Meets.lastEnd hs).gives fun l _ _ => J.total l
  before _ _ ht hp ht₁ hP := by
    cases hp
    exact List.append_cancel_right (ht.symm.trans ht₁) ▸ hP
  reads hs _ hp ht₁ _ := by
    cases hp
    obtain rfl := List.append_cancel_right (hs.text_eq.symm.trans ht₁)
    exact ⟨_, _, rfl, hs.lastEnd_eq, hs⟩

/-- The range from a place to the end of the last token read. -/
theorem spanFrom (P : List Char → Prop) {start start' : Location}
    (hstart : J.view start = J.view' start') :
    Follows J settings P (J.Same Span.relocated) (fun _ => P) (Parser.spanFrom start)
      (Parser.spanFrom start') := by
  refine (lastEnd P).bind fun stop stop' hstop => pure (Q := fun _ => P) ?_
  show Span.mk (J.view start) (J.view stop) = Span.mk (J.view' start') (J.view' stop')
  rw [hstart, show J.view stop = J.view' stop' from hstop]

/-- The bound on the number of tokens. -/
theorem limit (P : List Char → Prop) :
    Follows J settings P (· ≤ ·) (fun _ => P) Parser.limit Parser.limit where
  gives hs _ := (Parser.Meets.limit hs).gives fun n _ _ => ⟨n, Nat.le_refl n⟩
  before _ _ ht hp ht₁ hP := by
    cases hp
    exact List.append_cancel_right (ht.symm.trans ht₁) ▸ hP
  reads hs _ hp ht₁ _ := by
    cases hp
    obtain rfl := List.append_cancel_right (hs.text_eq.symm.trans ht₁)
    exact ⟨_, _, rfl, hs.limit_le, hs⟩

end Follows

end MachineLang
