import MachineLang.Proofs.MachineReading
import MachineLang.Proofs.Together

/-!
# Sequences of statements side by side

Separators are skipped alike in two sources, one by one (`Beside.separators`), so a sequence of
statements up to a closing token is read alike if its statements are (`Follows.statements`). What is
asked for behind a statement has to hold in front of a separator behind which it holds, and in front
of the closing token.
-/

namespace MachineLang

variable {J : Splice} {settings : Settings} {kind : TokenKind} {value rest : List Char}
  {t t₁ : List Char} {s s' s₁ : TokenStream} {k n : Nat}

/-! ## Separators -/

/-- Whether tokens of the kind separate statements. -/
def TokenKind.isSeparator (kind : TokenKind) : Bool := kind == .newline || kind == .semicolon

/-- The end does not separate anything. -/
theorem TokenKind.ne_of_isSeparator (h : kind.isSeparator = true) : kind ≠ .endOfInput := by
  rintro rfl
  exact absurd h (by decide)

/-- From one place in front of an ending to another one, over as many separators. -/
inductive Separators (settings : Settings) (r : List Char) : Nat → List Char → List Char → Prop
  /-- No separators. -/
  | refl {t : List Char} : Separators settings r 0 t t
  /-- One more separator in front. -/
  | step {n : Nat} {t t' t₁ value : List Char} {kind : TokenKind} (hkind : kind.isSeparator = true)
      (hnext : Next settings kind value (t' ++ r) (t ++ r))
      (hmore : Separators settings r n t' t₁) : Separators settings r (n + 1) t t₁

/-- Each separator takes some text, so there are no more of them than characters. -/
theorem Separators.length_add_le {r : List Char} (h : Separators settings r n t t₁) :
    t₁.length + n ≤ t.length := by
  induction h with
  | refl => exact Nat.le_refl _
  | step hkind hnext _ ih =>
    have hlt := hnext.length_lt (TokenKind.ne_of_isSeparator hkind)
    rw [List.length_append, List.length_append] at hlt
    omega

namespace Parser

/-- Whether a separator comes next, which is a line end or a semicolon. -/
def separator : Parser Bool := do if ← check .newline then return true else check .semicolon

/-- Asking for a separator leaves the stream where it stands. -/
theorem meets_separator (hs : Reliable s) : separator.Meets s fun _ t => Stays s t := by
  refine (Meets.check hs .newline).bind fun found t ht _ h => ?_
  split_ifs
  · exact Meets.pure ht h.2.2
  · exact (Meets.check ht .semicolon).imp fun _ _ _ _ h' => h.2.2.trans h'.2.2

/-- In front of another token nothing is skipped. -/
theorem skipSeparatorsWithin_of_other (hs : Reliable s)
    (hnext : Next s.settings kind value rest s.text) (hkind : kind.isSeparator = false) :
    ∃ t, Stays s t ∧ ∀ k, skipSeparatorsWithin (k + 1) s = (.ok (), t) := by
  obtain ⟨_, t, hp, rfl, -⟩ := (Reads.separator hnext).exists_apply hs rfl rfl
  obtain ⟨-, -, hstays⟩ := (meets_separator hs).of_eq_ok hp
  refine ⟨t, hstays, fun k => ?_⟩
  rw [skipSeparatorsWithin, bind_apply, hp]
  unfold TokenKind.isSeparator at hkind
  rw [hkind]
  rfl

/-- A separator is skipped: the loop goes on behind it with one step less. -/
theorem skipSeparatorsWithin_of_separator (hs : Reliable s)
    (hnext : Next s.settings kind value rest s.text) (hkind : kind.isSeparator = true) :
    ∃ token t, Reliable t ∧ Later s t ∧ Took s token t ∧ token.kind = kind ∧
      ∀ k, skipSeparatorsWithin (k + 1) s = skipSeparatorsWithin k t := by
  obtain ⟨_, t, hp, rfl, -⟩ := (Reads.separator hnext).exists_apply hs rfl rfl
  obtain ⟨-, -, hstays⟩ := (meets_separator hs).of_eq_ok hp
  rw [← hstays.text_eq, ← hstays.later.settings_eq] at hnext
  -- Looking for a separator has read nothing, so the token is still next and is taken in the same
  -- round.
  obtain ⟨token, r, hq, htoken, -⟩ := (Reads.next hnext).exists_apply hstays.reliable rfl rfl
  obtain ⟨hr, hlater, htook⟩ := (Meets.next hstays.reliable).of_eq_ok hq
  refine ⟨token, r, hr, hstays.later.trans hlater, htook.of_stays hstays, htoken.kind_eq,
    fun k => ?_⟩
  rw [skipSeparatorsWithin, bind_apply, hp]
  unfold TokenKind.isSeparator at hkind
  rw [hkind]
  show (next >>= fun _ => skipSeparatorsWithin k) t = _
  rw [bind_apply, hq]

end Parser

/-- Where separators are skipped in the one source, as many are in the other one, and the two
streams stand beside each other behind them, in front of something else. -/
theorem Beside.separators (h : Beside J t s s') (hinner : s.settings.Inner)
    (hp : Parser.skipSeparatorsWithin k s = (.ok (), s₁)) (ht₁ : s₁.text = t₁ ++ J.rest) :
    (∀ kind value rest, Next s.settings kind value rest (t₁ ++ J.rest) → kind.isSeparator = false) ∧
      ∃ n < k, Separators s.settings J.rest n t t₁ ∧ ∃ r', Beside J t₁ s₁ r' ∧ Later s' r' ∧
        ∀ m, Parser.skipSeparatorsWithin (n + m) s' = Parser.skipSeparatorsWithin m r' := by
  -- By induction on the steps: a separator that is next in the one source is next in the other one.
  induction k generalizing t s s' with
  | zero =>
    have hgives := (Parser.Gives.endless (α := Unit) (Q := fun _ => False) h.reliable).2.2
    exact (hgives () (congrArg Prod.fst hp)).elim
  | succ k ih =>
    obtain ⟨kind, value, rest, hnext⟩ := hinner.exists_next s.text
    cases hkind : kind.isSeparator with
    | false =>
      obtain ⟨r, hr, hskip⟩ := Parser.skipSeparatorsWithin_of_other h.reliable hnext hkind
      cases (hskip k).symm.trans hp
      rw [hr.text_eq, h.text_eq] at ht₁
      obtain rfl := List.append_cancel_right ht₁
      refine ⟨fun kind' value' rest' hnext' => ?_, 0, Nat.succ_pos k, .refl, s',
        h.of_stays hr (.refl h.reliable'), .refl s', ?_⟩
      · rw [← h.text_eq] at hnext'
        obtain ⟨rfl, -⟩ := hinner.unique hnext hnext'
        exact hkind
      · exact fun m => by rw [Nat.zero_add]
    | true =>
      have hend := TokenKind.ne_of_isSeparator hkind
      obtain ⟨token, r, hr, hlater, htook, rfl, hskip⟩ :=
        Parser.skipSeparatorsWithin_of_separator h.reliable hnext hkind
      rw [hskip k] at hp
      obtain ⟨hs₁, hlater₁, -⟩ := Parser.gives_skipSeparatorsWithin hr k
      rw [hp] at hs₁ hlater₁
      have hsuffix := hr.text_suffix hs₁ hlater₁
      rw [(Reliable.text_of_took hnext hend htook).1, ht₁] at hsuffix
      obtain ⟨t', rfl⟩ := MachineLang.exists_between hsuffix
      rw [h.text_eq] at hnext
      obtain ⟨-, -, -, hnext'⟩ := h.nextToken hinner hend hnext
      obtain ⟨token', r', hr', hlater', htook', -, hskip'⟩ :=
        Parser.skipSeparatorsWithin_of_separator h.reliable' hnext' hkind
      obtain ⟨-, hbeside⟩ := h.took hinner hend hnext hr hlater htook hr' hlater' htook'
      obtain ⟨hother, n, hn, hseparators, r₁', hbeside₁, hlater₁', hmore⟩ :=
        ih hbeside (hlater.settings_eq ▸ hinner) hp
      rw [hlater.settings_eq] at hother hseparators
      refine ⟨hother, n + 1, Nat.succ_lt_succ hn, .step hkind hnext hseparators, r₁', hbeside₁,
        hlater'.trans hlater₁', fun m => ?_⟩
      rw [Nat.add_right_comm, hskip', hmore]

/-! ## Statements -/

namespace Parser

/-- The next statement, or nothing if the closing token is taken. -/
theorem statement_eq (closing : TokenKind) (item : Parser Node) : statement closing item = (do
    skipSeparatorsWithin (← limit)
    match ← accept closing with
    | some _ => return none
    | none => return some (← item)) := by
  unfold statement
  refine congrArg _ (funext fun steps => congrArg _ (funext fun _ => funext fun s => ?_))
  rw [bind_apply, bind_apply]
  -- Accepting a token is looking for it and then reading it.
  unfold check accept TokenStream.accept
  rcases s.check closing with ⟨_ | _, t⟩
  · rfl
  · show (next >>= fun _ => pure none) t = _
    rw [bind_apply, show next t = t.next from rfl]
    dsimp only
    rcases t.next with ⟨e | token, r⟩
    · rfl
    · rfl

end Parser

namespace Follows

variable {C Q : List Char → Prop} {item item' : Parser Node}

section

variable (hinner : settings.Inner)
include hinner

/-- Skipping separators is the same in both sources. What is asked for in front of the text behind
them holds in front of each of them as well. -/
theorem skipSeparatorsWithin (hstands : ∀ t, C t → Stands J settings t)
    (hseparator : ∀ {kind t t₁ value}, kind.isSeparator = true →
      Next settings kind value (t₁ ++ J.rest) (t ++ J.rest) → C t₁ → C t)
    {steps steps' : Nat} (hle : steps ≤ steps') :
    Follows J settings C (fun _ _ => True) (fun _ => C) (Parser.skipSeparatorsWithin steps)
      (Parser.skipSeparatorsWithin steps') where
  gives hs _ := (Parser.gives_skipSeparatorsWithin hs steps).imp fun _ _ => ⟨(), trivial⟩
  before hs hsettings ht hp ht₁ hC := by
    subst hsettings
    obtain ⟨-, n, -, hseparators, -⟩ := (Beside.alone hs ht).separators hinner hp ht₁
    clear hs ht hp ht₁
    induction hseparators with
    | refl => exact hC
    | step hkind hnext _ ih => exact hseparator hkind hnext (ih hC)
  reads hs hsettings hp ht₁ hC := by
    subst hsettings
    obtain ⟨hother, n, hn, -, r', hbeside, -, hskip⟩ := hs.separators hinner hp ht₁
    obtain ⟨-, hlater, -⟩ := Parser.gives_skipSeparatorsWithin hs.reliable steps
    rw [hp] at hlater
    obtain ⟨kind, value, t', hkind, hnext⟩ := hstands _ hC
    have hsettings := hlater.settings_eq
    dsimp only at hsettings
    obtain ⟨-, -, -, hnext'⟩ := hbeside.nextToken (hsettings ▸ hinner) hkind (hsettings ▸ hnext)
    obtain ⟨r₁', hstays, hskip'⟩ :=
      Parser.skipSeparatorsWithin_of_other hbeside.reliable' hnext' (hother _ _ _ hnext)
    -- The other parser has at least as many rounds, so the same separators are skipped.
    obtain ⟨m, rfl⟩ := Nat.exists_eq_add_of_lt (Nat.lt_of_lt_of_le hn hle)
    exact ⟨(), r₁', (hskip (m + 1)).trans (hskip' m), trivial,
      hbeside.of_stays (.refl hbeside.reliable) hstays⟩

/-- The next statement, or the closing token, is the same in both sources: both show the closing
token or neither does, and the statement stands in the text that they share. -/
theorem statement {P : List Char → Prop} {closing : TokenKind} (hclosing : closing ≠ .endOfInput)
    (hitem : Follows J settings P (J.Same Node.relocated) (fun _ => C) item item')
    (hP : ∀ t, P t → C t) (hstands : ∀ t, C t → Stands J settings t)
    (hseparator : ∀ {kind t t₁ value}, kind.isSeparator = true →
      Next settings kind value (t₁ ++ J.rest) (t ++ J.rest) → C t₁ → C t)
    (hclose : ∀ {t t₁ value}, Next settings closing value (t₁ ++ J.rest) (t ++ J.rest) →
      Q t₁ → C t) :
    Follows J settings C (J.Same fun f => Option.map (Node.relocated f)) (found Q C)
      (Parser.statement closing item) (Parser.statement closing item') := by
  rw [Parser.statement_eq, Parser.statement_eq]
  refine (limit C).bind fun steps steps' hle => ?_
  refine (skipSeparatorsWithin hinner hstands hseparator hle).bind fun _ _ _ => ?_
  refine (accept (Q := P) (S := Q) hinner hclosing (fun t t₁ value => hclose) fun t ht =>
    ⟨hstands t (hP t ht), hP t ht⟩).bind fun found found' hfound => ?_
  -- Both sources show the closing token or neither does.
  obtain ⟨rfl, rfl⟩ | ⟨token, token', rfl, rfl, -⟩ := hfound.option_cases
  · refine hitem.bind fun node node' hnode => ?_
    have hsome : J.Same (fun f => Option.map (Node.relocated f)) (some node) (some node') :=
      congrArg some hnode
    exact pure (Q := found Q C) hsome
  · have hnone : J.Same (fun f => Option.map (Node.relocated f)) none none := rfl
    exact pure (Q := found Q C) hnone

/-- A sequence of statements between an opening and a closing token is the same in front of both
endings, if its statements are. It ends in the shared text with its closing token. -/
theorem statements {P : List Char → Prop} {opening closing : TokenKind}
    (hopening : opening ≠ .endOfInput) (hclosing : closing ≠ .endOfInput)
    (hintercept : settings.intercept [.newline, .endOfInput] = settings)
    (hitem : Follows J settings P (J.Same Node.relocated) (fun _ => C) item item')
    (hP : ∀ t, P t → C t) (hstands : ∀ t, C t → Stands J settings t)
    (hseparator : ∀ {kind t t₁ value}, kind.isSeparator = true →
      Next settings kind value (t₁ ++ J.rest) (t ++ J.rest) → C t₁ → C t)
    (hclose : ∀ {t t₁ value}, Next settings closing value (t₁ ++ J.rest) (t ++ J.rest) → Q t₁ → C t)
    (start start' : Location) :
    Follows J settings (Starts J settings [opening]) (J.Same Node.relocated) (fun _ => Q)
      (Parser.statements (some opening) closing item start)
        (Parser.statements (some opening) closing item' start') := by
  have hopened : Follows J settings (Starts J settings [opening]) (J.Same fun f l => f l)
      (fun _ _ => True) (Parser.opened (some opening) start)
      (Parser.opened (some opening) start') :=
    map (expect hinner (by simpa using hopening.symm)) fun _ _ h => congrArg Token.location h.1
  refine hopened.bind fun start start' hstart => ?_
  have hcollect := collect (statement hinner hclosing hitem hP hstands hseparator hclose)
  refine weaken (P := C) ?_ fun _ _ => trivial
  refine withSettings hinner.ordinary (hintercept.symm ▸ hinner.ordinary) ?_
  -- The settings of a line are in force already, so the change has no effect inside.
  rw [hintercept]
  refine hcollect.bind fun nodes nodes' hnodes => ?_
  refine (spanFrom Q hstart).bind fun span span' hspan => pure (Q := fun _ => Q) ?_
  show Node.relocated _ _ = Node.relocated _ _
  rw [Node.relocated, Node.relocated, Node.relocatedList_eq_map, Node.relocatedList_eq_map,
    show List.map _ nodes = _ from hnodes, show span.relocated _ = _ from hspan]

end

end Follows

end MachineLang
