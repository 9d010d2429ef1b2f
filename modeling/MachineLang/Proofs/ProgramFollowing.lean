import MachineLang.Proofs.StatementFollowing

/-!
# Sequences of statements that end at a splice

The statements up to a closing token of one source are read alike in another source where they are
followed by something else (`Beside.statementsWithin`): there, reading stands in the middle of a
round of skipping separators when the one source is at its closing token. So a round may begin with
separators that are skipped already.
-/

namespace MachineLang

open MachineLang.Parser

namespace Parser

/-- The next statement, or nothing once the closing token has been read, when so many separators may
be skipped. -/
def statementWithin (closing : TokenKind) (item : Parser Node) (steps : Nat) :
    Parser (Option Node) :=
  do
  skipSeparatorsWithin steps
  if ← check closing then
    let _ ← next
    return none
  return some (← item)

/-- The statements up to a closing token, when so many separators may be skipped in front of the
first one. -/
def statementsWithin (closing : TokenKind) (item : Parser Node) (steps rounds : Nat)
    (before : List Node) :
    Parser (List Node) := do
  (← statementWithin closing item steps).elim (return before.reverse) fun node =>
    collectWithin (statement closing item) rounds (node :: before)

/-- In front of each statement as many separators may be skipped as there are tokens. -/
theorem collectWithin_statement (closing : TokenKind) (item : Parser Node) (rounds : Nat)
    (before : List Node) (s : TokenStream) :
    collectWithin (statement closing item) (rounds + 1) before s =
      statementsWithin closing item s.limit rounds before s := by
  have hstep : collectWithin (statement closing item) (rounds + 1) before = (do
      (← statement closing item).elim (return before.reverse) fun node =>
        collectWithin (statement closing item) rounds (node :: before)) := by
    rw [collectWithin]
    refine congrArg _ (funext fun found => ?_)
    cases found <;> rfl
  rw [hstep]
  rfl

end Parser

namespace Follows

variable {α β : Type} {J : Splice} {settings : Settings} {P P' : List Char → Prop}
  {R : α → β → Prop} {Q : α → List Char → Prop} {p : Parser α} {q : Parser β}

/-- Where what is asked for behind never holds, nothing is said of the text. -/
theorem never (h : Follows J settings P R Q p q) : Follows J settings P' R (fun _ _ => False) p q :=
  ⟨h.gives, fun _ _ _ _ _ hfalse => hfalse.elim, fun _ _ _ _ hfalse => hfalse.elim⟩

/-- The next statement, if there is one, is the same in front of both endings. The loop for
separators may have more steps on the one side, but it needs no more of them. -/
theorem statementWithin {item item' : Parser Node} (closing : TokenKind)
    (hitem : Follows J ⟨[.base], lineBlanks⟩
      (fun t => Closes J t ∧ Stands J ⟨[.base], lineBlanks⟩ t) (J.Same Node.relocated)
      (EndsStatement J) item item')
    {steps steps' : Nat} (hle : steps ≤ steps') :
    Follows J ⟨[.base], lineBlanks⟩ (Closes J) (J.Same fun f => Option.map (Node.relocated f))
      (fun found t => found.elim False (EndsStatement J · t))
      (Parser.statementWithin closing item steps)
      (Parser.statementWithin closing item' steps') := by
  have hinner := Settings.Inner.of_ofLine .line
  refine (weaken (P := fun t => Closes J t ∧ Stands J ⟨[.base], lineBlanks⟩ t) ?_ fun _ => And.left)
  refine (skipSeparatorsWithin hinner (fun _ => And.right)
    (fun hkind hnext hC =>
      ⟨hC.1.ends.separator hkind hnext, ⟨_, _, _, TokenKind.ne_of_isSeparator hkind, hnext⟩⟩)
    hle).bind fun _ _ _ => ?_
  -- The closing token is none that the endings begin with, so in front of them it is not found.
  have hcheck : Follows J ⟨[.base], lineBlanks⟩
      (fun t => Closes J t ∧ Stands J ⟨[.base], lineBlanks⟩ t) Eq
      (fun closed t =>
        if closed = true then False else Closes J t ∧ Stands J ⟨[.base], lineBlanks⟩ t)
      (Parser.check closing) (Parser.check closing) := by
    refine check hinner _ fun closed t h => ?_
    cases closed with
    | true => exact h.elim
    | false => exact ⟨h, h.2⟩
  refine hcheck.bind fun closed closed' hclosed => ?_
  subst hclosed
  cases closed with
  | true =>
    have hnone : J.Same (fun f => Option.map (Node.relocated f)) none none := rfl
    exact (never (next hinner)).bind fun _ _ _ =>
      pure (Q := fun found t => found.elim False (EndsStatement J · t)) hnone
  | false =>
    refine hitem.bind fun node node' hnode => ?_
    have hsome : J.Same (fun f => Option.map (Node.relocated f)) (some node) (some node') :=
      congrArg some hnode
    exact pure (Q := fun found t => found.elim False (EndsStatement J · t)) hsome

end Follows

/-! ## Up to the closing token -/

variable {J : Splice} {closing : TokenKind} {s s' s₁ s₂ : TokenStream} {t rest : List Char}
  {settings : Settings}

/-- The closing token comes next, and leaves the rest. -/
def Closing (closing : TokenKind) (rest text : List Char) : Prop :=
  ∃ value, Next ⟨[.base], lineBlanks⟩ closing value rest text

namespace Parser

variable {item : Parser Node} {steps rounds : Nat} {before : List Node}

/-- Where no statement is left, the closing token comes next behind the separators, because a
statement that is read at all is given. -/
theorem exists_of_statementWithin_none (hs : Reliable s)
    (hsettings : s.settings = ⟨[.base], lineBlanks⟩)
    (h : statementWithin closing item steps s = (.ok none, s₂)) :
    ∃ s₁, skipSeparatorsWithin steps s = (.ok (), s₁) ∧ Closing closing s₂.text s₁.text := by
  obtain ⟨hs₁, hlater, -⟩ := gives_skipSeparatorsWithin hs steps
  unfold statementWithin at h
  obtain ⟨⟨⟩, s₁, hskip, h⟩ := of_bind_eq_ok h
  rw [hskip] at hs₁ hlater
  refine ⟨s₁, hskip, ?_⟩
  have hsettings₁ : s₁.settings = ⟨[.base], lineBlanks⟩ := hlater.settings_eq.trans hsettings
  obtain ⟨kind, value, rest, hnext⟩ := (Settings.Inner.of_ofLine .line).exists_next s₁.text
  obtain ⟨_, u, hcheck, rfl, hu⟩ := (Reads.check hnext closing).exists_apply hs₁ hsettings₁ rfl
  obtain ⟨-, -, -, -, hstays⟩ := (Meets.check hs₁ closing).of_eq_ok hcheck
  rw [bind_apply, hcheck] at h
  dsimp only at h
  -- Nothing is given only if the closing token is found: a statement that is read is given.
  cases hend : kind == closing with
  | true =>
    obtain rfl := beq_iff_eq.1 hend
    obtain ⟨token, r, hread, -, hr⟩ := (Reads.next hnext).exists_apply hstays.reliable
      (hstays.later.settings_eq.trans hsettings₁) hu
    rw [hend, if_pos rfl, bind_apply, hread] at h
    cases h
    exact ⟨value, hr.symm ▸ hnext⟩
  | false =>
    rw [hend, if_neg Bool.false_ne_true] at h
    obtain ⟨node, r, -, h⟩ := of_bind_eq_ok h
    cases h

/-- In front of the closing token no statement is left, so the loop ends there with those that were
read before, and the closing token is taken. -/
theorem statementsWithin_of_closing (hs : Reliable s)
    (hsettings : s.settings = ⟨[.base], lineBlanks⟩) (hend : Closing closing rest s.text)
    (hclosing : closing.isSeparator = false) (hsteps : steps ≠ 0) :
    ∃ t, statementsWithin closing item steps rounds before s = (.ok before.reverse, t) ∧
      t.text = rest := by
  obtain ⟨value, hnext⟩ := hend
  obtain ⟨steps, rfl⟩ := Nat.exists_eq_add_one_of_ne_zero hsteps
  obtain ⟨u, hstays, hskip⟩ := skipSeparatorsWithin_of_other hs (hsettings ▸ hnext) hclosing
  have hsettings' := hstays.later.settings_eq.trans hsettings
  rw [← hstays.text_eq] at hnext
  obtain ⟨_, r, hcheck, rfl, hr⟩ :=
    (Reads.check hnext closing).exists_apply hstays.reliable hsettings' rfl
  obtain ⟨-, -, -, -, hstays'⟩ := (Meets.check hstays.reliable closing).of_eq_ok hcheck
  rw [← hr] at hnext
  obtain ⟨token, r', hread, -, hr'⟩ := (Reads.next hnext).exists_apply hstays'.reliable
    (hstays'.later.settings_eq.trans hsettings') rfl
  refine ⟨r', ?_, hr'⟩
  -- No separator is skipped, and the closing token is taken.
  have hwithin : statementWithin closing item (steps + 1) s = (.ok none, r') := by
    unfold statementWithin
    rw [bind_apply, hskip steps]
    dsimp only
    rw [bind_apply, hcheck]
    dsimp only
    rw [beq_self_eq_true, if_pos rfl, bind_apply, hread]
    rfl
  unfold statementsWithin
  rw [bind_apply, hwithin]
  rfl

/-- Reading a statement goes on in the source. -/
theorem gives_statementWithin (hitem : ∀ s, Reliable s → item.Gives s fun _ => True)
    (hs : Reliable s) (steps : Nat) :
    (statementWithin closing item steps).Gives s fun _ => True := by
  refine (gives_skipSeparatorsWithin hs steps).bind fun _ t ht _ => ?_
  refine ((Meets.check ht closing).gives fun _ _ _ => trivial).bind fun closed r hr _ => ?_
  split_ifs
  · exact ((Meets.next hr).gives fun _ _ _ => trivial).bind fun _ _ hr' _ => Gives.pure hr' trivial
  · exact (hitem r hr).bind fun _ _ hr' _ => Gives.pure hr' trivial

/-- It only matters what skipping separators does. -/
theorem statementsWithin_congr {steps' : Nat}
    (h : skipSeparatorsWithin steps s = skipSeparatorsWithin steps' s') :
    statementsWithin closing item steps rounds before s = statementsWithin closing item steps'
      rounds before s' := by
  have hwithin : statementWithin closing item steps s = statementWithin closing item steps' s' := by
    unfold statementWithin
    rw [bind_apply, bind_apply, h]
  unfold statementsWithin
  rw [bind_apply, bind_apply, hwithin]

end Parser

/-- From a stream of the other source the same statements are read, up to where the closing token of
the one source stands in front of the rest; so many separators are left to be skipped there, as far
as the text in between has not used them up. -/
def ReadsAlike (J : Splice) (closing : TokenKind) (item' : Parser Node) (rest text : List Char)
    (nodes : List Node) (steps' : Nat) (s' : TokenStream) : Prop :=
  ∃ nodes' left t r r', J.Same (fun f => List.map (Node.relocated f)) nodes nodes' ∧
    Beside J t r r' ∧ Later s' r' ∧
    Closing closing rest r.text ∧ left ≠ 0 ∧ min steps' s'.limit ≤ left + text.length ∧
    ∀ more before', Parser.statementsWithin closing item' steps' (nodes.length + more) before' s' =
      Parser.statementsWithin closing item' left more (nodes'.reverse ++ before') r'

namespace ReadsAlike

variable {item' : Parser Node} {steps' : Nat}

/-- Where no statement is left, only separators are skipped. -/
theorem nil {steps : Nat} (hle : steps ≤ steps')
    (h : ∃ n t₁ r r', n < steps ∧ n ≤ t.length ∧ Beside J t₁ r r' ∧
      Later s' r' ∧ Closing closing rest r.text ∧ ∀ m rounds before,
        Parser.statementsWithin closing item' (n + m) rounds before s' =
          Parser.statementsWithin closing item' m rounds before r') :
    ReadsAlike J closing item' rest t [] steps' s' := by
  obtain ⟨n, t₁, r, r', hn, hn', hbeside, hlater, hend, hmore⟩ := h
  obtain ⟨left, rfl⟩ := Nat.exists_eq_add_of_lt (Nat.lt_of_lt_of_le hn hle)
  refine ⟨[], left + 1, t₁, r, r', rfl, hbeside, hlater, hend, by omega, by omega,
    fun more before' => ?_⟩
  rw [List.length_nil, Nat.zero_add, Nat.add_assoc]
  exact hmore _ _ _

/-- One statement is read alike on both sides, and so are those behind it: together they are read
alike, with one more round of the loop. -/
theorem cons {node : Node} {nodes : List Node} {found' : Option Node} {s₁' : TokenStream}
    {t₁ : List Char}
    (hfound' : Parser.statementWithin closing item' steps' s' = (.ok found', s₁'))
    (hsame : J.Same (fun f => Option.map (Node.relocated f)) (some node) found')
    (hlater₁ : Later s' s₁') (hshort : t₁.length ≤ t.length)
    (h : ReadsAlike J closing item' rest t₁ nodes s₁'.limit s₁') :
    ReadsAlike J closing item' rest t (node :: nodes) steps' s' := by
  obtain ⟨hnone, -⟩ | ⟨_, node', hsome, rfl, hnode⟩ := hsame.option_cases
  · cases hnone
  cases hsome
  have hlimit : s₁'.limit = s'.limit := hlater₁.limit_eq
  -- What is known about the statements behind is prefixed with the one that was just read: the
  -- count goes up and the list begins with it.
  obtain ⟨nodes', left, t₂, r, r', hsame', hbeside, hlater, hend, hleft, hmin, hall⟩ := h
  refine ⟨node' :: nodes', left, t₂, r, r', Follows.same_cons hnode hsame', hbeside,
    hlater₁.trans hlater, hend, hleft, by omega, fun more before' => ?_⟩
  unfold Parser.statementsWithin
  rw [bind_apply, hfound', List.length_cons, Nat.add_right_comm]
  show Parser.collectWithin _ _ _ s₁' = _
  rw [collectWithin_statement, hall, List.reverse_cons, List.append_assoc, List.singleton_append]
  rfl

end ReadsAlike

section

variable {item item' : Parser Node} {Q : List Char → Prop} (hcloses : ∀ t, Closes J t → Q t)
  (hends : ∀ t, Q t → EndsPlain J t) (hstop : ∀ text, Closing closing s₂.text text →
    ∃ t, text = t ++ J.rest ∧ Q t)
include hcloses hends hstop

/-- Where no statement is left in the one source, what is asked for behind a statement comes next,
and in the other source as many separators are skipped. -/
theorem Beside.of_statementWithin_none (item' : Parser Node) {steps : Nat} (hs : Reliable s)
    (hsettings : s.settings = ⟨[.base], lineBlanks⟩)
    (h : Parser.statementWithin closing item steps s = (.ok none, s₂)) :
    ∃ t, s.text = t ++ J.rest ∧ Q t ∧ ∀ s', Beside J t s s' → ∃ n t₁ r r', n < steps ∧
      n ≤ t.length ∧ Beside J t₁ r r' ∧
      Later s' r' ∧ Closing closing s₂.text r.text ∧ ∀ m rounds before,
        Parser.statementsWithin closing item' (n + m) rounds before s' =
          Parser.statementsWithin closing item' m rounds before r' := by
  obtain ⟨s₁, hskip, hend⟩ := exists_of_statementWithin_none hs hsettings h
  obtain ⟨t₁, ht₁, hQ⟩ := hstop s₁.text hend
  obtain ⟨hs₁, hlater, -⟩ := Parser.gives_skipSeparatorsWithin hs steps
  rw [hskip] at hs₁ hlater
  obtain ⟨t, ht⟩ := MachineLang.exists_between (ht₁ ▸ hs.text_suffix hs₁ hlater)
  have hinner : s.settings.Inner := hsettings ▸ .of_ofLine .line
  refine ⟨t, ht, ?_, fun s' hbeside => ?_⟩
  · -- What holds behind the separators holds in front of them, by induction on the separators.
    obtain ⟨-, n, -, hseparators, -⟩ := (Beside.alone hs ht).separators hinner hskip ht₁
    rw [hsettings] at hseparators
    clear h hskip hend hs ht ht₁
    induction hseparators with
    | refl => exact hQ
    | step hkind hnext _ ih => exact hcloses _ ((hends _ (ih hQ)).separator hkind hnext)
  · obtain ⟨-, n, hn, hseparators, r', hbeside', hlater', hmore⟩ :=
      hbeside.separators hinner hskip ht₁
    have hle := hseparators.length_add_le
    exact ⟨n, t₁, s₁, r', hn, by omega, hbeside', hlater', hend, fun m rounds before =>
      Parser.statementsWithin_congr (hmore m)⟩

/-- The statements up to the closing token of the one source are read alike in the other source. -/
theorem Beside.statementsWithin
    (hitem : Follows J ⟨[.base], lineBlanks⟩ (fun t => Closes J t ∧
      Stands J ⟨[.base], lineBlanks⟩ t) (J.Same Node.relocated) (EndsStatement J) item item')
    (hitem' : ∀ s, Reliable s → item'.Gives s fun _ => True)
    {steps rounds : Nat} {before nodes : List Node} (hnodes : ∀ node ∈ nodes, ∀ t, Q t →
      EndsStatement J node t)
    (hs : Reliable s) (hsettings : s.settings = ⟨[.base], lineBlanks⟩)
    (h : Parser.statementsWithin closing item steps rounds before s = (.ok nodes, s₂)) :
    ∃ t, s.text = t ++ J.rest ∧ Q t ∧ ∃ news, nodes = before.reverse ++ news ∧
      news.length ≤ rounds ∧
      ∀ s' steps', Beside J t s s' → steps ≤ steps' →
        ReadsAlike J closing item' s₂.text t news steps' s' := by
  -- By induction on the rounds that are left, each of which reads one statement.
  induction rounds using Nat.strongRecOn generalizing steps before s with
  | ind rounds ih =>
    have hstep := Follows.statementWithin closing hitem (Nat.le_refl steps)
    obtain ⟨hs₁, hlater, -⟩ := hstep.gives hs hsettings
    have happly := h
    unfold Parser.statementsWithin at happly
    obtain ⟨found, s₁, hfound, happly⟩ := of_bind_eq_ok happly
    rw [hfound] at hs₁ hlater
    cases found with
    | none =>
      cases happly
      obtain ⟨t, ht, hQ, hnone⟩ :=
        Beside.of_statementWithin_none hcloses hends hstop item' hs hsettings hfound
      exact ⟨t, ht, hQ, [], (List.append_nil _).symm, Nat.zero_le _, fun s' steps' hbeside hle =>
        .nil hle (hnone s' hbeside)⟩
    | some node =>
      cases rounds with
      | zero =>
        exact ((Gives.endless (α := List Node) (Q := fun _ => False) hs₁).2.2 nodes
          (congrArg Prod.fst happly)).elim
      | succ rounds =>
        have hsettings₁ : s₁.settings = ⟨[.base], lineBlanks⟩ := hlater.settings_eq.trans hsettings
        have hcollect : Parser.statementsWithin closing item s₁.limit rounds (node :: before) s₁ =
            (.ok nodes, s₂) := by
          rw [← collectWithin_statement]
          exact happly
        obtain ⟨t₁, ht₁, hQ, news, hnews, hlength, hmore⟩ :=
          ih rounds (Nat.lt_succ_self _) hs₁ hsettings₁ hcollect
        have hmem : node ∈ nodes := by
          rw [hnews, List.reverse_cons, List.append_assoc]
          exact List.mem_append_right _ List.mem_cons_self
        -- What follows this statement begins the next one or ends the sequence, so it ends in the
        -- other source, too.
        have hends' : EndsStatement J node t₁ := hnodes node hmem t₁ hQ
        have hsuffix := hs.text_suffix hs₁ hlater
        obtain ⟨t, ht⟩ := MachineLang.exists_between (ht₁ ▸ hsuffix)
        have hshort : t₁.length ≤ t.length := by
          have hle := hsuffix.length_le
          dsimp only at hle
          rw [ht, ht₁, List.length_append, List.length_append] at hle
          omega
        refine ⟨t, ht, hcloses t (hstep.before hs hsettings ht hfound ht₁ hends'), node :: news, ?_,
          ?_, ?_⟩
        · rw [hnews, List.reverse_cons, List.append_assoc, List.singleton_append]
        · rw [List.length_cons]
          omega
        · intro s' steps' hbeside hle
          obtain ⟨found', s₁', hfound', hsame, hbeside₁⟩ :=
            (Follows.statementWithin closing hitem hle).reads hbeside hsettings hfound ht₁ hends'
          obtain ⟨-, hlater₁, -⟩ := gives_statementWithin hitem' hbeside.reliable' steps'
          rw [hfound'] at hlater₁
          exact .cons hfound' hsame hlater₁ hshort (hmore s₁' s₁'.limit hbeside₁ hbeside₁.limit_le)

end

/-! ## Sequences of statements of a source -/

/-- A rule that is called goes on in the source. -/
theorem RuleTable.gives_call {s : TokenStream} (hs : Reliable s) (depth : Nat) (name : String) :
    (standard.call depth name).Gives s fun _ => True :=
  (gives_call_shape hs depth name).imp fun _ _ => trivial

/-- The statements of a sequence are gathered by one loop over separators and statements. -/
theorem Parser.collect_statement (closing : TokenKind) (item : Parser Node) (s : TokenStream) :
    Parser.collect (Parser.statement closing item) s =
      Parser.statementsWithin closing item s.limit (s.limit - 1) [] s := by
  have happly : ∀ step : Parser (Option Node), Parser.collect step s = Parser.collectWithin step
      s.limit [] s :=
    fun _ => rfl
  rw [happly, show s.limit = s.limit - 1 + 1 from rfl, collectWithin_statement]
  rfl

/-- Reading the statements of a sequence goes on in the source. -/
theorem Parser.gives_statementsWithin {item : Parser Node}
    (hitem : ∀ s, Reliable s → item.Gives s fun _ => True) (hs : Reliable s) :
    (Parser.statementsWithin closing item s.limit (s.limit - 1) []).Gives s fun _ => True := by
  have hstatement : ∀ t, Reliable t → (Parser.statement closing item).Gives t fun _ => True :=
    fun t ht =>
    gives_statementWithin hitem ht t.limit
  obtain ⟨ht, hlater, -⟩ := Gives.collect (Q := fun _ => True) hs fun t ht =>
    (hstatement t ht).imp fun _ _ _ _ => trivial
  rw [collect_statement] at ht hlater
  exact ⟨ht, hlater, fun _ _ => trivial⟩

/-- A sequence of statements is read under the settings for lines, and these are taken back in the
end. Nothing but the settings differs from reading it without them. -/
theorem Parser.withSettings_statements {item : Parser Node} {r t : TokenStream}
    {result : Except SyntaxError (List Node)} (hsettings : r.settings = .initial) (start : Location)
    (h : Parser.statementsWithin closing item (r.apply ⟨[.base], lineBlanks⟩).limit
      ((r.apply ⟨[.base], lineBlanks⟩).limit - 1) [] (r.apply ⟨[.base], lineBlanks⟩) =
        (result, t)) :
    Parser.withSettings (.intercept [.newline, .endOfInput]) (do
      let nodes ← Parser.collect (Parser.statement closing item)
      return Node.root nodes (← Parser.spanFrom start)) r =
        (result.map (Node.root · ⟨start, t.lastEnd⟩), t.apply .initial) := by
  have hintercept : r.settings.intercept [.newline, .endOfInput] = ⟨[.base], lineBlanks⟩ := by
    rw [hsettings]
    decide
  have happly : ∀ p : Parser Node, Parser.withSettings (.intercept [.newline, .endOfInput]) p r =
      ((p (r.apply (r.settings.intercept [.newline, .endOfInput]))).1,
        (p (r.apply (r.settings.intercept [.newline, .endOfInput]))).2.apply r.settings) :=
          fun _ => rfl
  rw [happly, hintercept, hsettings, bind_apply, collect_statement, h]
  cases result with
  | error e => rfl
  | ok nodes =>
    dsimp only
    rw [bind_apply]
    rfl

end MachineLang
