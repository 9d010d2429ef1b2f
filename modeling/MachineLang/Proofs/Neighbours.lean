import MachineLang.Proofs.Overruns
import MachineLang.Proofs.Separators

/-!
# Two statements side by side

Two bodies of a statement each, with a line end or a semicolon between them, read as one behind the
other does. Blanks alone are not always enough: a transition of a finite or of a pushdown automaton
is read on if what begins the second body makes it one of a Turing machine, or puts symbols on its
stacks (`GoesOn`), and then the second statement is lost. In every other case both are read
(`readBody_separated`).

A statement that no keyword introduces is whatever transition is recognized where it begins
(`transition_of_call`), so the first statement is known from the text alone, and so is where it
ends. That both are read if it ends where it does alone is then a matter of the second body, which
is read as it is alone.
-/

namespace MachineLang

open MachineLang.Parser

variable {text rest r r' t t' gap value : List Char} {kind closing : TokenKind} {node : Node}
  {n depth : Nat} {s : TokenStream}

/-! ## Reading one statement -/

namespace Separators

/-- Separators are the same in front of another ending. -/
theorem carries (hseam : Seam r r') (h : Separators ⟨[.base], lineBlanks⟩ r n t t') :
    Separators ⟨[.base], lineBlanks⟩ r' n t t' := by
  induction h with
  | refl => exact .refl
  | step hkind hnext _ ih =>
    exact .step hkind (hseam (by decide) .body (TokenKind.ne_of_isSeparator hkind) hnext) ih

/-- Separators are skipped, as many as there are, however many steps are left over. -/
theorem exists_skip (h : Separators ⟨[.base], lineBlanks⟩ r n t t') (hs : Reliable s)
    (hsettings : s.settings = ⟨[.base], lineBlanks⟩) (htext : s.text = t ++ r) :
    ∃ u, Reliable u ∧ Later s u ∧ u.text = t' ++ r ∧
      ∀ k, skipSeparatorsWithin (n + k) s = skipSeparatorsWithin k u := by
  induction h generalizing s with
  | refl => exact ⟨s, hs, .refl s, htext, fun k => by rw [Nat.zero_add]⟩
  | step hkind hnext _ ih =>
    rw [← htext, ← hsettings] at hnext
    obtain ⟨token, u, hu, hlater, htook, -, hskip⟩ :=
      skipSeparatorsWithin_of_separator hs hnext hkind
    obtain ⟨hrest, -⟩ := Reliable.text_of_took hnext (TokenKind.ne_of_isSeparator hkind) htook
    obtain ⟨v, hv, hlater', htext', hmore⟩ := ih hu (hlater.settings_eq.trans hsettings) hrest
    exact ⟨v, hv, hlater.trans hlater', htext', fun k => by rw [Nat.add_right_comm, hskip, hmore]⟩

/-- A separator is next, or there is none. -/
theorem next_or_eq (h : Separators ⟨[.base], lineBlanks⟩ r n t t') :
    (∃ kind value rest, kind.isSeparator = true ∧
      Next ⟨[.base], lineBlanks⟩ kind value rest (t ++ r)) ∨ t = t' := by
  cases h with
  | refl => exact .inr rfl
  | step hkind hnext => exact .inl ⟨_, _, _, hkind, hnext⟩

end Separators

namespace Parser

/-- Where a statement is read, it is read behind the separators in front of it, and from there by
the rule for statements alone. -/
theorem exists_of_statementWithin_some {item : Parser Node} {steps : Nat} {v : TokenStream}
    (hs : Reliable s) (h : statementWithin closing item steps s = (.ok (some node), v)) :
    ∃ s₀ u, skipSeparatorsWithin steps s = (.ok (), s₀) ∧ Stays s₀ u ∧ item u = (.ok node, v) := by
  obtain ⟨hs₀, -⟩ := gives_skipSeparatorsWithin hs steps
  unfold statementWithin at h
  obtain ⟨⟨⟩, s₀, hskip, h⟩ := of_bind_eq_ok h
  obtain ⟨found, u, hcheck, h⟩ := of_bind_eq_ok h
  rw [hskip] at hs₀
  obtain ⟨-, -, -, -, hstays⟩ := (Meets.check hs₀ closing).of_eq_ok hcheck
  refine ⟨s₀, u, hskip, hstays, ?_⟩
  -- The closing token would have given nothing; so it was not there, and the item was read.
  cases found with
  | true =>
    rw [if_pos rfl] at h
    obtain ⟨token, r, -, h⟩ := of_bind_eq_ok h
    cases h
  | false =>
    rw [if_neg Bool.false_ne_true] at h
    obtain ⟨found, r, hitem, h⟩ := of_bind_eq_ok h
    cases h
    exact hitem

/-- Statements are read up to the closing token, or one more is read first and the others behind it.
So a successful run of the loop can be taken apart round by round. -/
theorem exists_of_statementsWithin {item : Parser Node} {steps rounds : Nat}
    {before nodes : List Node} {v : TokenStream}
    (h : statementsWithin closing item steps rounds before s = (.ok nodes, v)) :
    (statementWithin closing item steps s = (.ok none, v) ∧ nodes = before.reverse) ∨
      ∃ node rounds' u, statementWithin closing item steps s = (.ok (some node), u) ∧
        statementsWithin closing item u.limit rounds' (node :: before) u = (.ok nodes, v) := by
  unfold statementsWithin at h
  obtain ⟨found, u, hfound, h⟩ := of_bind_eq_ok h
  cases found with
  | none =>
    cases h
    exact .inl ⟨hfound, rfl⟩
  | some node =>
    cases rounds with
    | zero => cases h
    | succ rounds =>
      refine .inr ⟨node, rounds, u, hfound, ?_⟩
      rw [← collectWithin_statement]
      exact h

/-- Gathered values stand behind those that were there before, so what the first rounds have read is
the beginning of the result. -/
theorem exists_of_collectWithin {α : Type} {step : Parser (Option α)} {rounds : Nat}
    {before values : List α} {s u : TokenStream}
    (h : collectWithin step rounds before s = (.ok values, u)) :
    ∃ news, values = before.reverse ++ news := by
  -- Values are put in front of the ones gathered before, and the whole is turned around at the end.
  induction rounds generalizing before s with
  | zero => cases h
  | succ rounds ih =>
    rw [collectWithin] at h
    obtain ⟨found, v, -, h⟩ := of_bind_eq_ok h
    cases found with
    | none =>
      cases h
      exact ⟨[], (List.append_nil _).symm⟩
    | some value =>
      obtain ⟨news, hnews⟩ := ih h
      exact ⟨value :: news,
        by rw [hnews, List.reverse_cons, List.append_assoc, List.singleton_append]⟩

/-- The statements read before stand in front. -/
theorem exists_eq_append_of_statementsWithin {item : Parser Node} {steps rounds : Nat}
    {before nodes : List Node} {v : TokenStream}
    (h : statementsWithin closing item steps rounds before s = (.ok nodes, v)) :
    ∃ news, nodes = before.reverse ++ news := by
  unfold statementsWithin at h
  obtain ⟨found, u, -, h⟩ := of_bind_eq_ok h
  cases found with
  | none =>
    cases h
    exact ⟨[], (List.append_nil _).symm⟩
  | some node =>
    obtain ⟨news, rfl⟩ := exists_of_collectWithin h
    exact ⟨node :: news, by rw [List.reverse_cons, List.append_assoc, List.singleton_append]⟩

/-- A single statement is read in one round, and the closing token in the next one. -/
theorem exists_of_statementsWithin_singleton {item : Parser Node} {steps rounds : Nat}
    {v : TokenStream} (h : statementsWithin closing item steps rounds [] s = (.ok [node], v)) :
    ∃ u, statementWithin closing item steps s = (.ok (some node), u) ∧
      statementWithin closing item u.limit u = (.ok none, v) := by
  rcases exists_of_statementsWithin h with ⟨-, hnil⟩ | ⟨node', rounds', u, hfirst, hmore⟩
  · cases hnil
  rcases exists_of_statementsWithin hmore with ⟨hsecond, hnodes⟩ | ⟨node'', rounds'', w, -, hmore'⟩
  · cases hnodes
    exact ⟨u, hfirst, hsecond⟩
  · obtain ⟨news, hnews⟩ := exists_eq_append_of_statementsWithin hmore'
    cases hnews

/-- Where neither a separator nor the closing token is next, a statement is read first, from a
stream that stands where the loop began, and the loop goes on behind it. -/
theorem exists_statementsWithin_eq (closing : TokenKind) (item : Parser Node) (hs : Reliable s)
    (hsettings : s.settings = ⟨[.base], lineBlanks⟩)
    (hnext : Next ⟨[.base], lineBlanks⟩ kind value rest s.text) (hkind : kind.isSeparator = false)
    (hne : kind ≠ closing) :
    ∃ u, Stays s u ∧ ∀ steps rounds before, statementsWithin closing item (steps + 1)
      rounds before s =
      (item >>= fun node => collectWithin (statement closing item) rounds (node :: before)) u := by
  obtain ⟨u, hstays, hskip⟩ := skipSeparatorsWithin_of_other hs (hsettings ▸ hnext) hkind
  rw [← hstays.text_eq] at hnext
  -- Neither the search for separators nor the look at the closing token reads anything, so the
  -- statement begins where the loop began.
  obtain ⟨_, v, hcheck, rfl, -⟩ := (Reads.check hnext closing).exists_apply hstays.reliable
    (hstays.later.settings_eq.trans hsettings) rfl
  obtain ⟨-, -, -, -, hstays'⟩ := (Meets.check hstays.reliable closing).of_eq_ok hcheck
  refine ⟨v, hstays.trans hstays', fun steps rounds before => ?_⟩
  unfold statementsWithin statementWithin
  rw [bind_apply, bind_apply, hskip]
  dsimp only
  rw [bind_apply, hcheck, beq_eq_false_iff_ne.2 hne]
  dsimp only
  rw [if_neg Bool.false_ne_true, bind_apply, bind_apply]
  rcases item v with ⟨e | node, w⟩
  · rfl
  · rfl

end Parser

/-- A statement goes by the next token: behind a keyword its own rule is run, and in front of
anything else that for transitions. -/
theorem RuleTable.exists_call_statement_eq (hs : Reliable s)
    (hsettings : s.settings = ⟨[.base], lineBlanks⟩)
    (hnext : Next ⟨[.base], lineBlanks⟩ kind value rest s.text) (depth : Nat) :
    ∃ u place, Stays s u ∧ standard.call (depth + 1) "statement" s =
      match statementBranches.find? (fun b : Branch => b.kind == kind) with
      | some b => (next >>= fun _ => standard.callFrom depth b.rule place) u
      | none => standard.callFrom depth "transition" place u := by
  obtain ⟨start, u, hlocation, -⟩ : ∃ start u, Parser.location s = (.ok start, u) ∧ True :=
    ⟨_, _, rfl, trivial⟩
  obtain ⟨-, -, -, hstays⟩ := (Meets.location hs).of_eq_ok hlocation
  rw [← hstays.text_eq] at hnext
  obtain ⟨token, v, htoken, his, -⟩ :=
    (Reads.choiceToken_none hnext (statementBranches.map Branch.kind)).exists_apply hstays.reliable
      (hstays.later.settings_eq.trans hsettings) rfl
  obtain ⟨-, -, -, -, hstays'⟩ := (meets_choiceToken hstays.reliable none _).of_eq_ok htoken
  refine ⟨v, token.location, hstays.trans hstays', ?_⟩
  have hread : standard.call (depth + 1) "statement" s = (do
      let token ← choiceToken none (statementBranches.map Branch.kind)
      match statementBranches.find? (fun b : Branch => b.kind == token.kind) with
      | some branch =>
        if branch.consume then let _ ← next
        standard.callFrom depth branch.rule token.location
      | none => standard.callFrom depth "transition" token.location) u := by
    show (Parser.location >>= _) s = _
    rw [bind_apply, hlocation]
    rfl
  rw [hread, bind_apply, htoken]
  dsimp only
  rw [his.kind_eq]
  cases hfound : statementBranches.find? (fun b : Branch => b.kind == kind) with
  | none => rfl
  | some b =>
    -- All keywords are read before their rules run.
    have hconsume : ∀ b ∈ statementBranches, b.consume = true := by decide
    dsimp only
    rw [hconsume b (List.mem_of_find?_eq_some hfound), if_pos rfl]

/-- What a keyword introduces is no transition. Each of the eight rules that a keyword calls makes
one kind of node, and none of them is that of a transition. -/
theorem Parser.gives_introduced {rule : String → Parser Node} {l : Leaf}
    (hl : l ∈ [Leaf.finite, .pushdown, .turing, .grammar, .initial, .final, .print, .test])
    (hrule : ∀ name s, Reliable s → (rule name).Gives s (RuleShape name)) (hs : Reliable s)
    (start : Location) :
    (l.read rule start).Gives s (·.mayGoOn = false) := by
  -- Declarations have a node of their own, whatever stands behind the name.
  have hdeclaration : ∀ kind name tapes s, Reliable s →
      (declaration rule kind name tapes start).Gives s (·.mayGoOn = false) := by
    intro kind name tapes s hs
    refine (Gives.accept hs _).bind fun found t ht _ => ?_
    split_ifs
    · exact (hrule _ t ht).bind fun value r hr _ =>
        (Gives.spanFrom hr start).bind fun span q hq _ => Gives.pure hq rfl
    · refine (hrule _ t ht).bind fun body r hr _ =>
        (Gives.spanFrom hr start).bind fun span q hq _ => ?_
      cases kind
      all_goals exact Gives.pure hq rfl
  simp only [List.mem_cons, List.not_mem_nil, or_false] at hl
  -- One case for each keyword: it makes a single kind of node, and never one of a transition.
  rcases hl with rfl | rfl | rfl | rfl | rfl | rfl | rfl | rfl
  · exact (Gives.identifier hs).bind fun name t ht _ => hdeclaration _ _ _ t ht
  · exact (Gives.identifier hs).bind fun name t ht _ =>
      (gives_header hrule ht _).bind fun _ r hr _ => hdeclaration _ _ _ r hr
  · exact (Gives.identifier hs).bind fun name t ht _ =>
      (gives_header hrule ht _).bind fun _ r hr _ => hdeclaration _ _ _ r hr
  · exact (Gives.identifier hs).bind fun name t ht _ =>
      (gives_startSymbol ht).bind fun startName r hr _ =>
      (Gives.withMode hr (hrule _)).bind fun body q hq _ =>
        (Gives.spanFrom hq start).bind fun span q' hq' _ => Gives.pure hq' rfl
  · exact (Gives.identifier hs).bind fun state t ht _ =>
      (Gives.spanFrom ht start).bind fun span q hq _ => Gives.pure hq rfl
  · exact (hrule _ s hs).bind fun states t ht _ => (Gives.spanFrom ht start).bind fun span q hq _ =>
      Gives.pure hq rfl
  · exact (hrule _ s hs).bind fun line t ht _ => (Gives.spanFrom ht start).bind fun span q hq _ =>
      Gives.pure hq rfl
  · exact (Gives.identifier hs).bind fun name t ht _ => (hrule _ t ht).bind fun inputs r hr _ =>
      (Gives.spanFrom hr start).bind fun span q hq _ => Gives.pure hq rfl

/-! ## Bodies of one transition -/

/-- But for blanks and separators, a body is a transition that stands at `front`, in front of
`tail`. -/
structure IsTransition (text : List Char) (node : Node) (front tail : List Char) : Prop where
  /-- There are separators in front of it. -/
  before : ∃ n, Separators ⟨[.base], lineBlanks⟩ ['\x7d'] n text front
  /-- It stands there. -/
  transition : Recognizer.transition lineBlanks (front ++ ['\x7d']) node (tail ++ ['\x7d'])
  /-- There are separators and blanks behind it. -/
  after : ∃ n gap, Separators ⟨[.base], lineBlanks⟩ ['\x7d'] n tail gap ∧
    gap.all Written.isSpace = true

/-- A transition begins with a name. -/
theorem Recognizer.exists_next_of_transition (h : transition lineBlanks text node rest) :
    ∃ value after, Next ⟨[.base], lineBlanks⟩ .identifier value after text := by
  have hseam : Seam [] [] := fun _ _ _ hnext => hnext
  rw [← List.append_nil text, ← List.append_nil rest] at h
  obtain ⟨value, a, -, hnext, -⟩ := exists_of_transition hseam h
  rw [List.append_nil, List.append_nil] at hnext
  exact ⟨value, a, hnext⟩

namespace RuleTable

section

variable (hs : Reliable s) (hsettings : s.settings = ⟨[.base], lineBlanks⟩) (hdepth : 8 ≤ depth)
include hs hsettings hdepth

/-- Where no keyword is next, a statement is a transition: no other rule is tried, and the
transition is recognized in the text that was read. -/
theorem transition_of_call {a : Node} {v : TokenStream}
    (hnext : Next ⟨[.base], lineBlanks⟩ kind value rest s.text)
    (hkind : statementBranches.find? (fun b : Branch => b.kind == kind) = none)
    (h : standard.call depth "statement" s = (.ok a, v)) :
    Recognizer.transition lineBlanks s.text a.bare v.text := by
  obtain ⟨depth, rfl⟩ := Nat.exists_eq_add_one_of_ne_zero (by omega : depth ≠ 0)
  obtain ⟨u, place, hstays, hcall⟩ := exists_call_statement_eq hs hsettings hnext depth
  rw [h, hkind] at hcall
  rw [← hstays.text_eq]
  exact (recognizes_transition .body depth (by omega) place).of_ok hstays.reliable
    (hstays.later.settings_eq.trans hsettings) hcall.symm

/-- A transition is read as a statement. -/
theorem exists_call_of_transition (h : Recognizer.transition lineBlanks s.text node rest) :
    ∃ a v, standard.call depth "statement" s = (.ok a, v) ∧ a.bare = node ∧ v.text = rest := by
  obtain ⟨depth, rfl⟩ := Nat.exists_eq_add_one_of_ne_zero (by omega : depth ≠ 0)
  obtain ⟨value, after, hnext⟩ := Recognizer.exists_next_of_transition h
  obtain ⟨u, place, hstays, hcall⟩ := exists_call_statement_eq hs hsettings hnext depth
  obtain ⟨a, v, hread, ha, hv⟩ :=
    ((recognizes_transition .body depth (by omega) place).reads h).exists_apply hstays.reliable
      (hstays.later.settings_eq.trans hsettings) hstays.text_eq
  exact ⟨a, v, hcall.trans hread, ha, hv⟩

/-- A statement that is a transition that may go on is introduced by no keyword. So the rule for
transitions has read it, which is called where no keyword stands. -/
theorem find?_eq_none_of_mayGoOn {a : Node} {v : TokenStream}
    (hnext : Next ⟨[.base], lineBlanks⟩ kind value rest s.text)
    (h : standard.call depth "statement" s = (.ok a, v)) (hgoes : a.mayGoOn = true) :
    statementBranches.find? (fun b : Branch => b.kind == kind) = none := by
  obtain ⟨depth, rfl⟩ := Nat.exists_eq_add_of_le' (by omega : 2 ≤ depth)
  obtain ⟨u, place, hstays, hcall⟩ := exists_call_statement_eq hs hsettings hnext (depth + 1)
  rw [show depth + 2 = depth + 1 + 1 from rfl] at h
  rw [h] at hcall
  cases hfound : statementBranches.find? (fun b : Branch => b.kind == kind) with
  | none => rfl
  -- A keyword would have called a rule that gives no transition, but the statement is one.
  | some b =>
    rw [hfound] at hcall
    have hbranch : ∀ b ∈ statementBranches,
        ∃ l ∈ [Leaf.finite, .pushdown, .turing, .grammar, .initial, .final, .print, .test],
          standard.find? b.rule = some (.leaf l) := by
      decide
    obtain ⟨l, hl, hfind⟩ := hbranch b (List.mem_of_find?_eq_some hfound)
    have hgives : (next >>= fun _ => standard.callFrom (depth + 1) b.rule place).Gives u
        (·.mayGoOn = false) := by
      refine (Gives.next hstays.reliable).bind fun _ r hr _ => ?_
      unfold callFrom
      rw [hfind]
      exact gives_introduced hl (fun name s hs => gives_call_shape hs depth name) hr place
    exact absurd (hgives.2.2 a (congrArg Prod.fst hcall.symm)) (ne_false_of_eq_true hgoes)

end

end RuleTable

/-- Where statements are read and neither a separator, the closing brace nor a keyword is next, a
transition is first. -/
theorem begins_transition_of_statementsWithin {rounds : Nat} {before nodes : List Node}
    {t : TokenStream} (hs : Reliable s) (hsettings : s.settings = ⟨[.base], lineBlanks⟩)
    (hdepth : 8 ≤ depth) (hnext : Next ⟨[.base], lineBlanks⟩ kind value rest s.text)
    (hfound : statementBranches.find? (fun b : Branch => b.kind == kind) = none)
    (hkind : kind.isSeparator = false) (hne : kind ≠ .rightBrace)
    (h : statementsWithin .rightBrace (RuleTable.standard.call depth "statement") s.limit rounds
      before s = (.ok nodes, t)) :
    (Recognizer.transition lineBlanks).Begins s.text := by
  obtain ⟨u, hstays, heq⟩ :=
    exists_statementsWithin_eq .rightBrace (RuleTable.standard.call depth "statement") hs hsettings
      hnext hkind hne
  rw [show s.limit = s.limit - 1 + 1 from rfl, heq] at h
  obtain ⟨a, v, hcall, -⟩ := of_bind_eq_ok h
  rw [← hstays.text_eq] at hnext ⊢
  exact ⟨_, _, RuleTable.transition_of_call hstays.reliable
    (hstays.later.settings_eq.trans hsettings) hdepth hnext hfound hcall⟩

/-- A body that is read as one transition that may go on is that transition, with separators and
blanks around it and nothing else in front of the closing brace. -/
theorem exists_isTransition {text : String} (h : readBody text = some [node])
    (hgoes : node.mayGoOn = true) :
    ∃ front tail, IsTransition text.toList node front tail := by
  obtain ⟨s, depth, news, t, hs, hdepth, hnews, hempty, hrun⟩ := exists_of_readBody h
  obtain ⟨a, rfl, rfl⟩ : ∃ a, news = [a] ∧ a.bare = node := List.map_eq_singleton_iff.1 hnews
  have hgives : ∀ r, Reliable r → (RuleTable.standard.call depth "statement").Gives r fun _ =>
      True :=
    fun r hr => RuleTable.gives_call hr depth "statement"
  have hinner := Settings.Inner.of_ofLine .line
  rw [RuleTable.depthLimit_standard] at hdepth
  -- The first round reads the transition, and the second one the closing brace.
  obtain ⟨v, hfirst, hsecond⟩ := exists_of_statementsWithin_singleton hrun
  obtain ⟨hv, hlater, -⟩ :
      (statementWithin .rightBrace (RuleTable.standard.call depth "statement") s.limit).Gives s
      fun _ => True := gives_statementWithin hgives hs.reliable s.limit
  rw [hfirst] at hv hlater
  have hsettings : v.settings = ⟨[.base], lineBlanks⟩ := hlater.settings_eq.trans hs.settings_eq
  obtain ⟨s₀, u, hskip, hstays, hitem⟩ := exists_of_statementWithin_some hs.reliable hfirst
  obtain ⟨s₁, hskip', hclosing⟩ := exists_of_statementWithin_none hv hsettings hsecond
  obtain ⟨gap, hgap, hblanks⟩ := (hempty ▸ hclosing).exists_blanks
  obtain ⟨hs₀, hlater₀, -⟩ := gives_skipSeparatorsWithin hs.reliable s.limit
  rw [hskip] at hlater₀
  have hsettings' : u.settings = ⟨[.base], lineBlanks⟩ :=
    hstays.later.settings_eq.trans (hlater₀.settings_eq.trans hs.settings_eq)
  obtain ⟨-, hlater', -⟩ := hgives u hstays.reliable
  rw [hitem] at hlater'
  obtain ⟨hs₁, hlater₁, -⟩ := gives_skipSeparatorsWithin hv v.limit
  rw [hskip'] at hs₁ hlater₁
  -- The closing brace is ahead everywhere in front of it.
  obtain ⟨tail, htail⟩ := MachineLang.exists_between (hgap ▸ hv.text_suffix hs₁ hlater₁)
  obtain ⟨front, hfront⟩ :=
    MachineLang.exists_between (htail ▸ hstays.reliable.text_suffix hv hlater')
  obtain ⟨kind, value, rest, hnext⟩ := Next.exists_of_text .body [.base] u.text
  have htransition := RuleTable.transition_of_call hstays.reliable hsettings' (by omega) hnext
    (RuleTable.find?_eq_none_of_mayGoOn hstays.reliable hsettings' (by omega) hnext hitem
      (a.mayGoOn_bare.symm.trans hgoes))
    hitem
  obtain ⟨-, n, -, hbefore, -⟩ :=
    (Beside.alone hs.reliable hs.text_eq).separators (hs.settings_eq ▸ hinner) hskip
      (hstays.text_eq.symm.trans hfront)
  obtain ⟨-, m, -, hafter, -⟩ := (Beside.alone hv htail).separators (hsettings ▸ hinner) hskip' hgap
  refine ⟨front, tail, ⟨n, hs.settings_eq ▸ hbefore⟩, ?_, m, gap, hsettings ▸ hafter, hblanks⟩
  rw [← hfront, ← htail]
  exact htransition

/-! ## Two bodies, with blanks between them -/

/-- A body is a transition of a finite or of a pushdown automaton, and there is more of it behind
the body. -/
def GoesOn (text : List Char) (node : Node) (behind : List Char) : Prop :=
  node.mayGoOn = true ∧ ∃ front tail, IsTransition text node front tail ∧
    Overruns (front ++ behind) (tail ++ behind)

/-- Blanks end words: every character of a gap is one at which a word ends. -/
theorem Written.mem_wordEnds_of_all (h : gap.all isSpace = true) : ∀ c ∈ gap, c ∈ wordEnds := by
  intro c hc
  have hspace := List.all_eq_true.1 h c hc
  simp only [isSpace, CharSet.contains, SetItem.contains, List.any_cons, List.any_nil,
    Bool.or_false, Bool.or_eq_true, beq_iff_eq] at hspace
  rcases hspace with rfl | rfl | rfl
  all_goals decide

/-- What stands in front of a closing brace is cut alike in front of another body, with blanks
between. -/
theorem Seam.of_readBody {joint second : String} {nodes : List Node}
    (h : readBody second = some nodes) (hne : joint ≠ "")
    (hjoint : joint.toList.all Written.isSpace = true) :
    Seam ['\x7d'] (joint.toList ++ (second.toList ++ ['\x7d'])) :=
  Seam.of_opens (Written.mem_wordEnds_of_all hjoint)
    (fun hnil => hne (String.toList_eq_nil_iff.1 hnil)) (exists_statementsWithin_of_readBody h).1

namespace IsTransition

variable {front tail : List Char} (hone : IsTransition text node front tail)
  (hseam : Seam ['\x7d'] r')
include hone hseam

/-- The transition is read first in front of another ending as well, where nothing else may come of
the separators. -/
theorem exists_statementsWithin_eq (item : Parser Node) (hs : Reliable s)
    (hsettings : s.settings = ⟨[.base], lineBlanks⟩) (htext : s.text = text ++ r') :
    ∃ n u, n ≤ text.length ∧ Reliable u ∧ Later s u ∧ u.text = front ++ r' ∧
      ∀ k rounds before, Parser.statementsWithin .rightBrace item (n + (k + 1)) rounds before s =
        (item >>= fun node => collectWithin (statement .rightBrace item) rounds (node :: before))
          u := by
  obtain ⟨n, hbefore⟩ := hone.before
  have hle := hbefore.length_add_le
  obtain ⟨v, hv, hlater, hfront, hskip⟩ := (hbefore.carries hseam).exists_skip hs hsettings htext
  obtain ⟨value, _, a, hnext, -⟩ := exists_of_transition hseam hone.transition
  have hnext' := hseam (by decide) .body (by decide) hnext
  rw [← hfront] at hnext'
  obtain ⟨u, hstays, heq⟩ := Parser.exists_statementsWithin_eq .rightBrace item hv
    (hlater.settings_eq.trans hsettings) hnext' (by decide) (by decide)
  refine ⟨n, u, by omega, hstays.reliable, hlater.trans hstays.later, hstays.text_eq.trans hfront,
    fun k rounds before => ?_⟩
  rw [statementsWithin_congr (hskip (k + 1)), heq]

/-- Behind the transition, separators are skipped in front of another ending as well. -/
theorem exists_skip_behind (hs : Reliable s) (hsettings : s.settings = ⟨[.base], lineBlanks⟩)
    (htext : s.text = tail ++ r') :
    ∃ n u gap, n ≤ tail.length ∧ Reliable u ∧ Later s u ∧ gap.all Written.isSpace = true ∧
      u.text = gap ++ r' ∧
      ∀ k, skipSeparatorsWithin (n + k) s = skipSeparatorsWithin k u := by
  obtain ⟨n, gap, hafter, hgap⟩ := hone.after
  have hle := hafter.length_add_le
  obtain ⟨u, hu, hlater, hrest, hskip⟩ := (hafter.carries hseam).exists_skip hs hsettings htext
  exact ⟨n, u, gap, by omega, hu, hlater, hgap, hrest, hskip⟩

/-- In front of another ending, no colon is next behind the transition. -/
theorem avoidsColon (hopens : Opens r') : AvoidsColon r' lineBlanks tail := by
  intro value rest hcolon
  obtain ⟨n, gap, hafter, hgap⟩ := hone.after
  have hne : ∀ kind : TokenKind, kind.isSeparator = true ∨ kind ∈ openingKinds → kind ≠ .colon := by
    rintro kind hkind rfl
    exact absurd hkind (by decide)
  rcases (hafter.carries hseam).next_or_eq with ⟨kind, _, _, hkind, hnext⟩ | rfl
  · exact hne kind (.inl hkind) (hnext.unique .body (by decide) hcolon).1
  · obtain ⟨kind, hkind, _, _, hnext⟩ := (hopens.blanks hgap).exists_next
    exact hne kind (.inr hkind) (hnext.unique .body (by decide) hcolon).1

end IsTransition

section

variable {first second : String} {nodes : List Node} (h : readBody first = some [node])
  (h' : readBody second = some nodes) {joint : String} (hne : joint ≠ "")
  (hjoint : joint.toList.all Written.isSpace = true)
include h h' hjoint hne

/-- With blanks between them, two bodies read as one behind the other does if the first one does not
go on. -/
theorem readBody_append_of_not_goesOn
    (hnot : ¬ GoesOn first.toList node (joint.toList ++ (second.toList ++ ['\x7d']))) :
    readBody (first ++ joint ++ second) = some (node :: nodes) := by
  have hends := Written.mem_wordEnds_of_all hjoint
  by_cases hgoes : node.mayGoOn = true
  swap
  · refine readBody_append h h' hends hne (.inr (.inr (.inl ?_)))
    exact List.forall_mem_singleton.2 (Bool.eq_false_iff.2 hgoes)
  obtain ⟨front, tail, hone⟩ := exists_isTransition h hgoes
  obtain ⟨hopens, hlength, hback⟩ := exists_statementsWithin_of_readBody h'
  have hseam : Seam ['\x7d'] (joint.toList ++ (second.toList ++ ['\x7d'])) :=
    Seam.of_readBody h' hne hjoint
  have htransition := transition_of_not_overruns hseam hgoes hone.transition
    (hone.avoidsColon hseam (hopens.append hends)) fun hover =>
      hnot ⟨hgoes, front, tail, hone, hover⟩
  refine readBody_of_statementsWithin fun s depth hs hdepth => ?_
  rw [RuleTable.depthLimit_standard, utf8ByteSize_braces] at hdepth
  obtain ⟨n, u, hn, hu, hlater, hfront, heq⟩ := hone.exists_statementsWithin_eq hseam
    (RuleTable.standard.call depth "statement") hs.reliable hs.settings_eq
    (by rw [hs.text_eq, String.toList_append, String.toList_append, List.append_assoc,
      List.append_assoc])
  obtain ⟨a, v, hcall, ha, htail⟩ :=
    RuleTable.exists_call_of_transition hu (hlater.settings_eq.trans hs.settings_eq)
      (by omega : 8 ≤ depth) (hfront ▸ htransition)
  obtain ⟨hv, hlater', -⟩ := RuleTable.gives_call hu depth "statement"
  rw [hcall] at hv hlater'
  have hsettings : v.settings = ⟨[.base], lineBlanks⟩ :=
    hlater'.settings_eq.trans (hlater.settings_eq.trans hs.settings_eq)
  -- Behind the transition separators and blanks are skipped up to the second body, which is read as
  -- it is alone.
  obtain ⟨m, w, gap, hm, hw, hlater₁, hgap, hrest, hskip⟩ :=
    hone.exists_skip_behind hseam hv hsettings htail
  have hlimit := hs.limit_eq
  rw [String.utf8ByteSize_append, String.utf8ByteSize_append] at hlimit hdepth
  have hlimit' : v.limit = s.limit := (hlater.trans hlater').limit_eq
  have hlimit₁ : w.limit = v.limit := hlater₁.limit_eq
  have hshorter : v.text.length ≤ s.text.length :=
    hs.reliable.length_text_le hv (hlater.trans hlater')
  rw [htail, hs.text_eq] at hshorter
  simp only [String.toList_append, List.length_append] at hshorter
  have hchars := length_toList_le first
  have hpos := length_toList_le joint
  have hjoint' := List.length_pos_of_ne_nil fun hnil => hne (String.toList_eq_nil_iff.1 hnil)
  obtain ⟨k, hk⟩ : ∃ k, s.limit = n + (k + 1) := ⟨s.limit - n - 1, by omega⟩
  obtain ⟨left, hleft⟩ : ∃ left, v.limit = m + left := ⟨v.limit - m, by omega⟩
  obtain ⟨more, hmore⟩ : ∃ more, s.limit - 1 = nodes.length + more + 1 :=
    ⟨s.limit - 1 - nodes.length - 1, by omega⟩
  obtain ⟨news, t', hnews, hempty, hbehind⟩ := hback w depth left more [a] (gap ++ joint.toList) hw
    (hlater₁.settings_eq.trans hsettings) (by rw [List.all_append, hgap, hjoint, Bool.and_self])
    (by rw [hrest, List.append_assoc]) (by omega) (by omega) (by omega)
  refine ⟨a :: news, t', by rw [List.map_cons, ha, hnews], hempty, ?_⟩
  rw [hmore, hk, heq, bind_apply, hcall]
  dsimp only
  rw [collectWithin_statement, hleft, statementsWithin_congr (hskip left), hbehind]
  rfl

/-- With blanks between them, two bodies do not read as one behind the other does if the first one
goes on. -/
theorem not_goesOn_of_readBody_append
    (hread : readBody (first ++ joint ++ second) = some (node :: nodes)) :
    ¬ GoesOn first.toList node (joint.toList ++ (second.toList ++ ['\x7d'])) := by
  rintro ⟨hgoes, front, tail, hone, hover⟩
  have hseam : Seam ['\x7d'] (joint.toList ++ (second.toList ++ ['\x7d'])) :=
    Seam.of_readBody h' hne hjoint
  obtain ⟨s, depth, news, t, hs, hdepth, hnews, hempty, hrun⟩ := exists_of_readBody hread
  rw [RuleTable.depthLimit_standard, utf8ByteSize_braces] at hdepth
  have hlimit := hs.limit_eq
  rw [String.utf8ByteSize_append, String.utf8ByteSize_append] at hlimit
  obtain ⟨n, u, hn, hu, hlater, hfront, heq⟩ := hone.exists_statementsWithin_eq hseam
    (RuleTable.standard.call depth "statement") hs.reliable hs.settings_eq
    (by rw [hs.text_eq, String.toList_append, String.toList_append, List.append_assoc,
      List.append_assoc])
  have hchars := length_toList_le first
  obtain ⟨k, hk⟩ : ∃ k, s.limit = n + (k + 1) := ⟨s.limit - n - 1, by omega⟩
  rw [hk, heq] at hrun
  obtain ⟨hv, hlater', -⟩ := RuleTable.gives_call hu depth "statement"
  obtain ⟨a, v, hcall, hrun⟩ := of_bind_eq_ok hrun
  rw [hcall] at hv hlater'
  obtain ⟨others, rfl⟩ := exists_of_collectWithin hrun
  obtain ⟨rfl, -⟩ := List.cons.inj hnews
  -- The first statement is read as the same transition, so it puts nothing on the stacks.
  have hsettings : u.settings = ⟨[.base], lineBlanks⟩ := hlater.settings_eq.trans hs.settings_eq
  obtain ⟨_, _, _, hname, -⟩ := exists_of_transition hseam hone.transition
  have htransition :=
    RuleTable.transition_of_call hu hsettings (by omega)
      (hfront ▸ hseam (by decide) .body (by decide) hname)
    rfl hcall
  rw [hfront] at htransition
  obtain ⟨after, list, hpush, hlist, hnil⟩ :=
    exists_push_of_overruns hseam hgoes hone.transition htransition hover
  -- The word for that begins the second body, so an arrow is left, with which no statement begins.
  have hsecond : Next ⟨[.base], lineBlanks⟩ .identifier "push".toList after
      (second.toList ++ ['\x7d']) := by
    obtain ⟨m, gap, hafter, hgap⟩ := hone.after
    rcases (hafter.carries hseam).next_or_eq with ⟨kind, _, _, hkind, hnext⟩ | rfl
    · rw [(hnext.unique .body (by decide) hpush).1] at hkind
      exact absurd hkind (by decide)
    · exact (Next.blanks_iff .body (by decide) hjoint).1
        ((Next.blanks_iff .body (by decide) hgap).1 hpush)
  obtain ⟨s₂, d₂, news₂, t₂, hs₂, hd₂, -, -, hnews₂⟩ := exists_of_readBody h'
  rw [RuleTable.depthLimit_standard, utf8ByteSize_braces] at hd₂
  rw [← hs₂.text_eq] at hsecond
  obtain ⟨_, _, htransition'⟩ :=
    begins_transition_of_statementsWithin hs₂.reliable hs₂.settings_eq (by omega) hsecond rfl
      (by decide) (by decide) hnews₂
  obtain ⟨_, _, harrow⟩ := arrow_of_push_nil hsecond htransition' hlist hnil
  obtain ⟨rounds, hrounds⟩ : ∃ rounds, n + (k + 1) - 1 = rounds + 1 := ⟨n + k - 1, by omega⟩
  rw [hrounds, collectWithin_statement] at hrun
  obtain ⟨_, _, hbegins⟩ :=
    begins_transition_of_statementsWithin hv (hlater'.settings_eq.trans hsettings) (by omega) harrow
    rfl (by decide) (by decide) hrun
  obtain ⟨_, _, hname'⟩ := Recognizer.exists_next_of_transition hbegins
  exact absurd (harrow.unique .body (by decide) hname').1 (by decide)

end

/-- Line ends and semicolons may stand between two statements alike, and blanks may as well unless
the first statement is a transition that goes on in the second one. -/
theorem readBody_separated {first second : String} {node node' : Node}
    (h : readBody first = some [node]) (h' : readBody second = some [node']) :
    readBody (first ++ "\n" ++ second) = some [node, node'] ∧ readBody (first ++ " ; " ++ second) =
      some [node, node'] ∧
      (readBody (first ++ " " ++ second) = some [node, node'] ↔
        ¬ GoesOn first.toList node (' ' :: (second.toList ++ ['\x7d']))) :=
  -- Computed, because a decision for all characters of a text may try every character there is.
  have hends : ∀ joint : String, joint.toList.all wordEnds.contains = true → ∀ c ∈ joint.toList,
      c ∈ wordEnds :=
    fun _ hall c hc => List.contains_iff_mem.1 (List.all_eq_true.1 hall c hc)
  ⟨readBody_append h h' (hends "\n" (by decide)) (by decide) (.inl (by decide)),
    readBody_append h h' (hends " ; " (by decide)) (by decide) (.inr (.inl (by decide))),
    not_goesOn_of_readBody_append h h' (show " " ≠ "" by decide) rfl,
    readBody_append_of_not_goesOn h h' (show " " ≠ "" by decide) rfl⟩

/-- A transition of a finite automaton, without places. -/
def Node.plain (source symbol target : String) : Node :=
  .finiteTransition ⟨source, .invalid⟩ (.character symbol .invalid) ⟨target, .invalid⟩ .invalid

/-- Whether a node is such a transition. -/
def Node.isPlain (source symbol target : String) : Node → Bool
  | .finiteTransition p (.character c inner) q outer =>
    p == ⟨source, .invalid⟩ && c == symbol && inner == .invalid && q == ⟨target, .invalid⟩ &&
      outer == .invalid
  | _ => false

/-- A body that is read as one node which is such a transition is read as that transition. -/
theorem readBody_eq_plain {text source symbol target : String}
    (h : (readBody text).map (List.map (Node.isPlain source symbol target)) = some [true]) :
    readBody text = some [.plain source symbol target] := by
  obtain ⟨nodes, hread, hnodes⟩ := Option.map_eq_some_iff.1 h
  obtain ⟨n, rfl, hn⟩ := List.map_eq_singleton_iff.1 hnodes
  rw [hread]
  unfold Node.isPlain at hn
  split at hn
  · simp only [Bool.and_eq_true, beq_iff_eq] at hn
    obtain ⟨⟨⟨⟨rfl, rfl⟩, rfl⟩, rfl⟩, rfl⟩ := hn
    rfl
  · cases hn

/-- What becomes of two transitions, the second of which reads a symbol that is a movement as well,
alone and with a blank between them. -/
theorem readBody_plains :
    readBody "p a -> q" = some [.plain "p" "a" "q"] ∧
      readBody "x < -> y" = some [.plain "x" "<" "y"] ∧
    readBody ("p a -> q" ++ " " ++ "x < -> y") = none :=
  ⟨readBody_eq_plain (by decide +kernel), readBody_eq_plain (by decide +kernel), by decide +kernel⟩

/-- With a blank between them, the first one is read as one of a Turing machine, and what is left of
the second one is refused. -/
theorem readBody_swallowing : readBody "p a -> q" = some [.plain "p" "a" "q"] ∧
    readBody "x < -> y" = some [.plain "x" "<" "y"] ∧
    readBody ("p a -> q" ++ " " ++ "x < -> y") ≠ some [.plain "p" "a" "q", .plain "x" "<" "y"] := by
  obtain ⟨h, h', hlost⟩ := readBody_plains
  refine ⟨h, h', ?_⟩
  rw [hlost]
  exact nofun

/-- Those two transitions are read with a line end or a semicolon between them, and the first one
goes on in the second one. -/
theorem readBody_separated_swallowing : readBody "p a -> q" = some [.plain "p" "a" "q"] ∧
    readBody "x < -> y" = some [.plain "x" "<" "y"] ∧
    readBody ("p a -> q" ++ "\n" ++ "x < -> y") = some [.plain "p" "a" "q", .plain "x" "<" "y"] ∧
    readBody ("p a -> q" ++ " ; " ++ "x < -> y") = some [.plain "p" "a" "q", .plain "x" "<" "y"] ∧
    GoesOn "p a -> q".toList (.plain "p" "a" "q") (' ' :: ("x < -> y".toList ++ ['\x7d'])) := by
  obtain ⟨h, h', hlost⟩ := readBody_plains
  obtain ⟨hline, hsemicolon, hblank⟩ := readBody_separated h h'
  refine ⟨h, h', hline, hsemicolon, by_contra fun hnot => ?_⟩
  cases hlost.symm.trans (hblank.2 hnot)

end MachineLang
