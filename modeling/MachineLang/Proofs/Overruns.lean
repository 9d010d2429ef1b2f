import MachineLang.Proofs.StatementEnds

/-!
# Transitions that overrun their ending

A transition of a finite or of a pushdown automaton that is recognized in front of one ending need
not be in front of another one. There may be more of it: what it writes and how it moves, so that it
is one of a Turing machine, or symbols for the stacks behind their word (`Overruns`). If there is no
more of it, it is the same transition (`transition_of_not_overruns`). If there is, it is another
one, except that it may put nothing on the stacks as before (`exists_push_of_overruns`); but then an
arrow is left behind the brackets (`arrow_of_push_nil`).
-/

namespace MachineLang

open Recognizer

variable {kind : TokenKind} {value rest text after r r' t t' : List Char} {node : Node}

/-- There is more of a transition than what stands in front of `rest`: the whole text begins with a
transition of a Turing machine, or the transition ends with its target and the word for symbols to
put on the stacks is next. Behind the word such symbols follow if nothing is taken from the
stacks. -/
def Overruns (whole rest : List Char) : Prop :=
  (turingTransition lineBlanks).Begins whole ∨
    ∃ source symbol pop target after, edge readAndPop whole (source, (symbol, pop), target) rest ∧
      Next ⟨[.base], lineBlanks⟩ .identifier "push".toList after rest ∧
      (pop.isSome = true ∨ (symbols lineBlanks).Begins after)

/-- A transition of a Turing machine does not go on. -/
theorem Recognizer.mayGoOn_of_turing (h : turingTransition lineBlanks text node rest) :
    node.mayGoOn = false := by
  obtain ⟨_, _, _, _, _, _, _, -, -, -, rfl⟩ := turingTransition_iff.1 h
  rfl

/-- A transition that is one of a pushdown automaton elsewhere is one here. -/
theorem Recognizer.pushdown_of_transition (h : transition lineBlanks text node rest)
    (h' : pushdownTransition lineBlanks t node t') :
    pushdownTransition lineBlanks text node rest := by
  obtain ⟨_, _, _, _, _, _, -, -, -, rfl⟩ := pushdownTransition_iff.1 h'
  rcases h with h | ⟨-, h | ⟨-, h⟩⟩
  · cases mayGoOn_of_turing h
  · exact h
  · obtain ⟨_, _, _, -, hnode⟩ := finiteTransition_iff.1 h
    cases hnode

/-- A transition that is one of a finite automaton elsewhere is one here. -/
theorem Recognizer.finite_of_transition (h : transition lineBlanks text node rest)
    (h' : finiteTransition lineBlanks t node t') : finiteTransition lineBlanks text node rest := by
  obtain ⟨_, _, _, -, rfl⟩ := finiteTransition_iff.1 h'
  rcases h with h | ⟨-, h | ⟨-, h⟩⟩
  · cases mayGoOn_of_turing h
  · obtain ⟨_, _, _, _, _, _, -, -, -, hnode⟩ := pushdownTransition_iff.1 h
    cases hnode
  · exact h

/-- A word that is next, with its text written out. -/
theorem Next.of_word {word : String} (h : Next ⟨[.base], lineBlanks⟩ kind value rest text)
    (hvalue : .ofList value = word) :
    Next ⟨[.base], lineBlanks⟩ kind word.toList rest text := by
  rwa [← hvalue, String.toList_ofList]

section

variable (hseam : Seam r r') (hgoes : node.mayGoOn = true)
include hseam hgoes

/-- A transition that does not overrun its ending is the same in front of the other one. -/
theorem transition_of_not_overruns (h : transition lineBlanks (t ++ r) node (t' ++ r))
    (hcolon : AvoidsColon r' lineBlanks t') (hover : ¬ Overruns (t ++ r') (t' ++ r')) :
    transition lineBlanks (t ++ r') node (t' ++ r') := by
  rcases h with h | ⟨-, h | ⟨-, h⟩⟩
  · exact absurd (mayGoOn_of_turing h) (ne_false_of_eq_true hgoes)
  · obtain ⟨source, symbol, pop, target, mid, push, hedge, hpush, hsome, rfl⟩ :=
      pushdownTransition_iff.1 h
    obtain ⟨a, rfl⟩ := exists_between (Shortens.symbolsAfter _ _ _ _ _ hpush)
    have hedge' := edge_readAndPop_carries hseam hedge
    refine .inr ⟨fun hturing => hover (.inl hturing), .inl (pushdownTransition_iff.2
      ⟨source, symbol, pop, target, a ++ r', push, hedge', symbolsAfter_iff.2 ?_, hsome, rfl⟩)⟩
    -- Its symbols are read alike; if it has none it ends with its target, and the word for them
    -- must not be next.
    rcases symbolsAfter_iff.1 hpush with ⟨value, mid, list, hname, hvalue, hlist, rfl⟩ |
      ⟨_, _, _, -, -, rfl, htext⟩
    · obtain ⟨b, rfl⟩ := exists_between (Shortens.symbols _ _ _ _ hlist)
      exact .inl ⟨value, _, list, hseam (by decide) .body (by decide) hname, hvalue,
        (Carries.symbols hseam _ _ _ hlist hcolon).2, rfl⟩
    · obtain rfl := List.append_cancel_right htext
      obtain ⟨kind, value, mid, hnext⟩ := Next.exists_of_text .body [.base] (t' ++ r')
      refine .inr ⟨kind, value, mid, hnext, ?_, rfl, rfl⟩
      rintro ⟨rfl, hvalue⟩
      rw [Option.isNone_none, Bool.and_true, Option.isNone_eq_false_iff] at hsome
      exact hover (.inr ⟨source, symbol, pop, target, mid, hedge', hnext.of_word hvalue,
        .inl hsome⟩)
  · obtain ⟨source, symbol, target, hedge, rfl⟩ := finiteTransition_iff.1 h
    refine .inr ⟨fun hturing => hover (.inl hturing), .inr ⟨?_, finiteTransition_iff.2
      ⟨source, symbol, target, edge_condition_carries hseam hedge, rfl⟩⟩⟩
    -- A transition of a pushdown automaton that begins here pops nothing and ends with the same
    -- target, so it pushes.
    rintro ⟨_, _, hpushdown⟩
    obtain ⟨_, symbol', pop, _, _, push, hedge', hpush, hsome, -⟩ :=
      pushdownTransition_iff.1 hpushdown
    obtain ⟨rfl, rfl, rfl, hedge''⟩ :=
      edge_retraces hseam (Leads.condition Settings.OfLine.line.symbols) (Shortens.condition _)
        Retraces.readAndPop hedge hedge'
    obtain rfl := pop_eq_none hedge hedge''
    rcases symbolsAfter_iff.1 hpush with ⟨value, mid, list, hname, hvalue, hlist, -⟩ |
      ⟨_, _, _, -, -, rfl, -⟩
    · exact hover (.inr ⟨_, _, _, _, mid, hedge', hname.of_word hvalue, .inr ⟨_, _, hlist⟩⟩)
    · exact absurd hsome (by decide)

/-- A transition that overruns its ending and is still the same puts nothing on the stacks, in front
of the ending without the word for it and in front of the other one with it. -/
theorem exists_push_of_overruns (h : transition lineBlanks (t ++ r) node (t' ++ r))
    (h' : transition lineBlanks (t ++ r') node rest) (hover : Overruns (t ++ r') (t' ++ r')) :
    ∃ after list, Next ⟨[.base], lineBlanks⟩ .identifier "push".toList after (t' ++ r') ∧
      symbols lineBlanks after list rest ∧ list.items = [] := by
  rcases h' with h' | ⟨hturing, h' | ⟨hpushdown, h'⟩⟩
  · exact absurd (mayGoOn_of_turing h') (ne_false_of_eq_true hgoes)
  · obtain hover | ⟨_, _, _, _, after, hedge, hword, -⟩ := hover
    · exact absurd hover hturing
    obtain ⟨source, symbol, pop, target, mid, push, hedge', hpush, -, hnode⟩ :=
      pushdownTransition_iff.1 h'
    -- In front of the one ending it is a transition of a pushdown automaton as well, and ends with
    -- its target.
    obtain ⟨_, _, _, _, _, push', hedge₁, hpush', -, hnode'⟩ :=
      pushdownTransition_iff.1 (pushdown_of_transition h h')
    obtain ⟨a, rfl⟩ := exists_between (Shortens.symbolsAfter _ _ _ _ _ hpush')
    obtain ⟨heq, -⟩ :=
      edge_retraces hseam Leads.readAndPop Shortens.readAndPop Retraces.readAndPop hedge₁ hedge
    obtain rfl := List.append_cancel_right heq
    obtain ⟨rfl, -⟩ :=
      edge_retraces hseam Leads.readAndPop Shortens.readAndPop Retraces.readAndPop hedge₁ hedge'
    have hnone : push' = Option.none := by
      rcases symbolsAfter_iff.1 hpush' with ⟨_, _, _, hname, -, hlist, -⟩ | ⟨_, _, _, -, -, rfl, -⟩
      · have hlt := hname.length_lt (by decide)
        have hle := (Shortens.symbols _ _ _ _ hlist).length_le
        omega
      · rfl
    subst hnone
    rcases symbolsAfter_iff.1 hpush with ⟨_, mid, list, hname, hvalue, hlist, rfl⟩ |
      ⟨_, _, _, hnext, hother, -, -⟩
    · refine ⟨mid, list, hname.of_word hvalue, hlist, ?_⟩
      obtain ⟨-, -, -, -, hitems, -⟩ := Node.pushdownTransition.inj (hnode.symm.trans hnode')
      exact hitems
    · obtain ⟨rfl, rfl, -⟩ := hword.unique .body (by decide) hnext
      exact absurd ⟨rfl, String.ofList_toList⟩ hother
  · -- A transition of a finite automaton that overruns would have been one of a pushdown automaton.
    obtain hover | ⟨_, symbol', pop, _, after, hedge, hword, hmore⟩ := hover
    · exact absurd hover hturing
    obtain ⟨_, _, _, hedge', -⟩ := finiteTransition_iff.1 (finite_of_transition h h')
    obtain rfl := pop_eq_none (edge_condition_carries hseam hedge') hedge
    obtain ⟨list, _, hlist⟩ := hmore.resolve_left (by decide)
    exact absurd ⟨_, _, pushdownTransition_iff.2 ⟨_, _, _, _, _, _, hedge,
      symbolsAfter_iff.2 (.inl ⟨_, after, list, hword, String.ofList_toList, hlist, rfl⟩), rfl,
        rfl⟩⟩ hpushdown

end

/-- Where the word for symbols to put on the stacks is a name, and brackets without symbols stand
behind it, an arrow is left behind them. -/
theorem arrow_of_push_nil {list : Node}
    (hname : Next ⟨[.base], lineBlanks⟩ .identifier value after text)
    (h : transition lineBlanks text node rest) (hlist : symbols lineBlanks after list t)
    (hnil : list.items = []) :
    ∃ arrow rest', Next ⟨[.base], lineBlanks⟩ .arrow arrow rest' t := by
  -- The brackets, and nothing in them.
  obtain ⟨kind, opening, mid, hopen, ⟨rfl, hbrackets⟩ | ⟨-, item, -, rfl⟩⟩ := listOf_iff.1 hlist
  swap
  · cases hnil
  obtain ⟨_, mid', hopen', ⟨closing, hclose, -⟩ |
      ⟨_, _, _, nodes, _, _, -, -, helements, -, rfl⟩⟩ := bracketed_iff.1 hbrackets
  swap
  · obtain rfl : nodes = [] := hnil
    cases helements
  have hskips : SkipsBlanks (.newline :: lineBlanks) := SkipsBlanks.body.newline
  obtain ⟨-, -, rfl⟩ := (hopen.ignore_newline (by decide)).unique hskips (by decide) hopen'
  -- What is read in front of the arrow ends behind the opening bracket, or is the brackets.
  have hinside : ∀ {kind value rest}, kind ≠ .newline → kind ≠ .rightBracket →
      ¬ Next ⟨[.base], lineBlanks⟩ kind value rest mid := fun hline hne hnext =>
    hne ((hnext.ignore_newline hline).unique hskips (by decide) hclose).1
  rcases h with h | ⟨-, h | ⟨-, h⟩⟩
  · obtain ⟨_, read, _, _, _, _, _, hedge, -⟩ := turingTransition_iff.1 h
    obtain ⟨_, _, mid', arrow, rest', _, hname', hread, harrow, -⟩ := edge_iff.1 hedge
    obtain ⟨-, -, rfl⟩ := hname.unique .body (by decide) hname'
    obtain ⟨_, _, _, hopen₁, ⟨-, hread⟩ | ⟨hkind, -⟩⟩ := listOf_iff.1 hread
    · obtain ⟨_, _, hopen₂, ⟨_, hclose', -⟩ | ⟨_, _, _, _, _, _, hnext, hkind, -⟩⟩ :=
        bracketed_iff.1 hread
      · obtain ⟨-, -, rfl⟩ := hopen'.unique hskips (by decide) hopen₂
        obtain ⟨-, -, rfl⟩ := hclose.unique hskips (by decide) hclose'
        exact ⟨arrow, rest', harrow⟩
      · obtain ⟨-, -, rfl⟩ := hopen'.unique hskips (by decide) hopen₂
        exact absurd (hclose.unique hskips (by decide) hnext).1.symm hkind
    · exact absurd (hopen.unique .body (by decide) hopen₁).1.symm hkind
  · obtain ⟨_, _, _, _, _, _, hedge, -⟩ := pushdownTransition_iff.1 h
    obtain ⟨_, _, _, _, _, _, hname', ⟨_, _, hsymbol, _, _, hpop, hread, rfl⟩, harrow, -⟩ :=
      edge_iff.1 hedge
    obtain ⟨-, -, rfl⟩ := hname.unique .body (by decide) hname'
    obtain rfl := end_of_condition .body hopen (by decide) hsymbol
    rcases symbolsAfter_iff.1 hpop with ⟨_, _, _, hnext, -⟩ | ⟨_, _, _, -, -, -, rfl⟩
    · exact absurd hnext (hinside (by decide) (by decide))
    · exact absurd harrow (hinside (by decide) (by decide))
  · obtain ⟨_, _, _, hedge, -⟩ := finiteTransition_iff.1 h
    obtain ⟨_, _, _, _, _, _, hname', hsymbol, harrow, -⟩ := edge_iff.1 hedge
    obtain ⟨-, -, rfl⟩ := hname.unique .body (by decide) hname'
    obtain rfl := end_of_condition .body hopen (by decide) hsymbol
    exact absurd harrow (hinside (by decide) (by decide))

end MachineLang
