import MachineLang.Proofs.RuleFollowing
import MachineLang.Proofs.StatementEnds

/-!
# Transitions side by side

The rules for symbols, movements and transitions are followed by themselves in the other source.
Behind a symbol for a tape no colon may follow, and behind a transition there has to be what may
follow a statement (`Continues`): then no form of a transition that is tried earlier begins in front
of the other ending if it does not in front of the one.
-/

namespace MachineLang

open MachineLang.Parser MachineLang.Recognizer

variable {J : Splice} {P Q : List Char → Prop} {d n : Nat} {name : String}
  {ignored : List TokenKind}

namespace RuleFollows

/-! ## Symbols and movements -/

section

variable (hsettings : Settings.OfLine ⟨[.base], ignored⟩)
include hsettings

/-- The rule for symbols, which reads a single token in the mode for characters, reads the same
symbol in front of both endings where they are alike. -/
theorem condition (hd : 2 ≤ d) :
    RuleFollows J ⟨[.base], ignored⟩ d d "condition" (Alike J.rest J.rest') fun _ _ => True := by
  obtain ⟨d, rfl⟩ := Nat.exists_eq_add_one_of_ne_zero (by omega : d ≠ 0)
  have hinner := Settings.Inner.of_ofLine hsettings
  -- What the rule needs of its branches is a check of the table.
  have hrules : ∀ b ∈ conditionBranches, b.rule ∈ ["character", "string", "identifier"] := by decide
  have hends : ∀ b ∈ conditionBranches, .endOfInput ∉ symbolKinds b.rule := by decide
  have hkinds : ∀ kind ∈ conditionBranches.map Branch.kind, kind ≠ .newline ∧
      kind ≠ .endOfInput := by decide
  have hchoose : RuleFollows J ⟨[.base], ignored⟩ (d + 1) (d + 1) "condition" _ fun _ _ => True :=
    choose (some .char) conditionBranches none (P := fun _ => False)
      (B := fun b => Starts J ⟨[.char, .base], ignored⟩ (symbolKinds b.rule)) rfl hinner
      (fun b hb => leaf_token (hrules b hb) (hinner.push .char) (Nat.le_refl d))
        (fun b hb t ht => ht.stands (hends b hb))
      (fun _ h => absurd h (Option.not_mem_none _)) fun _ h => h.elim
  refine hchoose.mono (fun t ht => ?_) fun _ _ => id
  rcases ht with ht | ⟨-, hfalse⟩
  · exact ht.alike_of_symbol hsettings.symbols hkinds
  · exact hfalse.elim

/-- The rule for movements, which reads a single token. -/
theorem shift (hd : 1 ≤ d) :
    RuleFollows J ⟨[.base], ignored⟩ d d "shift"
      (Starts J ⟨[.base], ignored⟩ [.shiftLeft, .shiftRight, .noShift]) fun _ _ => True := by
  obtain ⟨d, rfl⟩ := Nat.exists_eq_add_one_of_ne_zero (by omega : d ≠ 0)
  exact of_find (.leaf .shift) rfl fun _ _ _ => Follows.shift (.of_ofLine hsettings)

/-- A value for the tape of a given name is the same in both sources, whatever comes behind it, if
the value itself is read alike there. -/
theorem qualified (name : String) {rule : String} (l : Leaf)
    (hfind : RuleTable.standard.find? name = some (.leaf l))
    (hread : ∀ call start, l.read call start = Parser.qualified call rule start)
    (h : RuleFollows J ⟨[.base], ignored⟩ d d rule P fun _ _ => True)
    (hP : ∀ t, P t → Stands J ⟨[.base], ignored⟩ t) :
    RuleFollows J ⟨[.base], ignored⟩ (d + 1) (d + 1) name
      (Starts J ⟨[.base], ignored⟩ [.identifier]) fun _ _ => True := by
  have hinner := Settings.Inner.of_ofLine hsettings
  refine of_find _ hfind fun start start' hstart => ?_
  show Follows J _ _ _ _ (l.read (RuleTable.standard.call d) start)
    (l.read (RuleTable.standard.call d) start')
  rw [hread, hread]
  refine (Follows.identifier hinner).andThen fun tape tape' htape =>
    (Follows.expect hinner (by decide)).andThen fun _ _ _ =>
    (h.call hinner hP).andThen fun node node' hnode =>
      (Follows.spanFrom (fun _ => True) hstart).bind fun span span' hspan =>
      Follows.pure (Q := fun _ _ => True) ?_
  -- Each part is the same but for its places, and so is the node made of them.
  show Node.relocated _ _ = Node.relocated _ _
  rw [Node.relocated, Node.relocated, show tape.relocated J.view = _ from htape,
    show node.relocated J.view = _ from hnode, show span.relocated J.view = _ from hspan]

/-- The rule for symbols on tapes reads the same symbol in both sources unless a colon follows in
the second one, which would make a name of what is a symbol in the first. -/
theorem tapeSymbol (hd : 4 ≤ d) :
    RuleFollows J ⟨[.base], ignored⟩ d d "tape_symbol" (Alike J.rest J.rest')
    fun _ => AvoidsColon J.rest' ignored := by
  obtain ⟨d, rfl⟩ := Nat.exists_eq_add_one_of_ne_zero (by omega : d ≠ 0)
  obtain ⟨d, rfl⟩ := Nat.exists_eq_add_one_of_ne_zero (by omega : d ≠ 0)
  have hskips := hsettings.skips
  have hqualified :=
    qualified (J := J) hsettings "qualified_symbol" .qualifiedSymbol rfl (fun _ _ => rfl)
      (condition hsettings (by omega : 2 ≤ d)) fun t ht => ht.stands hsettings
  -- First the symbol of a named tape, then a bare one; the first fails in front of both endings or
  -- in front of neither.
  refine alternative_pair (n := 3) rfl
    (hqualified.mono (fun t ht => ht.alike hsettings (by decide)) fun _ _ _ => trivial)
    ((condition hsettings (by omega)).mono (fun _ => id) fun _ _ _ => trivial) (by omega)
    (recognizes_qualified hskips .qualifiedSymbol rfl (fun _ _ => rfl)
      (recognizes_condition hskips))
    ((recognizes_condition hskips).mono (by decide)) (.qualified hskips _)
    fun hnode hcolon => ?_
  exact not_qualified_of_condition hsettings
    (Carries.condition J.seam hsettings.symbols _ _ _ hnode trivial).2 hcolon

/-- The rule for movements on tapes reads the same movement in both sources, with the name of a tape
in front of it or without. -/
theorem tapeShift (hd : 3 ≤ d) :
    RuleFollows J ⟨[.base], ignored⟩ d d "tape_shift"
      (Starts J ⟨[.base], ignored⟩ [.identifier, .shiftLeft, .shiftRight, .noShift])
      fun _ _ => True := by
  obtain ⟨d, rfl⟩ := Nat.exists_eq_add_one_of_ne_zero (by omega : d ≠ 0)
  obtain ⟨d, rfl⟩ := Nat.exists_eq_add_one_of_ne_zero (by omega : d ≠ 0)
  have hskips := hsettings.skips
  have hqualified :=
    qualified (J := J) hsettings "qualified_shift" .qualifiedShift rfl (fun _ _ => rfl)
      (shift hsettings (by omega : 1 ≤ d)) fun t ht => ht.stands (by decide)
  -- As for symbols: a movement of a named tape, or a bare one.
  refine alternative_pair (n := 2) rfl
    (hqualified.mono (fun t ht => ht.mono (by decide)) fun _ _ _ => trivial)
    ((shift hsettings (by omega)).mono (fun t ht => ht.mono (by decide)) fun _ _ _ => trivial)
    (by omega)
    (recognizes_qualified hskips .qualifiedShift rfl (fun _ _ => rfl) (recognizes_shift hskips))
    ((recognizes_shift hskips).mono (by decide)) (.qualified hskips _) fun hnode _ => ?_
  exact not_qualified_of_shift hsettings (Carries.shift J.seam hsettings _ _ _ hnode trivial).2

end

/-- The rule for symbols for the tapes reads the same list in both sources, unless a colon follows
in the second one behind a single symbol. -/
theorem symbols (hd : 5 ≤ d) :
    RuleFollows J ⟨[.base], lineBlanks⟩ d d "symbols" (Alike J.rest J.rest')
    fun _ => AvoidsColon J.rest' lineBlanks := by
  obtain ⟨d, rfl⟩ := Nat.exists_eq_add_one_of_ne_zero (by omega : d ≠ 0)
  refine (listOf (B := fun _ => Alike J.rest J.rest') (E := AvoidsColon J.rest') rfl
    (fun ignored hsettings => tapeSymbol hsettings (by omega)) (fun _ _ _ => id)
    fun ignored hsettings t ht => ht.avoidsColon hsettings.skips (by decide) (by decide)).mono (fun
      t ht => ?_) fun _ _ => id
  rcases ht with ht | ht
  · exact ht.alike .brackets (by decide)
  · exact ht

/-- What begins movements on the tapes. -/
def BeginsShifts (J : Splice) (t : List Char) : Prop :=
  Starts J ⟨[.base], .newline :: lineBlanks⟩ [.leftBracket] t ∨
    Starts J ⟨[.base], lineBlanks⟩ [.identifier, .shiftLeft, .shiftRight, .noShift] t

/-- The rule for movements on the tapes. -/
theorem shifts (hd : 4 ≤ d) :
    RuleFollows J ⟨[.base], lineBlanks⟩ d d "shifts" (BeginsShifts J) fun _ _ => True := by
  obtain ⟨d, rfl⟩ := Nat.exists_eq_add_one_of_ne_zero (by omega : d ≠ 0)
  exact listOf (B := fun ignored => Starts J ⟨[.base], ignored⟩ [.identifier, .shiftLeft,
    .shiftRight, .noShift]) (E := fun _ _ => True) rfl (fun ignored hsettings => tapeShift hsettings
    (by omega)) (fun ignored hsettings t ht => ht.alike hsettings (by decide)) fun _ _ _ _ =>
    trivial

/-- In front of movements both sources look alike. -/
theorem BeginsShifts.alike {t : List Char} (h : BeginsShifts J t) : Alike J.rest J.rest' t := by
  rcases h with h | h
  · exact h.alike .brackets (by decide)
  · exact h.alike .line (by decide)

/-- In front of movements no colon is next. -/
theorem BeginsShifts.avoidsColon {t : List Char} (h : BeginsShifts J t) :
    AvoidsColon J.rest' lineBlanks t := by
  rcases h with h | h
  · exact h.avoidsColon_line .body (by decide) (by decide)
  · exact h.avoidsColon .body (by decide) (by decide)

end RuleFollows

/-! ## Transitions -/

namespace Follows

/-- The items of lists that look the same do. -/
theorem same_items {node node' : Node} (h : J.Same Node.relocated node node') :
    J.Same (fun f => List.map (Node.relocated f)) node.items node'.items := by
  show List.map _ _ = List.map _ _
  rw [← Node.items_relocated, ← Node.items_relocated, show node.relocated J.view = _ from h]

/-- What a parser recognizes stands in front of what it leaves. -/
theorem recognized {α β γ : Type} {settings : Settings} {R : α → β → Prop}
    {Q : α → List Char → Prop} {p : Parser α} {q : Parser β} {view : α → γ} {G : Recognizer γ}
    (h : Follows J settings P R Q p q) (hG : Recognizes settings p view G) :
    Follows J settings (fun t => P t ∧ ∃ b t₁, G (t ++ J.rest) b (t₁ ++ J.rest)) R Q p q where
  gives := h.gives
  before {t t₁ s s₁ a} hs hsettings ht hp ht₁ hQ := by
    refine ⟨h.before hs hsettings ht hp ht₁ hQ, view a, t₁, ?_⟩
    rw [← ht, ← ht₁]
    exact hG.of_ok hs hsettings hp
  reads := h.reads

/-- The symbols behind a contextual word, if it comes next: no colon may follow them, and the word
must not come next in the other source alone. -/
theorem symbolsAfter (hd : 5 ≤ d) (word : String) :
    Follows J ⟨[.base], lineBlanks⟩ (fun _ => True)
      (J.Same fun f => Option.map (List.map (Node.relocated f)))
      (fun _ t => AvoidsColon J.rest' lineBlanks t ∧ SameWord J.rest J.rest' word t)
      (Parser.symbolsAfter (RuleTable.standard.call d) word)
      (Parser.symbolsAfter (RuleTable.standard.call d) word) := by
  have hinner := Settings.Inner.of_ofLine .line
  have hword : Follows J ⟨[.base], lineBlanks⟩ (fun _ => True) Eq
      (fun found t => if found = true then Stands J ⟨[.base], lineBlanks⟩ t
        else SameWord J.rest J.rest' word t)
      (Parser.checkWord word) (Parser.checkWord word) := by
    -- Where the word is not found, it must not stand in the other source behind the same text
    -- either.
    refine checkWord hinner word fun {found t} hanswer h => ⟨trivial, ?_⟩
    cases found with
    | true => exact .inl h
    | false =>
      refine .inr fun kind value rest hnext => ?_
      rw [← Bool.not_eq_true, Bool.and_eq_true, beq_iff_eq, beq_iff_eq]
      rintro ⟨rfl, hvalue⟩
      obtain ⟨value', rest', hnext', hvalue'⟩ := h _ _ hnext hvalue
      have hfalse := hanswer _ _ _ hnext'
      rw [hvalue', beq_self_eq_true, beq_self_eq_true] at hfalse
      exact absurd hfalse (by decide)
  refine hword.bind fun found found' hfound => ?_
  subst hfound
  cases found with
  | true =>
    refine (next hinner).bind fun _ _ _ => ?_
    refine (((RuleFollows.symbols hd).call hinner fun t ht => ht.stands .line).weaken fun t ht =>
      (ht.stands .line).ne_nil).bind fun node node' hnode => ?_
    refine (pure (Q := fun _ t => AvoidsColon J.rest' lineBlanks t ∧ SameWord J.rest J.rest' word t)
      ?_).weaken fun _ h => h.1
    exact congrArg some (same_items hnode)
  | false =>
    have hnone : J.Same (fun f => Option.map (List.map (Node.relocated f))) Option.none
        Option.none := rfl
    exact (pure (Q := fun _ t => AvoidsColon J.rest' lineBlanks t ∧ SameWord J.rest J.rest' word t)
      hnone).weaken fun _ h => h.2

end Follows

namespace RuleFollows

/-- The rule for transitions of finite automata reads the same transition in both sources, up to its
target, behind which it ends. -/
theorem finiteTransition (hd : 3 ≤ d) :
    RuleFollows J ⟨[.base], lineBlanks⟩ d d "finite_transition"
      (Starts J ⟨[.base], lineBlanks⟩ [.identifier]) fun _ _ => True := by
  obtain ⟨d, rfl⟩ := Nat.exists_eq_add_one_of_ne_zero (by omega : d ≠ 0)
  have hinner := Settings.Inner.of_ofLine .line
  refine of_find (.leaf .finiteTransition) rfl fun start start' hstart => ?_
  refine (Follows.identifier hinner).andThen fun source source' hsource =>
    ((condition .line (by omega : 2 ≤ d)).call hinner fun t ht => ht.stands .line).andThen
      fun symbol symbol' hsymbol =>
    (Follows.expect hinner (by decide)).andThen fun _ _ _ =>
    (Follows.identifier hinner).andThen fun target target' htarget =>
    (Follows.spanFrom (fun _ => True) hstart).bind fun span span' hspan =>
      Follows.pure (Q := fun _ _ => True) ?_
  show Node.relocated _ _ = Node.relocated _ _
  rw [Node.relocated, Node.relocated, show source.relocated J.view = _ from hsource,
    show symbol.relocated J.view = _ from hsymbol, show target.relocated J.view = _ from htarget,
    show span.relocated J.view = _ from hspan]

/-- The rule for transitions of pushdown automata reads the same transition in both sources. If it
may go on, no colon may follow, and the word for pushing follows in both or in neither. -/
theorem pushdownTransition (hd : 6 ≤ d) :
    RuleFollows J ⟨[.base], lineBlanks⟩ d d "pushdown_transition"
    (Starts J ⟨[.base], lineBlanks⟩ [.identifier])
    fun node t => node.mayGoOn = true → AvoidsColon J.rest' lineBlanks t ∧
      SameWord J.rest J.rest' "push" t := by
  obtain ⟨d, rfl⟩ := Nat.exists_eq_add_one_of_ne_zero (by omega : d ≠ 0)
  have hinner := Settings.Inner.of_ofLine .line
  refine of_find (.leaf .pushdownTransition) rfl fun start start' hstart => ?_
  have harrow : ∀ t, Starts J ⟨[.base], lineBlanks⟩ [.arrow] t →
      AvoidsColon J.rest' lineBlanks t ∧ SameWord J.rest J.rest' "pop" t := fun t ht =>
    ⟨ht.avoidsColon .body (by decide) (by decide), (ht.alike .line (by decide)).sameWord _⟩
  refine (Follows.identifier hinner).andThen fun source source' hsource =>
    ((condition .line (by omega : 2 ≤ d)).call hinner fun t ht => ht.stands .line).andThen
      fun symbol symbol' hsymbol =>
    (Follows.symbolsAfter (by omega) "pop").bind fun pop pop' hpop => Follows.weaken ?_ harrow
  refine (Follows.expect hinner (by decide)).andThen fun _ _ _ =>
    (Follows.identifier hinner).andThen fun target target' htarget =>
    (Follows.symbolsAfter (by omega) "push").bind fun push push' hpush =>
    (Follows.spanFrom _ hstart).bind fun span span' hspan => ?_
  -- Without the word there is no list, and the transition gets the empty one.
  have hgetD : ∀ {nodes nodes' : Option (List Node)},
      J.Same (fun f => Option.map (List.map (Node.relocated f))) nodes nodes' →
        nodes'.isNone = nodes.isNone ∧
          (nodes.getD []).map (Node.relocated J.view) = (nodes'.getD []).map
            (Node.relocated J.view') := by
    intro nodes nodes' h
    obtain ⟨rfl, rfl⟩ | ⟨_, _, rfl, rfl, hsame⟩ := h.option_cases
    · exact ⟨rfl, rfl⟩
    · exact ⟨rfl, hsame⟩
  rw [(hgetD hpop).1, (hgetD hpush).1]
  split_ifs
  · exact (Follows.throw (R := fun _ _ => False) (Q := fun _ _ => True) _).bind fun _ _ h => h.elim
  · refine (Follows.pure ?_).weaken fun t h => h rfl
    show Node.relocated _ _ = Node.relocated _ _
    rw [Node.relocated, Node.relocated, show source.relocated J.view = _ from hsource,
      show symbol.relocated J.view = _ from hsymbol, show target.relocated J.view = _ from htarget,
      show span.relocated J.view = _ from hspan]
    simp only [Node.relocatedList_eq_map, (hgetD hpop).2, (hgetD hpush).2]

/-- The rule for transitions of Turing machines reads the same transition in both sources, since a
movement comes last, behind which nothing is asked of the ending. -/
theorem turingTransition (hd : 6 ≤ d) :
    RuleFollows J ⟨[.base], lineBlanks⟩ d d "turing_transition"
      (Starts J ⟨[.base], lineBlanks⟩ [.identifier]) fun _ _ => True := by
  obtain ⟨d, rfl⟩ := Nat.exists_eq_add_one_of_ne_zero (by omega : d ≠ 0)
  have hinner := Settings.Inner.of_ofLine .line
  refine of_find (.leaf .turingTransition) rfl fun start start' hstart => ?_
  have hsymbols := (symbols (J := J) (by omega : 5 ≤ d)).call hinner fun t ht => ht.stands .line
  have hcolon : ∀ t, Starts J ⟨[.base], lineBlanks⟩ [.arrow] t → AvoidsColon J.rest' lineBlanks t :=
    fun t ht => ht.avoidsColon .body (by decide) (by decide)
  have hshifts := (shifts (J := J) (by omega : 4 ≤ d)).call hinner fun t ht => ht.alike.stands .line
  refine (Follows.identifier hinner).andThen fun source source' hsource =>
    hsymbols.bind fun read read' hread => Follows.weaken ?_ hcolon
  refine (Follows.expect hinner (by decide)).andThen fun _ _ _ =>
    (Follows.identifier hinner).andThen fun target target' htarget =>
    hsymbols.bind fun write write' hwrite => Follows.weaken ?_ fun t (ht : BeginsShifts J t) =>
      ht.avoidsColon
  refine hshifts.andThen fun moves moves' hmoves =>
    (Follows.spanFrom (fun _ => True) hstart).bind fun span span' hspan =>
      Follows.pure (Q := fun _ _ => True) ?_
  -- All parts are the same up to their places, so the node is.
  show Node.relocated _ _ = Node.relocated _ _
  rw [Node.relocated, Node.relocated, show source.relocated J.view = _ from hsource,
    show target.relocated J.view = _ from htarget, show span.relocated J.view = _ from hspan]
  simp only [Node.relocatedList_eq_map,
    show read.items.map (Node.relocated J.view) = _ from Follows.same_items hread,
    show write.items.map (Node.relocated J.view) = _ from Follows.same_items hwrite,
    show moves.items.map (Node.relocated J.view) = _ from Follows.same_items hmoves]

/-- The rule for transitions, where what follows may follow a statement if the transition may go
on. -/
theorem transition (hd : 7 ≤ d) :
    RuleFollows J ⟨[.base], lineBlanks⟩ d d "transition"
      (fun t => Starts J ⟨[.base], lineBlanks⟩ [.identifier] t ∧
        ∃ node t₁, Recognizer.transition lineBlanks (t ++ J.rest) node (t₁ ++ J.rest))
      fun node t => node.mayGoOn = true → Continues J.rest J.rest' t := by
  obtain ⟨d, rfl⟩ := Nat.exists_eq_add_one_of_ne_zero (by omega : d ≠ 0)
  have hrecognizes : RuleRecognizes 7 ⟨[.base], lineBlanks⟩ "transition"
      (Recognizer.transition lineBlanks) :=
    recognizes_transition .body
  suffices h : RuleFollows J ⟨[.base], lineBlanks⟩ (d + 1) (d + 1) "transition"
      (Starts J ⟨[.base], lineBlanks⟩ [.identifier])
      (fun node t => node.mayGoOn = true → Continues J.rest J.rest' t) from
    fun start start' hstart => (h start start' hstart).recognized (hrecognizes (d + 1) hd start)
  -- The kinds are tried in their order. What is read as a later one must not become an earlier one
  -- in front of the other ending.
  refine alternative_triple (n := 6) rfl
    ((turingTransition (by omega)).mono (fun _ => id) fun _ _ _ => trivial)
    ((pushdownTransition (by omega)).mono (fun _ => id) fun _ t ht hgoes =>
      ⟨(ht hgoes).avoidsColon J.seam, (ht hgoes).sameWord J.seam⟩)
    ((finiteTransition (by omega)).mono (fun _ => id) fun _ _ _ => trivial) (by omega)
    (recognizes_turingTransition .body) (recognizes_pushdownTransition .body)
    ((recognizes_finiteTransition .body).mono (by decide)) (.turingTransition .body)
      (.pushdownTransition .body)
    (fun hnone hnode hend => ?_) fun hnone hnode hend => ?_
  · rcases hnode with hnode | ⟨-, hnode⟩
    · exact (pushdownTransition_carries J.seam hnode (hend (Recognizer.mayGoOn_of_pushdown hnode))
        hnone).2
    · exact (finiteTransition_carries J.seam hnode (hend (Recognizer.mayGoOn_of_finite hnode))
        hnone).2
  · exact not_pushdown_of_finite J.seam hnode (hend (Recognizer.mayGoOn_of_finite hnode)) hnone

end RuleFollows

end MachineLang
