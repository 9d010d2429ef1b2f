import MachineLang.Parser.Standard
import MachineLang.Proofs.Reading

/-!
# What grammar rules read

A rule of the language `RuleReads` a text if it does so with calls of a given depth or more,
wherever its range begins. Here is what each way of putting rules together needs: a choice goes by
the next token (`RuleReads.choose_branch`), alternatives are tried in order, and a list is read
element by element (`RuleReads.bracketed`), as long as its text.
-/

namespace MachineLang

variable {settings : Settings} {kind : TokenKind} {value text rest mid : List Char} {n depth : Nat}
  {name : String} {rule : Combinator} {P : Node → Prop}

/-! ## Calls -/

/-- Runs the rule of a name from a given place, with calls at most `depth` deep. -/
def RuleTable.callFrom (table : RuleTable) (depth : Nat) (name : String) (start : Location) :
    Parser Node :=
  match table.find? name with
  | none => throw (.invalid (.unknownRule name) (.point start))
  | some rule => rule.read table depth start

/-- Runs the rule of a name from the next token on, with calls at most `depth` deep. -/
def RuleTable.call (table : RuleTable) (depth : Nat) (name : String) : Parser Node := do
  table.callFrom depth name (← Parser.location)

/-- What holds of the parser of a rule, with calls of a given depth or more, holds of the calls of
the rule. -/
theorem RuleTable.forall_callFrom {motive : Parser Node → Prop}
    (hfind : standard.find? name = some rule)
    (h : ∀ depth, n ≤ depth → ∀ start, motive (rule.read .standard (depth + 1) start))
    (depth : Nat) (hdepth : n + 1 ≤ depth) (start : Location) :
    motive (standard.callFrom depth name start) := by
  obtain ⟨depth, rfl⟩ :=
    Nat.exists_eq_add_one_of_ne_zero (Nat.ne_of_gt (Nat.lt_of_lt_of_le n.succ_pos hdepth))
  unfold callFrom
  rw [hfind]
  exact h depth (Nat.le_of_succ_le_succ hdepth) start

/-- The rule of a name reads the text, with calls of depth `n` or more. -/
def RuleReads (n : Nat) (settings : Settings) (name : String) (text : List Char) (P : Node → Prop)
    (rest : List Char) : Prop :=
  ∀ depth, n ≤ depth → ∀ start,
    Reads settings (RuleTable.standard.callFrom depth name start) text P rest

/-- The rule of a name fails on the text, with calls of depth `n` or more. -/
def RuleFails (n : Nat) (settings : Settings) (name : String) (text : List Char) : Prop :=
  ∀ depth, n ≤ depth → ∀ start, Fails settings (RuleTable.standard.callFrom depth name start) text

namespace RuleReads

/-- A rule reads what its parser reads. -/
theorem of_find (hfind : RuleTable.standard.find? name = some rule)
    (h : ∀ depth, n ≤ depth → ∀ start,
      Reads settings (rule.read .standard (depth + 1) start) text P rest) :
    RuleReads (n + 1) settings name text P rest :=
  RuleTable.forall_callFrom (motive := fun p => Reads settings p text P rest) hfind h

/-- Deeper calls may be allowed, since the rule reads with all of them. -/
theorem mono {m : Nat} (h : RuleReads n settings name text P rest) (hle : n ≤ m) :
    RuleReads m settings name text P rest :=
  fun depth hdepth start => h depth (Nat.le_trans hle hdepth) start

/-- What a rule gives may be said in weaker terms. -/
theorem imp {P' : Node → Prop} (h : RuleReads n settings name text P rest)
    (himp : ∀ node, P node → P' node) : RuleReads n settings name text P' rest :=
  fun depth hdepth start => (h depth hdepth start).imp himp

/-- A rule reads the same from the next token on. -/
theorem call (h : RuleReads n settings name text P rest) (hdepth : n ≤ depth) :
    Reads settings (RuleTable.standard.call depth name) text P rest :=
  Reads.location.bind fun start _ => h depth hdepth start

end RuleReads

namespace RuleFails

/-- A rule fails where its parser does. -/
theorem of_find (hfind : RuleTable.standard.find? name = some rule)
    (h : ∀ depth, n ≤ depth → ∀ start,
      Fails settings (rule.read .standard (depth + 1) start) text) :
    RuleFails (n + 1) settings name text :=
  RuleTable.forall_callFrom (motive := fun p => Fails settings p text) hfind h

/-- Deeper calls may be allowed, since the rule fails with all of them. -/
theorem mono {m : Nat} (h : RuleFails n settings name text) (hle : n ≤ m) :
    RuleFails m settings name text :=
  fun depth hdepth start => h depth (Nat.le_trans hle hdepth) start

/-- A rule fails the same from the next token on. -/
theorem call (h : RuleFails n settings name text) (hdepth : n ≤ depth) :
    Fails settings (RuleTable.standard.call depth name) text :=
  Reads.location.bind_fails fun start _ => h depth hdepth start

end RuleFails

/-! ## Leaves -/

/-- A leaf reads its own tokens. -/
theorem RuleReads.leaf {l : Leaf} (hfind : RuleTable.standard.find? name = some (.leaf l))
    (h : ∀ depth, n ≤ depth → ∀ start,
      Reads settings (l.read (RuleTable.standard.call depth) start) text P rest) :
    RuleReads (n + 1) settings name text P rest :=
  .of_find hfind h

/-- A leaf fails on its own tokens. -/
theorem RuleFails.leaf {l : Leaf} (hfind : RuleTable.standard.find? name = some (.leaf l))
    (h : ∀ depth, n ≤ depth → ∀ start,
      Fails settings (l.read (RuleTable.standard.call depth) start) text) :
    RuleFails (n + 1) settings name text :=
  .of_find hfind h

/-! ## Choices -/

section Choose

variable {mode : LexMode} {branches : List Branch} {fallback : Option String} {branch : Branch}

/-- A choice under another mode looks at the next token, which stays where it is. -/
theorem Reads.choiceToken (h : Next (settings.push mode) kind value rest text)
    (kinds : List TokenKind) :
    Reads settings (Parser.choiceToken (some mode) kinds) text (Token.Is kind value) text :=
  (Reads.withSettings (Reads.peek h)).tryCatch

/-- A choice under the modes in force looks at the next token. -/
theorem Reads.choiceToken_none (h : Next settings kind value rest text) (kinds : List TokenKind) :
    Reads settings (Parser.choiceToken none kinds) text (Token.Is kind value) text :=
  (Reads.peek h).tryCatch

/-- A choice under another mode goes on with the branch for the next token. -/
theorem RuleReads.choose_branch
    (hfind : RuleTable.standard.find? name = some (.choose (some mode) branches fallback))
    (hnext : Next (settings.push mode) kind value mid text)
    (hbranch : branches.find? (fun b => b.kind == kind) = some branch)
    (hconsume : branch.consume = false)
    (h : RuleReads n (settings.push mode) branch.rule text P rest) :
    RuleReads (n + 1) settings name text P rest := by
  refine .of_find hfind fun depth hdepth start => ?_
  refine (Reads.choiceToken hnext _).bind fun token htoken => ?_
  rw [htoken.kind_eq, hbranch]
  refine Reads.withSettings ?_
  rw [hconsume]
  exact h depth hdepth _

/-- A choice under another mode fails if there is no branch for the next token. -/
theorem RuleFails.choose
    (hfind : RuleTable.standard.find? name = some (.choose (some mode) branches none))
    (hnext : Next (settings.push mode) kind value mid text)
    (hbranch : branches.find? (fun b => b.kind == kind) = none) :
    RuleFails 1 settings name text := by
  refine .of_find hfind fun depth hdepth start => ?_
  refine (Reads.choiceToken hnext _).bind_fails fun token htoken => ?_
  rw [htoken.kind_eq, hbranch]
  exact Fails.throw rfl

/-- A choice under the modes in force goes on with the branch for the next token, which the branch
may take. -/
theorem RuleReads.choose_of_branch
    (hfind : RuleTable.standard.find? name = some (.choose none branches fallback))
    (hnext : Next settings kind value mid text)
    (hbranch : branches.find? (fun b => b.kind == kind) = some branch)
    (h : ∀ depth, n ≤ depth → ∀ start, Reads settings (do
      if branch.consume then let _ ← Parser.next
      RuleTable.standard.callFrom depth branch.rule start) text P rest) :
    RuleReads (n + 1) settings name text P rest := by
  refine .of_find hfind fun depth hdepth start => ?_
  refine (Reads.choiceToken_none hnext _).bind fun token htoken => ?_
  rw [htoken.kind_eq, hbranch]
  exact h depth hdepth token.location

/-- A choice under the modes in force goes on with the branch for the next token, behind that
token. -/
theorem RuleReads.choose_keyword
    (hfind : RuleTable.standard.find? name = some (.choose none branches fallback))
    (hnext : Next settings kind value mid text)
    (hbranch : branches.find? (fun b => b.kind == kind) = some branch)
    (hconsume : branch.consume = true) (h : RuleReads n settings branch.rule mid P rest) :
    RuleReads (n + 1) settings name text P rest := by
  refine .choose_of_branch hfind hnext hbranch fun depth hdepth start => ?_
  rw [hconsume]
  exact (Reads.next hnext).bind fun _ _ => h depth hdepth start

/-- A choice under the modes in force goes on with the branch for the next token, in front of that
token. -/
theorem RuleReads.choose_here
    (hfind : RuleTable.standard.find? name = some (.choose none branches fallback))
    (hnext : Next settings kind value mid text)
    (hbranch : branches.find? (fun b => b.kind == kind) = some branch)
    (hconsume : branch.consume = false) (h : RuleReads n settings branch.rule text P rest) :
    RuleReads (n + 1) settings name text P rest := by
  refine .choose_of_branch hfind hnext hbranch fun depth hdepth start => ?_
  rw [hconsume]
  exact h depth hdepth start

/-- A choice under the modes in force goes on with another rule if there is no branch for the next
token. -/
theorem RuleReads.choose_fallback {other : String}
    (hfind : RuleTable.standard.find? name = some (.choose none branches (some other)))
    (hnext : Next settings kind value mid text)
    (hbranch : branches.find? (fun b => b.kind == kind) = none)
    (h : RuleReads n settings other text P rest) : RuleReads (n + 1) settings name text P rest := by
  refine .of_find hfind fun depth hdepth start => ?_
  refine (Reads.choiceToken_none hnext _).bind fun token htoken => ?_
  rw [htoken.kind_eq, hbranch]
  exact h depth hdepth _

end Choose

/-! ## Operators -/

section Operators

variable {operand : String}

/-- A prefix operator in front of what the same rule reads. -/
theorem RuleReads.unary_operator {operators : List (TokenKind × UnaryOp)} {op : UnaryOp}
    (hfind : RuleTable.standard.find? name = some (.unary operand operators))
    (hnext : Next settings kind value mid text) (hop : operators.lookup kind = some op)
    (h : RuleReads n settings name mid P rest) :
    RuleReads (n + 1) settings name text (fun node => ∃ inner span, node = .unary op inner span ∧
      P inner) rest := by
  refine .of_find hfind fun depth hdepth start => ?_
  refine (Reads.operator? hnext operators).bind ?_
  rintro _ rfl
  rw [hop]
  refine (Reads.next hnext).bind fun _ _ => Reads.location.bind fun place _ => ?_
  have hinner := h depth hdepth place
  unfold RuleTable.callFrom at hinner
  rw [hfind] at hinner
  refine hinner.bind fun inner hP => ?_
  exact (Reads.spanFrom start).bind fun span _ => Reads.pure ⟨inner, span, rfl, hP⟩

/-- Without a prefix operator the operand is read. -/
theorem RuleReads.unary_operand {operators : List (TokenKind × UnaryOp)}
    (hfind : RuleTable.standard.find? name = some (.unary operand operators))
    (hnext : Next settings kind value mid text) (hop : operators.lookup kind = none)
    (h : RuleReads n settings operand text P rest) :
    RuleReads (n + 1) settings name text P rest := by
  refine .of_find hfind fun depth hdepth start => ?_
  refine (Reads.operator? hnext operators).bind ?_
  rintro _ rfl
  rw [hop]
  exact h depth hdepth start

/-- An infix operator and the operand behind it are read, and grouped to the left. -/
theorem Reads.operationsWithin_some {operators : List (TokenKind × BinaryOp)} {op : BinaryOp}
    {operand : Parser Node} {start : Location} {steps : Nat} {left : Node} {after : List Char}
    {Q : Node → Prop} (hnext : Next settings kind value mid text)
    (hop : operators.lookup kind = some op) (hright : Reads settings operand mid P rest)
    (hmore : ∀ right span, P right →
      Reads settings (Parser.operationsWithin operators operand start steps
        (.binary op left right span)) rest Q after) :
    Reads settings (Parser.operationsWithin operators operand start (steps + 1) left) text
      Q after := by
  refine (Reads.operator? hnext operators).bind ?_
  rintro _ rfl
  rw [hop]
  refine (Reads.next hnext).bind fun _ _ => hright.bind fun right hP => ?_
  exact (Reads.spanFrom start).bind fun span _ => hmore right span hP

/-- Without an infix operator the expression ends. -/
theorem Reads.operationsWithin_none {operators : List (TokenKind × BinaryOp)}
    {operand : Parser Node} {start : Location} {steps : Nat} {left : Node}
    (hop : Reads settings (Parser.operator? operators) text (· = none) text) (hP : P left) :
    Reads settings (Parser.operationsWithin operators operand start (steps + 1) left) text
      P text := by
  refine hop.bind ?_
  rintro _ rfl
  exact Reads.pure hP

end Operators

/-! ## Alternatives -/

/-- The first parser that does not fail decides. -/
theorem Reads.oneOf_append {α : Type} {failure : SyntaxError} {failing others : List (Parser α)}
    {p : Parser α} {P : α → Prop} (hfailing : ∀ p ∈ failing, Fails settings p text)
    (h : Reads settings p text P rest) :
    Reads settings (Parser.oneOf failure (failing ++ p :: others)) text P rest := by
  induction failing generalizing failure with
  | nil => exact h.oneOf_head
  | cons q failing ih =>
    obtain ⟨hq, hfailing⟩ := List.forall_mem_cons.1 hfailing
    exact Reads.oneOf_tail hq fun _ => ih hfailing

/-- The first rule that does not fail decides. -/
theorem RuleReads.alternative {failing others : List String} {other : String}
    (hfind : RuleTable.standard.find? name = some (.alternative (failing ++ other :: others)))
    (hfailing : ∀ other ∈ failing, RuleFails n settings other text)
    (h : RuleReads n settings other text P rest) : RuleReads (n + 1) settings name text P rest := by
  refine .of_find hfind fun depth hdepth start => ?_
  show Reads settings (Parser.oneOf _ ((failing ++ other :: others).map fun name =>
    RuleTable.standard.callFrom depth name start)) text P rest
  rw [List.map_append, List.map_cons]
  refine Reads.oneOf_append (List.forall_mem_map.2 fun other hother => ?_) (h depth hdepth start)
  exact hfailing other hother depth hdepth start

/-- The first rule decides if it succeeds. -/
theorem RuleReads.alternative_head {other : String} {others : List String}
    (hfind : RuleTable.standard.find? name = some (.alternative (other :: others)))
    (h : RuleReads n settings other text P rest) : RuleReads (n + 1) settings name text P rest := by
  rw [← List.nil_append (other :: others)] at hfind
  exact .alternative hfind (List.forall_mem_nil _) h

/-- If every rule fails, there is none that succeeds. -/
theorem RuleFails.alternative {rules : List String}
    (hfind : RuleTable.standard.find? name = some (.alternative rules))
    (h : ∀ other ∈ rules, RuleFails n settings other text) :
    RuleFails (n + 1) settings name text := by
  refine .of_find hfind fun depth hdepth start => ?_
  refine Fails.oneOf rfl (List.forall_mem_map.2 fun other hother => ?_)
  exact h other hother depth hdepth start

/-! ## Lists -/

section Lists

variable {element : String} {opening closing separator : TokenKind}

/-- A list without brackets is its only element. The next token is not the opening bracket, so the
rule for elements is called at once. -/
theorem RuleReads.bare
    (hfind : RuleTable.standard.find? name = some
      (.list element (some (opening, closing)) separator))
    (hnext : Next settings kind value mid text) (hne : kind ≠ opening)
    (h : RuleReads n settings element text P rest) :
    RuleReads (n + 1) settings name text (fun node => ∃ item span, node = .list [item] span ∧
      P item) rest := by
  refine .of_find hfind fun depth hdepth start => ?_
  refine (Reads.check hnext opening).bind ?_
  rintro _ rfl
  rw [beq_eq_false_iff_ne.2 hne, if_neg Bool.false_ne_true]
  refine (h depth hdepth start).bind fun item hitem => ?_
  exact Reads.pure ⟨item, item.span, rfl, hitem⟩

/-- A list without brackets fails where its only element does. -/
theorem RuleFails.bare
    (hfind : RuleTable.standard.find? name = some
      (.list element (some (opening, closing)) separator))
    (hnext : Next settings kind value mid text) (hne : kind ≠ opening)
    (h : RuleFails n settings element text) : RuleFails (n + 1) settings name text := by
  refine .of_find hfind fun depth hdepth start => ?_
  refine (Reads.check hnext opening).bind_fails ?_
  rintro _ rfl
  rw [beq_eq_false_iff_ne.2 hne, if_neg Bool.false_ne_true]
  exact (h depth hdepth start).bind

/-- A list in brackets is read if its brackets are, by the rule for lists. -/
theorem RuleReads.bracketed
    (hfind : RuleTable.standard.find? name = some
      (.list element (some (opening, closing)) separator))
    (hopen : Next settings opening value mid text)
    (h : ∀ depth, n ≤ depth → ∀ start, Reads settings (Parser.bracketed opening closing separator
      (RuleTable.standard.call depth element) start) text P rest) :
    RuleReads (n + 1) settings name text P rest := by
  refine .of_find hfind fun depth hdepth start => ?_
  refine (Reads.check hopen opening).bind ?_
  rintro _ rfl
  rw [beq_self_eq_true, if_pos rfl]
  exact h depth hdepth start

/-- A list in brackets fails where its first element does, since it is not empty: the closing
bracket does not come next. -/
theorem RuleFails.bracketed
    (hfind : RuleTable.standard.find? name = some
      (.list element (some (opening, closing)) separator))
    (hopen : Next settings opening value mid text)
    (h : ∀ depth, n ≤ depth → ∀ start, Fails settings (Parser.bracketed opening closing separator
      (RuleTable.standard.call depth element) start) text) :
    RuleFails (n + 1) settings name text := by
  refine .of_find hfind fun depth hdepth start => ?_
  refine (Reads.check hopen opening).bind_fails ?_
  rintro _ rfl
  rw [beq_self_eq_true, if_pos rfl]
  exact h depth hdepth start

end Lists

section Bracketed

variable {item : Parser Node} {start : Location} {opening closing separator : TokenKind}
  {opened closed after rest' : List Char} {Q : List Node → Prop}

/-- Nothing in brackets: the closing one stands right behind the opening one. -/
theorem Reads.bracketed_nil (hopen : Next (settings.ignore [.newline]) opening opened mid text)
    (hclose : Next (settings.ignore [.newline]) closing closed rest mid) (hQ : Q []) :
    Reads settings (Parser.bracketed opening closing separator item start) text
      (fun node => Q node.items) rest := by
  refine Reads.withSettings ?_
  refine (Reads.expect hopen (by simp)).bind fun _ _ => ?_
  refine (Reads.check hclose closing).bind ?_
  rintro _ rfl
  rw [beq_self_eq_true, if_pos rfl]
  refine (Reads.pure (P := (· = [])) rfl).bind ?_
  rintro _ rfl
  refine (Reads.expect hclose (by simp)).bind fun _ _ => ?_
  refine (Reads.spanFrom start).bind fun span _ => ?_
  exact Reads.pure hQ

/-- Elements in brackets are read up to the closing one, with line ends skipped. -/
theorem Reads.bracketed_elements (hopen : Next (settings.ignore [.newline]) opening opened mid text)
    (hnext : Next (settings.ignore [.newline]) kind value rest' mid) (hne : kind ≠ closing)
    (hitems : ∀ steps, mid.length < steps → Reads (settings.ignore [.newline])
      (Parser.elementsWithin separator item steps []) mid Q after)
    (hclose : Next (settings.ignore [.newline]) closing closed rest after) :
    Reads settings (Parser.bracketed opening closing separator item start) text
      (fun node => Q node.items) rest := by
  refine Reads.withSettings ?_
  refine (Reads.expect hopen (by simp)).bind fun _ _ => ?_
  refine (Reads.check hnext closing).bind ?_
  rintro _ rfl
  rw [beq_eq_false_iff_ne.2 hne, if_neg Bool.false_ne_true]
  refine Reads.limit.bind fun steps hsteps => ?_
  refine (hitems steps hsteps).bind fun nodes hnodes => ?_
  refine (Reads.expect hclose (by simp)).bind fun _ _ => ?_
  refine (Reads.spanFrom start).bind fun span _ => ?_
  exact Reads.pure hnodes

/-- What is in brackets fails where the first element does. -/
theorem Fails.bracketed (hopen : Next (settings.ignore [.newline]) opening opened mid text)
    (hnext : Next (settings.ignore [.newline]) kind value rest' mid) (hne : kind ≠ closing)
    (hitem : Fails (settings.ignore [.newline]) item mid) :
    Fails settings (Parser.bracketed opening closing separator item start) text := by
  refine Fails.withSettings ?_
  refine (Reads.expect hopen (by simp)).bind_fails fun _ _ => ?_
  refine (Reads.check hnext closing).bind_fails ?_
  rintro _ rfl
  rw [beq_eq_false_iff_ne.2 hne, if_neg Bool.false_ne_true]
  refine Reads.limit.bind_fails fun steps hsteps => ?_
  obtain ⟨steps, rfl⟩ := Nat.exists_eq_add_one_of_ne_zero (by omega : steps ≠ 0)
  exact hitem.bind.bind

/-- An element that another one follows. -/
theorem Reads.elementsWithin_cons {steps : Nat} {before : List Node} {P : Node → Prop}
    (hitem : Reads settings item text P mid) (hseparator : Next settings separator value after mid)
    (h : ∀ node, P node →
      Reads settings (Parser.elementsWithin separator item steps (node :: before)) after Q rest) :
    Reads settings (Parser.elementsWithin separator item (steps + 1) before) text Q rest := by
  refine hitem.bind fun node hnode => ?_
  refine (Reads.accept hseparator).bind ?_
  rintro _ ⟨token, rfl⟩
  exact h node hnode

/-- The last element is the one behind which no separator stands. -/
theorem Reads.elementsWithin_singleton {steps : Nat} {before : List Node} {P : Node → Prop}
    (hitem : Reads settings item text P rest) (hnext : Next settings kind value after rest)
    (hne : kind ≠ separator) (h : ∀ node, P node → Q (node :: before).reverse) :
    Reads settings (Parser.elementsWithin separator item (steps + 1) before) text Q rest := by
  refine hitem.bind fun node hnode => ?_
  refine (Reads.accept_other hnext hne).bind ?_
  rintro _ rfl
  exact Reads.pure (h node hnode)

end Bracketed

/-! ## Sequences of statements -/

/-- A sequence of statements is what stands behind its opening token, up to the closing one, read
under the settings for lines. -/
theorem RuleReads.root {item : String} {opening : Option TokenKind} {closing : TokenKind}
    {Q : List Node → Prop}
    (hfind : RuleTable.standard.find? name = some (.root item opening closing))
    (hopened : ∀ start, Reads settings (Parser.opened opening start) text (fun _ => True) mid)
    (hitems : ∀ depth, n ≤ depth → ∀ steps, mid.length < steps →
      Reads (settings.intercept [.newline, .endOfInput])
        (Parser.collectWithin (Parser.statement closing (RuleTable.standard.call depth item))
          steps []) mid Q rest) :
    RuleReads (n + 1) settings name text
      (fun node => ∃ nodes span, node = .root nodes span ∧ Q nodes) rest := by
  refine .of_find hfind fun depth hdepth start => ?_
  refine (hopened start).bind fun start _ => Reads.withSettings ?_
  have hcollect : Reads (settings.intercept [.newline, .endOfInput])
      (Parser.collect (Parser.statement closing (RuleTable.standard.call depth item))) mid Q rest :=
    Reads.limit.bind fun steps hsteps => hitems depth hdepth steps hsteps
  refine hcollect.bind fun nodes hnodes => ?_
  refine (Reads.spanFrom start).bind fun span _ => ?_
  exact Reads.pure ⟨nodes, span, rfl, hnodes⟩

end MachineLang
