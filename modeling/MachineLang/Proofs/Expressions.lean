import MachineLang.Proofs.MachineReading
import MachineLang.Proofs.Tiling

/-!
# What is read of expressions

An expression is written with single blanks, and parentheses stand where a binary operation is an
operand of a prefix operator or the right operand of an infix one; more of them may stand around any
part. The rules for expressions call each other, so two things are shown at once, by induction on
the expression: as an operand, with the parentheses that it needs there, it is read by the rule for
operands whatever follows (`ReadsOperand`), and as the beginning of a chain of infix operators it is
folded into the left operand of what follows (`ReadsChain`). Neither the prefix operators nor the
parentheses in front of it are lost: what is read is the tree that was written, and all of it
(`parse_expression`).
-/

namespace MachineLang

/-! ## Written expressions -/

namespace Written

/-- An expression over names. Parentheses that need not be there may stand around any part of it. -/
inductive Expression
  /-- A name. -/
  | name (n : Name)
  /-- An infix operator between two operands. -/
  | binary (op : BinaryOp) (left right : Expression)
  /-- A prefix operator in front of its operand. -/
  | unary (op : UnaryOp) (operand : Expression)
  /-- An expression in parentheses that need not be there. -/
  | grouped (inner : Expression)

namespace Expression

/-- Whether the expression is a binary operation. -/
def isBinary : Expression → Bool
  | binary .. => true
  | _ => false

/-- A text, in parentheses if they are needed. -/
def enclose (needed : Bool) (text : List Char) : List Char :=
  if needed then '(' :: (text ++ [')']) else text

/-- The expression as written, with a blank on either side of an infix operator. -/
def text : Expression → List Char
  | name n => n.text
  | binary op left right =>
    left.text ++ ' ' :: (op.name.toList ++ ' ' :: enclose right.isBinary right.text)
  | unary op operand => op.name.toList ++ ' ' :: enclose operand.isBinary operand.text
  | grouped inner => enclose true inner.text

/-- The tree that stands for the expression. -/
def node : Expression → Node
  | name n => .identifier n.id
  | binary op left right => .binary op left.node right.node .invalid
  | unary op operand => .unary op operand.node .invalid
  | grouped inner => inner.node

/-- The expression without the parentheses that need not be there. -/
def plain : Expression → Expression
  | name n => name n
  | binary op left right => binary op left.plain right.plain
  | unary op operand => unary op operand.plain
  | grouped inner => inner.plain

/-- Parentheses that need not be there do not show in the tree. -/
theorem node_plain (e : Expression) : e.plain.node = e.node := by
  induction e with
  | name n => rfl
  | binary op left right ihl ihr => rw [plain, node, node, ihl, ihr]
  | unary op operand ih => rw [plain, node, node, ih]
  | grouped inner ih => rw [plain, node, ih]

/-- The expression as written where it is an operand of a prefix operator, or the right one of an
infix one. -/
def operandText (e : Expression) : List Char := enclose e.isBinary e.text

end Expression

end Written

open Written

variable {kind : TokenKind} {text rest after : List Char}

/-! ## Operators -/

/-- The keyword of an infix operator. -/
theorem BinaryOp.exists_keyword (op : BinaryOp) :
    ∃ kind, keywords.lookup op.name = some kind ∧ infixOperators.lookup kind = some op := by
  cases op with
  | union => exact ⟨.union, by decide⟩
  | intersection => exact ⟨.intersection, by decide⟩
  | concatenate => exact ⟨.concatenate, by decide⟩

/-- The keyword of a prefix operator. -/
theorem UnaryOp.exists_keyword (op : UnaryOp) :
    ∃ kind, keywords.lookup op.name = some kind ∧ prefixOperators.lookup kind = some op := by
  cases op with
  | complement => exact ⟨.complement, by decide⟩
  | determinize => exact ⟨.determinize, by decide⟩
  | reenumerate => exact ⟨.reenumerate, by decide⟩
  | star => exact ⟨.star, by decide⟩
  | reverse => exact ⟨.reverse, by decide⟩

/-! ## The next token -/

/-- No word goes on with the text. -/
def EndsWord (text : List Char) : Prop := ∀ c ∈ text.head?, continuesWord c = false

/-- A word ends in front of a character with which no word goes on. -/
theorem EndsWord.cons {c : Char} (h : continuesWord c = false) : EndsWord (c :: rest) := by
  intro a ha
  obtain rfl : c = a := Option.some.inj ha
  exact h

/-- A word ends where the text does. -/
theorem EndsWord.nil : EndsWord [] := fun _ ha => absurd ha (by simp)

/-- A fresh stream skips blanks, so a gap may stand in front of an expression. -/
theorem Settings.initial_skips : Settings.initial.ignored.contains .whitespace = true := by decide

namespace Next

/-- A keyword is the next token of a fresh stream. -/
theorem initial_keyword {word : String} (hlookup : keywords.lookup word = some kind)
    (hrest : EndsWord rest) (gap : Gap) :
    Next .initial kind word.toList rest (gap.chars ++ (word.toList ++ rest)) := by
  obtain ⟨c, cs, hword, hfirst, -⟩ := Lexes.exists_of_keyword hlookup
  obtain ⟨hwhitespace, hnewline, hcomment, hend⟩ := Lexes.kind_of_keyword hlookup
  refine .behind_blanks Settings.initial_skips (.inl rfl) gap (Lexes.of_keyword hrest hlookup) ?_ ?_
  · simp [Settings.initial, hwhitespace, hnewline, hcomment, hend]
  · rw [hword]
    exact isSpace_eq_false_of_beginsWord hfirst

/-- A name is the next token of a fresh stream. -/
theorem initial_name (n : Name) (hrest : EndsWord rest) (gap : Gap) :
    Next .initial .identifier n.text rest (gap.chars ++ (n.text ++ rest)) := by
  have hlex := Lexes.word hrest n.first_begins n.others_continue
  rw [n.lookup_eq] at hlex
  exact .behind_blanks Settings.initial_skips (.inl rfl) gap hlex (by decide)
    (isSpace_eq_false_of_beginsWord n.first_begins)

/-- An opening parenthesis is the next token of a fresh stream. -/
theorem initial_leftParen (gap : Gap) :
    Next .initial .leftParen ['('] rest (gap.chars ++ '(' :: rest) :=
  .behind_blanks Settings.initial_skips (.inl rfl) gap (Lexes.single (by decide))
    (by decide) (by decide)

/-- A closing parenthesis is the next token of a fresh stream. -/
theorem initial_rightParen : Next .initial .rightParen [')'] rest (')' :: rest) :=
  .token (Lexes.single (by decide)) (by decide)

end Next

/-! ## Operands and chains -/

namespace Written.Expression

variable {e left right inner : Expression}

/-- The rule for operands reads the expression, with the parentheses that it needs as one. -/
def ReadsOperand (e : Expression) : Prop :=
  ∀ (gap : Gap) {rest}, EndsWord rest → RuleReads (4 * e.operandText.length) .initial "unary"
    (gap.chars ++ (e.operandText ++ rest)) (·.bare = e.node) rest

/-- The rule for chains of infix operators folds the expression into the left operand of what
follows. -/
def ReadsChain (e : Expression) : Prop :=
  ∀ (gap : Gap) {rest after depth start Q}, EndsWord rest → 4 * e.text.length ≤ depth →
    (∀ left steps, left.bare = e.node → rest.length < steps →
      Reads .initial
        (Parser.operationsWithin infixOperators (RuleTable.standard.call depth "unary") start steps
          left) rest Q after) →
    Reads .initial (do
      let left ← RuleTable.standard.callFrom depth "unary" start
      Parser.operationsWithin infixOperators (RuleTable.standard.call depth "unary") start
        (← Parser.limit) left)
      (gap.chars ++ (e.text ++ rest)) Q after

/-- What is read as an operand without parentheses begins a chain. -/
theorem ReadsOperand.readsChain (h : e.ReadsOperand) (hbinary : e.isBinary = false) :
    e.ReadsChain := by
  intro gap rest after depth start Q hrest hdepth hmore
  have htext : e.operandText = e.text := by
    unfold operandText enclose
    rw [hbinary, if_neg Bool.false_ne_true]
  have hoperand := h gap hrest
  rw [htext] at hoperand
  refine (hoperand depth hdepth start).bind fun left hleft => ?_
  exact Reads.limit.bind fun steps hsteps => hmore left steps hleft hsteps

/-- A chain goes on with an infix operator and its right operand: one more round of the loop reads
them, with all that was read so far as the left operand. -/
theorem ReadsChain.binary (op : BinaryOp) (hleft : left.ReadsChain) (hright : right.ReadsOperand) :
    (binary op left right).ReadsChain := by
  intro gap rest after depth start Q hrest hdepth hmore
  obtain ⟨kind, hkeyword, hop⟩ := op.exists_keyword
  -- The left operand is a chain itself; behind it stand the operator and the right operand.
  have htext : (Expression.binary op left right).text ++ rest =
      left.text ++ ' ' :: (op.name.toList ++ ' ' :: (right.operandText ++ rest)) := by
    simp only [text, operandText, List.append_assoc, List.cons_append]
  have hlength : (Expression.binary op left right).text.length =
      left.text.length + op.name.toList.length + right.operandText.length + 2 := by
    simp only [text, operandText, List.length_append, List.length_cons]
    omega
  rw [htext]
  -- Once the left operand is read, one more round of the loop takes the operator and the right
  -- operand, and the rest goes on from there.
  refine hleft gap (.cons (by decide)) (by omega) fun node steps hnode hsteps => ?_
  obtain ⟨steps, rfl⟩ := Nat.exists_eq_add_one_of_ne_zero (by omega : steps ≠ 0)
  refine Reads.operationsWithin_some (Next.initial_keyword hkeyword (.cons (by decide)) .space) hop
    ((hright .space hrest).call (by omega)) fun node' span hnode' => ?_
  refine hmore _ steps ?_ ?_
  · rw [Node.bare, Expression.node, hnode, hnode']
  · simp only [List.length_cons, List.length_append] at hsteps
    omega

/-- A chain in parentheses is read by the rule for operands. Four rules are called on the way from
an operand to the chain inside, and the two parentheses pay for that depth. -/
theorem ReadsChain.enclosed (h : e.ReadsChain) (gap : Gap) (rest : List Char) :
    RuleReads (4 * (enclose true e.text).length) .initial "unary"
      (gap.chars ++ (enclose true e.text ++ rest)) (·.bare = e.node) rest := by
  have htext : enclose true e.text ++ rest = '(' :: (e.text ++ ')' :: rest) := by
    simp only [enclose, if_pos, List.cons_append, List.append_assoc, List.nil_append]
  have hlength : (enclose true e.text).length = e.text.length + 2 := by
    simp only [enclose, if_pos, List.length_cons, List.length_append, List.length_nil]
  -- Within the parentheses, the chain ends at the closing one, since that is no infix operator.
  have hexpression : RuleReads (4 * e.text.length + 1) .initial "expression" (e.text ++ ')' :: rest)
      (·.bare = e.node) (')' :: rest) := by
    refine .of_find rfl fun depth hdepth start => ?_
    refine h .empty (.cons (by decide)) hdepth fun node steps hnode hsteps => ?_
    obtain ⟨steps, rfl⟩ := Nat.exists_eq_add_one_of_ne_zero (by omega : steps ≠ 0)
    exact Reads.operationsWithin_none (Reads.operator? Next.initial_rightParen _) hnode
  have hparenthesized : RuleReads (4 * e.text.length + 2) .initial "parenthesized"
      (e.text ++ ')' :: rest) (·.bare = e.node) rest := by
    refine .leaf (l := .parenthesized) rfl fun depth hdepth _ => ?_
    refine (hexpression.call hdepth).bind fun node hnode => ?_
    exact (Reads.expect Next.initial_rightParen (by decide)).bind fun _ _ => Reads.pure hnode
  rw [htext, hlength]
  -- Each rule on the way down costs one level of depth, which the length of the text pays for.
  have hprimary : RuleReads (4 * e.text.length + 3) .initial "primary"
      (gap.chars ++ '(' :: (e.text ++ ')' :: rest)) (·.bare = e.node) rest :=
    .choose_keyword rfl (Next.initial_leftParen gap) rfl rfl hparenthesized
  have hunary : RuleReads (4 * e.text.length + 4) .initial "unary"
      (gap.chars ++ '(' :: (e.text ++ ')' :: rest)) (·.bare = e.node) rest :=
    .unary_operand rfl (Next.initial_leftParen gap) rfl hprimary
  exact hunary.mono (by omega)

/-- A name is read as an operand. The rule for operands passes it on to the one for names, because
no prefix operator comes first and no keyword asks for another branch. -/
theorem readsOperand_name (n : Name) : (name n).ReadsOperand := by
  intro gap rest hrest
  have hnext := Next.initial_name n hrest gap
  -- The name is read three rules below the one for operands.
  have hidentifier : RuleReads 1 .initial "identifier" (gap.chars ++ (n.text ++ rest))
      (·.bare = .identifier n.id) rest := by
    refine .leaf (l := .identifier) rfl fun depth _ start => ?_
    refine Reads.map (P := (·.bare = n.id)) ?_ fun id hid => congrArg Node.identifier hid
    refine (Reads.expect hnext (by decide)).bind fun token htoken => Reads.pure ?_
    unfold Identifier.bare
    rw [htoken.value_eq]
    rfl
  have hprimary : RuleReads 2 .initial "primary" (gap.chars ++ (n.text ++ rest))
      (·.bare = .identifier n.id) rest :=
    .choose_here rfl hnext rfl rfl hidentifier
  have hunary : RuleReads 3 .initial "unary" (gap.chars ++ (n.text ++ rest))
      (·.bare = .identifier n.id) rest :=
    .unary_operand rfl hnext rfl hprimary
  refine hunary.mono ?_
  show 3 ≤ 4 * (n.others.length + 1)
  omega

/-- A prefix operator goes with the operand behind it, which may have a prefix operator itself. A
chain stands in parentheses there, so the operator does not reach further. -/
theorem ReadsOperand.unary (op : UnaryOp) (h : e.ReadsOperand) : (unary op e).ReadsOperand := by
  intro gap rest hrest
  obtain ⟨kind, hkeyword, hop⟩ := op.exists_keyword
  have htext : (Expression.unary op e).operandText ++ rest =
      op.name.toList ++ ' ' :: (e.operandText ++ rest) := by
    simp only [operandText, isBinary, enclose, text, Bool.false_eq_true, if_false,
      List.append_assoc, List.cons_append]
  have hlength : (Expression.unary op e).operandText.length = op.name.toList.length
      + e.operandText.length + 1 := by
    simp only [operandText, isBinary, enclose, text, Bool.false_eq_true, if_false,
      List.length_append, List.length_cons]
    omega
  rw [htext, hlength]
  -- The rule for operands calls itself behind a prefix operator, so one level of depth is enough.
  have hfind : RuleTable.standard.find? "unary" = some (.unary "primary" prefixOperators) := rfl
  have hunary :=
    RuleReads.unary_operator hfind (Next.initial_keyword hkeyword (.cons (by decide)) gap) hop
      (h .space hrest)
  refine (hunary.mono (by omega)).imp ?_
  rintro _ ⟨operand, span, rfl, hoperand⟩
  rw [Node.bare, Expression.node, hoperand]

/-- Every expression is read, as an operand and as the beginning of a chain. -/
theorem reads (e : Expression) : e.ReadsOperand ∧ e.ReadsChain := by
  induction e with
  | name n => exact ⟨readsOperand_name n, (readsOperand_name n).readsChain rfl⟩
  | binary op left right ihl ihr =>
    have hchain := ReadsChain.binary op ihl.2 ihr.1
    exact ⟨fun gap rest _ => hchain.enclosed gap rest, hchain⟩
  | unary op operand ih => exact ⟨ih.1.unary op, (ih.1.unary op).readsChain rfl⟩
  | grouped inner ih =>
    have hoperand : (grouped inner).ReadsOperand := fun gap rest _ => ih.2.enclosed gap rest
    exact ⟨hoperand, hoperand.readsChain rfl⟩

/-! ## Whole expressions -/

/-- The rule for expressions reads an expression up to the end of the source. -/
theorem reads_expression (e : Expression) :
    RuleReads (4 * e.text.length + 1) .initial "expression" e.text (·.bare = e.node) [] := by
  refine .of_find rfl fun depth hdepth start => ?_
  obtain ⟨-, hchain⟩ := e.reads
  rw [← List.append_nil e.text]
  refine hchain .empty .nil hdepth fun node steps hnode hsteps => ?_
  obtain ⟨steps, rfl⟩ := Nat.exists_eq_add_one_of_ne_zero (by omega : steps ≠ 0)
  exact Reads.operationsWithin_none (Reads.operator?_nil (by decide) _) hnode

end Written.Expression

/-- The text of the tokens behind the cursor, one after the other. -/
def TokenStream.passed (s : TokenStream) : String :=
  String.join (s.consumed.map fun b => b.token.value)

/-- Where no text is left, all of it is behind the cursor. -/
theorem Shows.passed_eq {s : TokenStream} {u : Unbuffered} (h : Shows s u)
    (hrest : u.cursor.rest = []) :
    s.passed = s.source := by
  have hvalues := h.consumed.textFrom_eq
  have hnil : textFrom u.place.offset s.source.toList = [] := by
    rw [h.source_eq]
    exact hrest
  have hwhole : textFrom Location.start.offset s.source.toList = s.source.toList :=
    congrArg Cursor.rest (Cursor.ofLocation_start s.source.toList)
  rw [hnil, List.append_nil, hwhole] at hvalues
  refine String.toList_injective ?_
  rw [TokenStream.passed, String.toList_join, List.flatMap_map, hvalues]

/-- The rule for expressions gives the tree of the expression, and leaves nothing of the text. -/
theorem Written.Expression.exists_parse (e : Expression) :
    ∃ tree s, RuleTable.standard.parse "expression" (.ofSource (.ofList e.text)) = (.ok tree, s) ∧
      s.passed = .ofList e.text ∧ tree.bare = e.node := by
  obtain ⟨tree, u, ⟨hresult, hshows, -, hsource, -⟩, htree, hrest⟩ :=
    reads_parse (by omega) e.reads_expression _ _ (Shows.ofSource (.ofList e.text)) rfl
      (Unbuffered.rest_ofSource _)
  generalize RuleTable.standard.parse "expression" (.ofSource (.ofList e.text)) = result at *
  obtain ⟨r, s⟩ := result
  obtain rfl : r = .ok tree := hresult
  exact ⟨tree, s, rfl, (hshows.passed_eq hrest).trans hsource, htree⟩

/-- Every expression is read to its end as the tree that was written: prefix operators bind tighter
than infix ones, which group to the left. Parentheses that need not be there change nothing but
places. -/
theorem parse_expression (e : Written.Expression) :
    ∃ tree s tree' s',
      RuleTable.standard.parse "expression" (.ofSource (.ofList e.text)) = (.ok tree, s) ∧
        s.passed = .ofList e.text ∧ tree.bare = e.node ∧
      RuleTable.standard.parse "expression" (.ofSource (.ofList e.plain.text)) = (.ok tree', s') ∧
        s'.passed = .ofList e.plain.text ∧ tree'.bare = tree.bare := by
  obtain ⟨tree, s, hparse, hpassed, htree⟩ := e.exists_parse
  obtain ⟨tree', s', hparse', hpassed', htree'⟩ := e.plain.exists_parse
  refine ⟨tree, s, tree', s', hparse, hpassed, htree, hparse', hpassed', ?_⟩
  rw [htree, htree', e.node_plain]

/-- Parentheses stand where they are needed, and where they were asked for. -/
example :
    let a : Name := ⟨'a', [], by decide, by decide, by decide⟩
    let b : Name := ⟨'b', [], by decide, by decide, by decide⟩
    let e : Written.Expression :=
      .binary .concatenate (.binary .union (.unary .complement (.unary .determinize (.name a)))
        (.binary .intersection (.name a) (.grouped (.name b)))) (.unary .star
          (.binary .union (.name b) (.name a)))
    String.ofList e.text =
      "complement determinize a union (a intersection (b)) concatenate star (b union a)" := by
  decide

end MachineLang
