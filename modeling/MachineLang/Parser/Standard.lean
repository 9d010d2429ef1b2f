import MachineLang.Parser.Run

/-!
# The grammar of the machine language

The rules of programs, statements, transitions and expressions, and the reading of a whole program.
-/

namespace MachineLang

/-- The statements that begin with a keyword, by which they are told. -/
def statementBranches : List Branch :=
  [⟨.finite, "finite", true⟩, ⟨.pushdown, "pushdown", true⟩, ⟨.turing, "turing", true⟩,
   ⟨.grammar, "grammar", true⟩, ⟨.initial, "initial", true⟩, ⟨.final, "final", true⟩,
   ⟨.print, "print", true⟩, ⟨.test, "test", true⟩]

/-- The ways to write a symbol, by the kind of token under the mode for characters. -/
def conditionBranches : List Branch :=
  [⟨.character, "character", false⟩, ⟨.quotedCharacter, "character", false⟩,
   ⟨.namedCharacter, "character", false⟩, ⟨.string, "string", false⟩,
   ⟨.unterminatedString, "string", false⟩, ⟨.identifier, "identifier", false⟩]

/-- The ways to write an operand: in parentheses, or as a name. -/
def primaryBranches : List Branch :=
  [⟨.leftParen, "parenthesized", true⟩, ⟨.identifier, "identifier", false⟩]

/-- The operators between operands, all of which bind alike. -/
def infixOperators : List (TokenKind × BinaryOp) :=
  [(.union, .union), (.intersection, .intersection), (.concatenate, .concatenate)]

/-- The operators in front of an operand. -/
def prefixOperators : List (TokenKind × UnaryOp) :=
  [(.complement, .complement), (.determinize, .determinize), (.reenumerate, .reenumerate),
   (.star, .star), (.reverse, .reverse)]

namespace RuleTable

/-- The rules of the machine language, under the names by which they call each other. -/
def standard : RuleTable where
  rules :=
    let brackets := some (TokenKind.leftBracket, TokenKind.rightBracket)
    [("module", .root "statement" none .endOfInput),
     ("body", .root "statement" (some .leftBrace) .rightBrace),
     ("statement", .choose none statementBranches (some "transition")),
     ("finite", .leaf .finite),
     ("pushdown", .leaf .pushdown),
     ("turing", .leaf .turing),
     ("grammar", .leaf .grammar),
     ("grammar_body", .root "production" (some .leftBrace) .rightBrace),
     ("production", .leaf .production),
     ("initial", .leaf .initial),
     ("final", .leaf .final),
     ("print", .leaf .print),
     ("test", .leaf .test),
     ("transition", .alternative
       ["turing_transition", "pushdown_transition", "finite_transition"]),
     ("finite_transition", .leaf .finiteTransition),
     ("pushdown_transition", .leaf .pushdownTransition),
     ("turing_transition", .leaf .turingTransition),
     ("condition", .choose (some .char) conditionBranches none),
     ("symbols", .list "tape_symbol" brackets .comma),
     ("tape_symbol", .alternative ["qualified_symbol", "condition"]),
     ("qualified_symbol", .leaf .qualifiedSymbol),
     ("shifts", .list "tape_shift" brackets .comma),
     ("tape_shift", .alternative ["qualified_shift", "shift"]),
     ("qualified_shift", .leaf .qualifiedShift),
     ("shift", .leaf .shift),
     ("name_list", .list "identifier" brackets .comma),
     ("string_list", .list "string" brackets .comma),
     ("expression", .binary "unary" infixOperators),
     ("unary", .unary "primary" prefixOperators),
     ("primary", .choose none primaryBranches none),
     ("parenthesized", .leaf .parenthesized),
     ("identifier", .leaf .identifier),
     ("character", .leaf .character),
     ("string", .leaf .string),
     ("non_terminal", .leaf .nonTerminal)]

end RuleTable

/-- Reads a whole program; gives its tree and every token of the source. -/
def parseProgram (source : String) : Except SyntaxError (Node × List Token) :=
  match RuleTable.standard.parse "module" (.ofSource source) with
  | (.ok tree, s) => .ok (tree, s.tokens)
  | (.error e, _) => .error e

end MachineLang
