import MachineLang.Automaton.Basic
import MachineLang.CommandLine.Options
import MachineLang.CommandLine.Report
import MachineLang.Encoding.Decode
import MachineLang.Encoding.Machine
import MachineLang.Encoding.Parts
import MachineLang.Encoding.Tree
import MachineLang.Encoding.TreeParts
import MachineLang.Evaluation.Basic
import MachineLang.Evaluation.Declaration
import MachineLang.Evaluation.Dispatch
import MachineLang.Evaluation.Error
import MachineLang.Evaluation.Standard
import MachineLang.Grammar.Basic
import MachineLang.Json.Number
import MachineLang.Json.Printer
import MachineLang.Json.Reader
import MachineLang.Json.Value
import MachineLang.Machine.Analysis
import MachineLang.Machine.Basic
import MachineLang.Machine.Discovery
import MachineLang.Machine.Graph
import MachineLang.Machine.Kind
import MachineLang.Machine.Name
import MachineLang.Machine.Numbering
import MachineLang.Machine.Reach
import MachineLang.Machine.Reenumerate
import MachineLang.Machine.Regular
import MachineLang.Machine.Rename
import MachineLang.Machine.Run
import MachineLang.Machine.Subset
import MachineLang.Machine.Tape
import MachineLang.Machine.Union
import MachineLang.Main
import MachineLang.Ordered.Map
import MachineLang.Ordered.Set
import MachineLang.Parser.Basic
import MachineLang.Parser.Leaf
import MachineLang.Parser.Rule
import MachineLang.Parser.Run
import MachineLang.Parser.Standard
import MachineLang.Program.Basic
import MachineLang.Program.Error
import MachineLang.Program.Folder
import MachineLang.Program.Sample
import MachineLang.Proofs.Ambiguity
import MachineLang.Proofs.Arrangement
import MachineLang.Proofs.Blanks
import MachineLang.Proofs.BraceSeams
import MachineLang.Proofs.Carrying
import MachineLang.Proofs.Clients
import MachineLang.Proofs.Complement
import MachineLang.Proofs.Concatenation
import MachineLang.Proofs.Decoding
import MachineLang.Proofs.Definitions
import MachineLang.Proofs.Determinize
import MachineLang.Proofs.Discovery
import MachineLang.Proofs.Edges
import MachineLang.Proofs.Embedding
import MachineLang.Proofs.Evaluators
import MachineLang.Proofs.Expressions
import MachineLang.Proofs.ExtraSymbols
import MachineLang.Proofs.Findings
import MachineLang.Proofs.Frames
import MachineLang.Proofs.Intersection
import MachineLang.Proofs.Iteration
import MachineLang.Proofs.LexemeEnds
import MachineLang.Proofs.Lexemes
import MachineLang.Proofs.Lexing
import MachineLang.Proofs.LineByLine
import MachineLang.Proofs.Literals
import MachineLang.Proofs.LongestReads
import MachineLang.Proofs.Loops
import MachineLang.Proofs.MachineReading
import MachineLang.Proofs.MaximalMunch
import MachineLang.Proofs.Meanings
import MachineLang.Proofs.Moves
import MachineLang.Proofs.Munching
import MachineLang.Proofs.Names
import MachineLang.Proofs.Neighbours
import MachineLang.Proofs.NextTokens
import MachineLang.Proofs.Numbering
import MachineLang.Proofs.Outcomes
import MachineLang.Proofs.Paths
import MachineLang.Proofs.Placement
import MachineLang.Proofs.Places
import MachineLang.Proofs.Pointing
import MachineLang.Proofs.ProgramFollowing
import MachineLang.Proofs.Progress
import MachineLang.Proofs.Reach
import MachineLang.Proofs.Reading
import MachineLang.Proofs.Recognizers
import MachineLang.Proofs.Relocation
import MachineLang.Proofs.Renumbering
import MachineLang.Proofs.Reversal
import MachineLang.Proofs.RuleReading
import MachineLang.Proofs.Runs
import MachineLang.Proofs.Scopes
import MachineLang.Proofs.SearchBound
import MachineLang.Proofs.Sessions
import MachineLang.Proofs.Shapes
import MachineLang.Proofs.Soundness
import MachineLang.Proofs.Spans
import MachineLang.Proofs.Stacks
import MachineLang.Proofs.StatementEnds
import MachineLang.Proofs.Subset
import MachineLang.Proofs.SubsetMoves
import MachineLang.Proofs.SymbolRules
import MachineLang.Proofs.TapeValues
import MachineLang.Proofs.Termination
import MachineLang.Proofs.Tiling
import MachineLang.Proofs.TransitionRules
import MachineLang.Proofs.TransitionTexts
import MachineLang.Proofs.Transitions
import MachineLang.Proofs.Trials
import MachineLang.Proofs.TwoWay
import MachineLang.Proofs.Unbuffered
import MachineLang.Proofs.Union
import MachineLang.Proofs.Verdict
import MachineLang.Proofs.Versions
import MachineLang.Proofs.Visits
import MachineLang.Proofs.Writing
import MachineLang.Scope.Basic
import MachineLang.Scope.Value
import MachineLang.SyntaxError.Basic
import MachineLang.SyntaxError.Excerpt
import MachineLang.Text.Blank
import MachineLang.Text.Combining
import MachineLang.Text.Literal
import MachineLang.Text.Location
import MachineLang.Text.Offset
import MachineLang.Text.Quoted
import MachineLang.Text.Unprintable
import MachineLang.Token.Basic
import MachineLang.Token.Kind
import MachineLang.Token.Mode
import MachineLang.Token.Pattern
import MachineLang.Token.Scan
import MachineLang.TokenStream.Basic
import MachineLang.TokenStream.Script
import MachineLang.Tree.Height
import MachineLang.Tree.Node
import MachineLang.Tree.Parts
import MachineLang.Tree.Shapes
