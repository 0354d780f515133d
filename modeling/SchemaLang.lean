import SchemaLang.Position
import SchemaLang.Diagnostic
import SchemaLang.Token
import SchemaLang.Text.Quoted
import SchemaLang.Lexer.Scan
import SchemaLang.Lexer.Basic
import SchemaLang.Numeral.Integer
import SchemaLang.Numeral.Decimal
import SchemaLang.Numeral.Binary64
import SchemaLang.Numeral.Shortest
import SchemaLang.Numeral.Layout
import SchemaLang.Tree
import SchemaLang.Program.Basic
import SchemaLang.Program.Lookup
import SchemaLang.Program.Equality
import SchemaLang.Parser.Error
import SchemaLang.Parser.Body
import SchemaLang.Parser.Machine
import SchemaLang.Parser.Basic
import SchemaLang.FrontEnd
import SchemaLang.Text.Spread
import SchemaLang.Text.Printable
import SchemaLang.Text.Extending
import SchemaLang.Text.Json
import SchemaLang.Text.Term
import SchemaLang.Program.Json
import SchemaLang.Program.Term
import SchemaLang.Command.Arguments
import SchemaLang.Command.Log
import SchemaLang.Command.Run
import SchemaLang.Command.Directory
import SchemaLang.Main
import SchemaLang.Proofs.Location
import SchemaLang.Proofs.Lines
import SchemaLang.Proofs.Numeral.Integer
import SchemaLang.Proofs.Numeral.Decimal
import SchemaLang.Proofs.Numeral.Rounding
import SchemaLang.Proofs.Numeral.Layout
import SchemaLang.Proofs.Text.Json
import SchemaLang.Proofs.Program.Positions
import SchemaLang.Proofs.Program.WellFormed
import SchemaLang.Proofs.Program.Reading
import SchemaLang.Proofs.Program.Scopes
import SchemaLang.Proofs.Program.Json
import SchemaLang.Proofs.Parser.Rules
import SchemaLang.Proofs.Parser.Grammar
import SchemaLang.Proofs.Parser.Reads
import SchemaLang.Proofs.Parser.Leaves
import SchemaLang.Proofs.Parser.Soundness
import SchemaLang.Proofs.Parser.RuleInvariant
import SchemaLang.Proofs.Parser.Completeness
import SchemaLang.Proofs.Parser.Acceptance
import SchemaLang.Proofs.Parser.ViablePrefix
import SchemaLang.Proofs.Parser.Elsewhere
import SchemaLang.Proofs.Parser.Layout
import SchemaLang.Proofs.Parser.Blocks
import SchemaLang.Proofs.Parser.BlockStructure
import SchemaLang.Proofs.Parser.Repeats
import SchemaLang.Proofs.Parser.ErrorPlaces
import SchemaLang.Proofs.Parser.Descent
import SchemaLang.Proofs.Parser.DescentMachine
import SchemaLang.Proofs.Parser.Calls
import SchemaLang.Proofs.Lexer.Lexical
import SchemaLang.Proofs.Lexer.Fronts
import SchemaLang.Proofs.Lexer.Tokens
import SchemaLang.Proofs.Lexer.Stretches
import SchemaLang.Proofs.Lexer.Faults
import SchemaLang.Proofs.Lexer.Quoting
import SchemaLang.Proofs.Lexer.Elsewhere
import SchemaLang.Proofs.Lexer.Resuming
import SchemaLang.Proofs.Lexer.Standing
import SchemaLang.Proofs.Lexer.Places
import SchemaLang.Proofs.Source.Tokenized
import SchemaLang.Proofs.Source.Writing
import SchemaLang.Proofs.Source.Documents
import SchemaLang.Proofs.Source.Understood
import SchemaLang.Proofs.Source.Reading
import SchemaLang.Proofs.Source.Repeats
import SchemaLang.Proofs.Source.Caret
import SchemaLang.Proofs.Command.Agreement
import SchemaLang.Proofs.Lexer.LineEnds
import SchemaLang.Proofs.Parser.Nesting
import SchemaLang.Proofs.Parser.LongestFront
import SchemaLang.Proofs.Command.Verbosity
import SchemaLang.Proofs.Lexer.Settling
import SchemaLang.Proofs.Parser.EndOfInput
import SchemaLang.Proofs.Parser.Integers
import SchemaLang.Proofs.Program.Paths
import SchemaLang.Proofs.Source.Integers
import SchemaLang.Proofs.Command.Listing
