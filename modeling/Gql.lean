import Gql.Cli.Args
import Gql.Cli.Files
import Gql.Text.Bytes
import Gql.Source
import Gql.Token.Basic
import Gql.Text.Characters
import Gql.Token.Fault
import Gql.Token.Scanner
import Gql.Token.Number
import Gql.Token.StringValue
import Gql.Token.BlockValue
import Gql.Token.Lexer
import Gql.Token.Progress
import Gql.Token.Stream
import Gql.Json
import Gql.Diagnostic.Json
import Gql.Diagnostic.Basic
import Gql.Diagnostic.Render
import Gql.Document.Basic
import Gql.Document.Syntax
import Gql.Document.Grammar
import Gql.Document.Json
import Gql.Document.Printer
import Gql.Cli.Commands
import Gql.Document.Lookup
import Gql.Document.Walk
import Gql.Main
import Gql.Number.Words
import Gql.Proofs.Reading
import Gql.Proofs.Positions
import Gql.Proofs.Descent.Steps
import Gql.Proofs.Descent.Sound
import Gql.Proofs.Descent.Complete
import Gql.Proofs.Acceptance
import Gql.Proofs.Lexemes
import Gql.Proofs.Literals
import Gql.Proofs.Spelling
import Gql.Proofs.RoundTrip
import Gql.Proofs.Descent.Lookahead
import Gql.Proofs.Descent.Sentences
import Gql.Proofs.Tiling
import Gql.Proofs.Descent.Alike
import Gql.Proofs.Horizon
import Gql.Proofs.Padding
import Gql.Proofs.Partial
import Gql.Proofs.Descent.Faults.Basic
import Gql.Proofs.Descent.Faults.Values
import Gql.Proofs.Descent.Faults.Selections
import Gql.Proofs.Numbers
import Gql.Proofs.Strings
import Gql.Proofs.BlockStrings
import Gql.Proofs.Descent.Faults.Definitions
import Gql.Proofs.Viable
import Gql.Proofs.Concat
import Gql.Proofs.Descent.Places
import Gql.Proofs.Snippets
import Gql.Proofs.ParseCommand
import Gql.Proofs.Descent.Depth
import Gql.Proofs.Descent.Counter
