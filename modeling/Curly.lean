import Curly.Main
import Curly.Command.Given
import Curly.Proofs.Command.Agreement
import Curly.Proofs.Parser.Accepts
import Curly.Proofs.Parser.Boundaries
import Curly.Proofs.Parser.Citations
import Curly.Proofs.Parser.Composition
import Curly.Proofs.Parser.Conditions
import Curly.Proofs.Parser.Conservation
import Curly.Proofs.Parser.ErrorNodes
import Curly.Proofs.Parser.Finds
import Curly.Proofs.Parser.Interruption
import Curly.Proofs.Parser.InvalidCharacters
import Curly.Proofs.Parser.Items
import Curly.Proofs.Parser.Kinds
import Curly.Proofs.Parser.Lookahead
import Curly.Proofs.Parser.Order
import Curly.Proofs.Parser.Parallel
import Curly.Proofs.Parser.Parameters
import Curly.Proofs.Parser.Progress
import Curly.Proofs.Parser.Resuming
import Curly.Proofs.Parser.RoundTrip
import Curly.Proofs.Parser.Safety
import Curly.Proofs.Parser.Semicolon
import Curly.Proofs.Parser.Sentences
import Curly.Proofs.Parser.Spans
import Curly.Proofs.Parser.Texts
import Curly.Proofs.Parser.WellFormed
import Curly.Proofs.Syntax.Inventory
import Curly.Proofs.Syntax.Part
import Curly.Proofs.Token.Composition
import Curly.Proofs.Token.LineEnds
import Curly.Proofs.Token.Lines
import Curly.Proofs.Token.Literals
import Curly.Proofs.Token.Lossless
import Curly.Proofs.Token.Munch
import Curly.Proofs.Token.Positions
import Curly.Proofs.Token.Spacing
import Curly.Proofs.Token.Spelling
import Curly.Proofs.Token.Warnings
import Curly.Proofs.Tree.Acyclic
import Curly.Proofs.Tree.Outline
import Curly.Proofs.Tree.Ownership
import Curly.Proofs.Tree.Refusal
import Curly.Proofs.Tree.Traversal
import Curly.Syntax.Grammar
import Curly.Syntax.Inventory
import Curly.Syntax.Reading
import Curly.Syntax.WellFormed
import Curly.Token.Scanner
import Curly.Tree.Forest
import Curly.Tree.Walk
