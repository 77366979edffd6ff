import PlainSheet.Main
import PlainSheet.Proofs.Address.Saturation
import PlainSheet.Proofs.Address.Display
import PlainSheet.Proofs.Address.RoundTrip
import PlainSheet.Proofs.Grammar.Token
import PlainSheet.Proofs.Grammar.Call
import PlainSheet.Proofs.Grammar.Content
import PlainSheet.Proofs.Formula.Check
import PlainSheet.Proofs.Number.Display
import PlainSheet.Proofs.Number.Value
import PlainSheet.Proofs.Number.Nearest
import PlainSheet.Proofs.Number.Words
import PlainSheet.Proofs.Number.Magnitude
import PlainSheet.Proofs.Number.Rounding
import PlainSheet.Proofs.Number.Scientific
import PlainSheet.Proofs.Grammar.Decimal
import PlainSheet.Proofs.Number.Conversion
import PlainSheet.Proofs.Number.Leading
import PlainSheet.Proofs.Number.Stability
import PlainSheet.Proofs.Number.Integers
import PlainSheet.Proofs.Table.Ends
import PlainSheet.Proofs.Table.Rows
import PlainSheet.Proofs.Table.Token
import PlainSheet.Proofs.Table.Canonical
import PlainSheet.Proofs.Table.Conservation
import PlainSheet.Proofs.Table.Separators
import PlainSheet.Proofs.Table.Lines
import PlainSheet.Proofs.Table.Lookup
import PlainSheet.Proofs.Evaluation.Sequence
import PlainSheet.Proofs.Evaluation.Paths
import PlainSheet.Proofs.Evaluation.Steps
import PlainSheet.Proofs.Evaluation.Results
import PlainSheet.Proofs.Evaluation.Levels
import PlainSheet.Proofs.Evaluation.DepthGuard
import PlainSheet.Proofs.Evaluation.Unlimited
import PlainSheet.Proofs.Sheet.Rendering
import PlainSheet.Proofs.Sheet.ReadBack
import PlainSheet.Proofs.Evaluation.Failures
import PlainSheet.Proofs.Evaluation.Locality
import PlainSheet.Proofs.Evaluation.BareNumbers
import PlainSheet.Proofs.Evaluation.Integers
import PlainSheet.Proofs.FileTree.Writing
import PlainSheet.Proofs.Table.Size
import PlainSheet.Proofs.Table.Storage
import PlainSheet.Proofs.Command.Outcome
import PlainSheet.Proofs.Command.Requests
import PlainSheet.Proofs.Sheet.Reload
import PlainSheet.Proofs.Command.Cells
import PlainSheet.Proofs.Command.Positionals
import PlainSheet.Proofs.Command.Influence
import PlainSheet.Proofs.Grammar.Cursor
