import Constituency.Main
import Constituency.Proofs.Rounded.Addition
import Constituency.Proofs.Rounded.Elementary
import Constituency.Proofs.Score
import Constituency.Proofs.Checked
import Constituency.Proofs.Keyed
import Constituency.Proofs.Packing
import Constituency.Proofs.Packing.RoundTrip
import Constituency.Proofs.Packing.KeySpace
import Constituency.Proofs.Vocabulary
import Constituency.Proofs.Grammar.Symbols
import Constituency.Proofs.Grammar.Tokens
import Constituency.Proofs.Grammar.Format
import Constituency.Proofs.Grammar.Rows
import Constituency.Proofs.Grammar.Compressed
import Constituency.Proofs.Grammar.Mass
import Constituency.Proofs.Grammar.Build
import Constituency.Proofs.Grammar.Order
import Constituency.Proofs.Grammar.Repeats
import Constituency.Proofs.Grammar.Checks
import Constituency.Proofs.Grammar.Productions
import Constituency.Proofs.Grammar.Layout
import Constituency.Proofs.Grammar.Refusal
import Constituency.Proofs.Chart.Cell
import Constituency.Proofs.Chart.Layouts
import Constituency.Proofs.Chart.Freezing
import Constituency.Proofs.Fill.CrossProduct
import Constituency.Proofs.Interval
import Constituency.Proofs.Fill.Passes
import Constituency.Proofs.Fill.Links
import Constituency.Proofs.Fill.Chains
import Constituency.Proofs.Fill.Rescoring
import Constituency.Proofs.Chart.Origin
import Constituency.Proofs.Fill.Cell
import Constituency.Proofs.Fill.Maxima
import Constituency.Proofs.Fill.Union
import Constituency.Proofs.Fill.Counter
import Constituency.Proofs.Fill.Backpointers
import Constituency.Proofs.Fill.Translation
import Constituency.Proofs.Fill.Filter
import Constituency.Proofs.Fill.Schedule
import Constituency.Proofs.Fill.Visits
import Constituency.Proofs.Fill.Grounding
import Constituency.Proofs.Parse.Consistency
import Constituency.Proofs.Parse.Extraction
import Constituency.Proofs.Parse.Optimality
import Constituency.Proofs.Fill.Interleaving
import Constituency.Proofs.Parse.Independence
import Constituency.Proofs.Parse.History
import Constituency.Proofs.Parse.Items
import Constituency.Proofs.Parse.Comparison
import Constituency.Proofs.Grammar.Renaming
import Constituency.Proofs.Parse.RuleOrder
import Constituency.Proofs.Parse.Recognition
import Constituency.Proofs.Parse.Packings
import Constituency.Proofs.Grammar.Lookup
import Constituency.Proofs.Parse.Safety
import Constituency.Proofs.Chart.Writes
import Constituency.Proofs.Parse.Unfolding
import Constituency.Proofs.Parse.Failure
import Constituency.Proofs.Parse.Locality
import Constituency.Proofs.Parse.Contributions
import Constituency.Proofs.Fill.Pieces
import Constituency.Proofs.Grammar.Writing
