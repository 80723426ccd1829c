import IndexedGrammar.Chart.Editor
import IndexedGrammar.Grammar.Productive
import IndexedGrammar.Main
import IndexedGrammar.Proofs.Chart.Arising
import IndexedGrammar.Proofs.Chart.Balance
import IndexedGrammar.Proofs.Chart.Deletion
import IndexedGrammar.Proofs.Chart.Frontier
import IndexedGrammar.Proofs.Chart.Passes
import IndexedGrammar.Proofs.Chart.Renumbering
import IndexedGrammar.Proofs.Counter.Restricted
import IndexedGrammar.Proofs.Expansion.Renamed
import IndexedGrammar.Proofs.Expansion.Turns
import IndexedGrammar.Proofs.Forest.Accepted
import IndexedGrammar.Proofs.Forest.Heights
import IndexedGrammar.Proofs.Forest.Totals
import IndexedGrammar.Proofs.Forest.Walk
import IndexedGrammar.Proofs.Grammar.Edits
import IndexedGrammar.Proofs.Grammar.Productive
import IndexedGrammar.Proofs.Grammar.SententialForms
import IndexedGrammar.Proofs.Hypothesis.Naming
import IndexedGrammar.Proofs.Hypothesis.Permuted
import IndexedGrammar.Proofs.Hypothesis.Pruned
import IndexedGrammar.Proofs.Index
import IndexedGrammar.Proofs.Schema.Reading
import IndexedGrammar.Proofs.Session.Limit
import IndexedGrammar.Proofs.Session.Pruning
import IndexedGrammar.Proofs.Session.Rejection
import IndexedGrammar.Session
import IndexedGrammar.Text.UpperCase
