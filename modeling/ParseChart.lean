import ParseChart.Main
import ParseChart.Proofs.Agreement
import ParseChart.Proofs.Earley.Beginnings
import ParseChart.Proofs.Earley.Ending
import ParseChart.Proofs.Cyk.Orders
import ParseChart.Proofs.Earley.Beside
import ParseChart.Proofs.Earley.Renaming
import ParseChart.Proofs.Chart.Admission
import ParseChart.Proofs.Chart.Cells
import ParseChart.Proofs.Chart.Order
import ParseChart.Proofs.Chart.Trees
import ParseChart.Proofs.Cyk.Combination
import ParseChart.Proofs.Cyk.Locality
import ParseChart.Proofs.Earley.Fixpoint
import ParseChart.Proofs.Buckets.Keys
import ParseChart.Proofs.Grammar.Grouping
import ParseChart.Proofs.Grammar.Indices
import ParseChart.Proofs.Cyk.CellOrder
import ParseChart.Proofs.Earley.Size
import ParseChart.Proofs.Insertions
import ParseChart.Proofs.CommandLine.Level
