import GraphQubo.ClosedForm
import GraphQubo.Equivalence
import GraphQubo.Graph.Labels
import GraphQubo.Graph.Sample
import GraphQubo.Job.Load
import GraphQubo.Matrix.Energy
import GraphQubo.Proofs.Compile.Objection
import GraphQubo.Proofs.Variable.Numbering
import GraphQubo.Proofs.Compile.Refusal
import GraphQubo.Proofs.Graph.Arc
import GraphQubo.Proofs.Matrix.Accumulation
import GraphQubo.Proofs.Compile.OwnRows
import GraphQubo.Proofs.Compile.Filling
import GraphQubo.Proofs.Compile.Memory
import GraphQubo.Proofs.Compile.Interleaving
import GraphQubo.Proofs.Job.Decision
import GraphQubo.Proofs.Compile.CellMeaning
import GraphQubo.Proofs.Matrix.ExactEnergy
import GraphQubo.Proofs.Compile.Energy
import GraphQubo.Proofs.Problem.Accepted
import GraphQubo.Proofs.Problem.Tour
import GraphQubo.Proofs.Problem.HamiltonianCycle
import GraphQubo.Proofs.Problem.TravelingSalesperson
import GraphQubo.Proofs.Problem.ImpossibleTour
import GraphQubo.Proofs.Problem.Path
import GraphQubo.Proofs.Problem.LongestPath
import GraphQubo.Proofs.Graph.Reversed
import GraphQubo.Proofs.Compile.Doubling
import GraphQubo.Proofs.Matrix.Folding
import GraphQubo.Proofs.Polynomial.Value
import GraphQubo.Proofs.ClosedForm.Tour
import GraphQubo.Proofs.Compile.EnergyParts
import GraphQubo.Proofs.ClosedForm.Path
import GraphQubo.Proofs.Problem.Placement
import GraphQubo.Proofs.ClosedForm.Placement
import GraphQubo.Proofs.Graph.Building
import GraphQubo.Proofs.Graph.Renamed
import GraphQubo.Proofs.Graph.Shape
import GraphQubo.Proofs.Compile.Rearranged
import GraphQubo.Proofs.Compile.Renaming
import GraphQubo.Proofs.Compile.Around
import GraphQubo.Proofs.Problem.Rotation
import GraphQubo.Proofs.Compile.Unread
import GraphQubo.Proofs.Matrix.CanonicalForm
import GraphQubo.Proofs.Problem.Coloring
import GraphQubo.Proofs.Problem.Selection
import GraphQubo.Proofs.Problem.IndependentSet
import GraphQubo.Proofs.Problem.CutAndCover
import GraphQubo.Proofs.Job.Description
import GraphQubo.Proofs.Problem.DensestSubgraph
import GraphQubo.Proofs.Compile.Turns
import GraphQubo.Proofs.Job.Encoding
import GraphQubo.Proofs.Toml.Scalar
import GraphQubo.Proofs.Toml.Lines
import GraphQubo.Proofs.Toml.Statements
import GraphQubo.Proofs.Toml.Document
import GraphQubo.Proofs.Toml.Content
import GraphQubo.Proofs.Toml.Library
import GraphQubo.Proofs.Job.TomlText
import GraphQubo.Proofs.Decimal.Binary64
import GraphQubo.Proofs.Decimal.Reading
import GraphQubo.Proofs.Decimal.Shortest
import GraphQubo.Proofs.Toml.Number
import GraphQubo.Proofs.Coefficient.Order
import GraphQubo.Proofs.Graph.Weight
import GraphQubo.Proofs.Ascending
import GraphQubo.Proofs.Graph.Walk
import GraphQubo.Proofs.Graph.LastWins
import GraphQubo.Proofs.Graph.OutOfRange
import GraphQubo.Proofs.Graph.Agreement
import GraphQubo.Proofs.Graph.Labels
import GraphQubo.Proofs.Matrix.Tolerance
import GraphQubo.Proofs.Polynomial.Calls
import GraphQubo.Proofs.Coefficient.Difference
import GraphQubo.Proofs.Constraints.Pairs
import GraphQubo.Proofs.Matrix.Comparison
import GraphQubo.Proofs.Matrix.RowBands
import GraphQubo.Proofs.Matrix.WriteThrough
