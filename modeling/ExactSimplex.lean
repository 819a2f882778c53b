import ExactSimplex.Number.Text
import ExactSimplex.Number.Arithmetic
import ExactSimplex.Number.Double
import ExactSimplex.Number.Range
import ExactSimplex.Choice
import ExactSimplex.Table
import ExactSimplex.Variable
import ExactSimplex.Vec
import ExactSimplex.Error
import ExactSimplex.Event
import ExactSimplex.Bounds
import ExactSimplex.Config
import ExactSimplex.Basis
import ExactSimplex.Matrix
import ExactSimplex.Problem
import ExactSimplex.Product
import ExactSimplex.Certificate
import ExactSimplex.Factor.CountGroups
import ExactSimplex.Factor.Active
import ExactSimplex.Factor.PivotSearch
import ExactSimplex.Factor.Eta
import ExactSimplex.Factor.Factorization
import ExactSimplex.Factor.Elimination
import ExactSimplex.Factor.Update
import ExactSimplex.Factor.Sized
import ExactSimplex.Search.State
import ExactSimplex.Search.Pricing
import ExactSimplex.Search.RatioTest
import ExactSimplex.Search.Pass
import ExactSimplex.Search.Run
import ExactSimplex.Solver.Basic
import ExactSimplex.Solver.Edit
import ExactSimplex.Solver.Optimize
import ExactSimplex.Session
import ExactSimplex.Checked
import ExactSimplex.Compressed
import ExactSimplex.Machine.Helper
import ExactSimplex.Machine.Factors
import ExactSimplex.Machine.Basic
import ExactSimplex.Machine.Edit
import ExactSimplex.Machine.Product
import ExactSimplex.Machine.Point
import ExactSimplex.Machine.Choice
import ExactSimplex.Machine.Pass
import ExactSimplex.Machine.Run
import ExactSimplex.Machine.Solve
import ExactSimplex.Proofs.Choice
import ExactSimplex.Proofs.Vectors
import ExactSimplex.Proofs.Bounds
import ExactSimplex.Proofs.Basis
import ExactSimplex.Proofs.Matrix
import ExactSimplex.Proofs.Rows
import ExactSimplex.Proofs.Problem
import ExactSimplex.Proofs.Product
import ExactSimplex.Proofs.Certificate
import ExactSimplex.Proofs.Margin
import ExactSimplex.Proofs.Factor.CountGroups
import ExactSimplex.Proofs.Factor.Arrivals
import ExactSimplex.Proofs.Factor.Active
import ExactSimplex.Proofs.Factor.PivotSteps
import ExactSimplex.Proofs.Factor.PivotSearch
import ExactSimplex.Proofs.Factor.CheapestPivot
import ExactSimplex.Proofs.Factor.Represents
import ExactSimplex.Proofs.Factor.Lines
import ExactSimplex.Proofs.Factor.Update
import ExactSimplex.Proofs.Factor.Elimination
import ExactSimplex.Proofs.Factor.Rank
import ExactSimplex.Proofs.Factor.Replacement
import ExactSimplex.Proofs.Factor.UpperFactor
import ExactSimplex.Proofs.Factor.Safety
import ExactSimplex.Proofs.Search.State
import ExactSimplex.Proofs.Search.Pricing
import ExactSimplex.Proofs.Search.RatioTest
import ExactSimplex.Proofs.Search.DualObjective
import ExactSimplex.Proofs.Search.Exchange
import ExactSimplex.Proofs.Search.Pass
import ExactSimplex.Proofs.Search.Bland
import ExactSimplex.Proofs.Search.Termination
import ExactSimplex.Proofs.Search.Run
import ExactSimplex.Proofs.Search.Safety
import ExactSimplex.Proofs.Solver.Edit
import ExactSimplex.Proofs.Solver.Optimize
import ExactSimplex.Proofs.Session
import ExactSimplex.Proofs.Answers
import ExactSimplex.Proofs.Duality
import ExactSimplex.Proofs.Verdicts
import ExactSimplex.Proofs.Frame
import ExactSimplex.Proofs.Program
import ExactSimplex.Proofs.FixedPoint
import ExactSimplex.Proofs.Coefficients
import ExactSimplex.Proofs.Safety
import ExactSimplex.Proofs.Visits
import ExactSimplex.Proofs.Iterates
import ExactSimplex.Proofs.BestStep
import ExactSimplex.Proofs.PhaseOne
import ExactSimplex.Proofs.Weights
import ExactSimplex.Proofs.WarmStart
import ExactSimplex.Proofs.Checked
import ExactSimplex.Proofs.Compressed.Layout
import ExactSimplex.Proofs.Compressed.Rows
import ExactSimplex.Proofs.Compressed.Store
import ExactSimplex.Proofs.Machine.Positions
import ExactSimplex.Proofs.Machine.Factors
import ExactSimplex.Proofs.Machine.Steps
import ExactSimplex.Proofs.Machine.Moves
import ExactSimplex.Proofs.Machine.Edits
import ExactSimplex.Proofs.Machine.Frame
import ExactSimplex.Proofs.Machine.Orderly
import ExactSimplex.Proofs.Machine.Partition
import ExactSimplex.Proofs.Machine.Contents
import ExactSimplex.Proofs.Machine.Reads
import ExactSimplex.Proofs.Machine.Leads
import ExactSimplex.Proofs.Machine.Multiply
import ExactSimplex.Proofs.Machine.Points
import ExactSimplex.Proofs.Machine.Choices
import ExactSimplex.Proofs.Machine.Passes
import ExactSimplex.Proofs.Machine.Runs
import ExactSimplex.Proofs.Machine.Views
import ExactSimplex.Proofs.Machine.Edited
import ExactSimplex.Proofs.Machine.Solves
import ExactSimplex.Proofs.Machine.Sessions
import ExactSimplex.Proofs.Machine.Safety
import ExactSimplex.Proofs.Machine.Problem
import ExactSimplex.Proofs.Machine.Program
