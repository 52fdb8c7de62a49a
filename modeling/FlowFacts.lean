import FlowFacts.Fault
import FlowFacts.Fraction
import FlowFacts.Linear.Row
import FlowFacts.Linear.Matrix
import FlowFacts.Linear.Elimination
import FlowFacts.Linear.Solution
import FlowFacts.Linear.Rational
import FlowFacts.Bits
import FlowFacts.Order.SortedSet
import FlowFacts.Domain.Comparison
import FlowFacts.Domain.Basic
import FlowFacts.Domain.Product
import FlowFacts.Domain.Pointwise
import FlowFacts.Domain.Disjunction
import FlowFacts.Program.Statement
import FlowFacts.Program.Printer
import FlowFacts.Analysis.Basic
import FlowFacts.Parity.Basic
import FlowFacts.Parity.Analysis
import FlowFacts.Affine.Relations
import FlowFacts.Affine.Frame
import FlowFacts.Affine.Analysis
import FlowFacts.Combined.Product
import FlowFacts.Combined.Lift
import FlowFacts.Text.Characters
import FlowFacts.Program.Token
import FlowFacts.Program.Lexer
import FlowFacts.Program.Parser
import FlowFacts.Text.Extender
import FlowFacts.Text.Graphic
import FlowFacts.Text.Quoted
import FlowFacts.Graph.Basic
import FlowFacts.Graph.Drawing
import FlowFacts.Graph.Execution
import FlowFacts.Solver
import FlowFacts.Report
import FlowFacts.Meaning
import FlowFacts.Proofs.Rationals
import FlowFacts.Proofs.FractionTerms
import FlowFacts.Proofs.RowVectors
import FlowFacts.Proofs.PackedBits
import FlowFacts.Proofs.IntegerRows
import FlowFacts.Proofs.Echelon
import FlowFacts.Proofs.LinearSystems
import FlowFacts.Proofs.AffineSpaces
import FlowFacts.Proofs.Relations
import FlowFacts.Proofs.RationalMeaning
import FlowFacts.Proofs.Frames
import FlowFacts.Proofs.SumAnalysis
import FlowFacts.Proofs.Encodings
import FlowFacts.Proofs.SortedSets
import FlowFacts.Proofs.Graphs
import FlowFacts.Proofs.SolverRuns
import FlowFacts.Proofs.SumSolver
import FlowFacts.Proofs.ParityMaps
import FlowFacts.Proofs.ParityStates
import FlowFacts.Proofs.ParityLift
import FlowFacts.Proofs.Soundness
import FlowFacts.Proofs.FixedPoints
import FlowFacts.Proofs.ReducedForms
import FlowFacts.Proofs.SolutionSpaces
import FlowFacts.Proofs.AffineHulls
import FlowFacts.Proofs.RationalExactness
import FlowFacts.Proofs.ParityVectors
import FlowFacts.Proofs.ProductRefinement
import FlowFacts.Proofs.LiftChecks
import FlowFacts.Proofs.ParityPoints
import FlowFacts.Proofs.LiftPrecision
import FlowFacts.Proofs.Homogeneous
import FlowFacts.Proofs.Representation
import FlowFacts.Proofs.Reports
import FlowFacts.Proofs.LawfulDomains
import FlowFacts.Proofs.Rearrangements
import FlowFacts.Proofs.Simulation
import FlowFacts.Proofs.ColumnOrder
import FlowFacts.Proofs.Renaming
import FlowFacts.Proofs.Grammar
import FlowFacts.Proofs.Lexing
import FlowFacts.Proofs.Scanning
import FlowFacts.Proofs.ViablePrefixes
import FlowFacts.Proofs.ErrorLines
import FlowFacts.Proofs.RoundTrip
import FlowFacts.Proofs.Drawings
import FlowFacts.Proofs.Validation
import FlowFacts.Proofs.Domination
import FlowFacts.Proofs.RoundCaps
