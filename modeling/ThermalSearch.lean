import ThermalSearch.Scalar
import ThermalSearch.Decimal
import ThermalSearch.Failure
import ThermalSearch.Word
import ThermalSearch.Table
import ThermalSearch.Random.ChaCha
import ThermalSearch.Random.Generator
import ThermalSearch.Acceptance
import ThermalSearch.Proposal
import ThermalSearch.Cancellation
import ThermalSearch.Journal
import ThermalSearch.Annealing.Cooling
import ThermalSearch.Annealing.Config
import ThermalSearch.Annealing.Run
import ThermalSearch.Tempering.Config
import ThermalSearch.Tempering.Ladder
import ThermalSearch.Tempering.Replica
import ThermalSearch.Tempering.Exchange
import ThermalSearch.Tempering.Run
import ThermalSearch.Model.Qubo
import ThermalSearch.Model.Couplings
import ThermalSearch.Model.Ising
import ThermalSearch.Model.Potts
import ThermalSearch.Timetable.Event
import ThermalSearch.Timetable.Layout
import ThermalSearch.Timetable.Encoding
import ThermalSearch.Solver
import ThermalSearch.Sample.Landscape
import ThermalSearch.Sample.Walk
import ThermalSearch.Proofs.Iteration
import ThermalSearch.Proofs.Scalar.FiniteOrder
import ThermalSearch.Proofs.Best
import ThermalSearch.Proofs.Annealing.Trajectory
import ThermalSearch.Proofs.Annealing.BestTracking
import ThermalSearch.Proofs.Tempering.Rounds
import ThermalSearch.Proofs.Tempering.BestTracking
import ThermalSearch.Proofs.Tempering.OrderIndependence
import ThermalSearch.Proofs.Scalar.Exact
import ThermalSearch.Proofs.Model.Triangle
import ThermalSearch.Proofs.Model.QuboEnergy
import ThermalSearch.Proofs.Timetable.Counting
import ThermalSearch.Proofs.Sums
import ThermalSearch.Proofs.Timetable.QuboMeaning
import ThermalSearch.Proofs.Model.Couplings
import ThermalSearch.Proofs.Model.IsingEnergy
import ThermalSearch.Proofs.Model.SpinModel
import ThermalSearch.Proofs.Annealing.Reach
import ThermalSearch.Proofs.Tempering.Reach
import ThermalSearch.Proofs.Settings
import ThermalSearch.Proofs.Solver.QuboGuarantee
import ThermalSearch.Proofs.Model.PottsEnergy
import ThermalSearch.Proofs.Solver.PottsGuarantee
import ThermalSearch.Proofs.Scalar.UnitChange
import ThermalSearch.Proofs.Annealing.UnitChange
import ThermalSearch.Proofs.Tempering.UnitChange
import ThermalSearch.Proofs.Scalar.Reals
import ThermalSearch.Proofs.Units
import ThermalSearch.Proofs.Annealing.Anytime
import ThermalSearch.Proofs.Tempering.Shape
import ThermalSearch.Proofs.Tempering.Anytime
import ThermalSearch.Proofs.Tempering.Adaptation
import ThermalSearch.Proofs.Annealing.Temperatures
import ThermalSearch.Proofs.Tempering.Accounting
import ThermalSearch.Proofs.Scalar.Binary64
import ThermalSearch.Proofs.Scalar.Rounding
import ThermalSearch.Proofs.Scalar.Power
import ThermalSearch.Proofs.Tempering.StartingLadder
import ThermalSearch.Proofs.Timetable.Decoding
import ThermalSearch.Proofs.Timetable.RoomAssignment
import ThermalSearch.Proofs.Finiteness
import ThermalSearch.Proofs.Scalar.Infinity
import ThermalSearch.Proofs.Tempering.Sinking
import ThermalSearch.Proofs.DetailedBalance
import ThermalSearch.Proofs.Scalar.Signs
import ThermalSearch.Proofs.Scalar.Overflow
import ThermalSearch.Proofs.Box
import ThermalSearch.Proofs.Scalar.Unrounded
import ThermalSearch.Proofs.Annealing.Falling
import ThermalSearch.Proofs.Annealing.Undefined
import ThermalSearch.Proofs.Scalar.Nearest
import ThermalSearch.Proofs.Scalar.Operations
import ThermalSearch.Proofs.Model.Entries
import ThermalSearch.Proofs.Steps
import ThermalSearch.Proofs.Annealing.FlatWindow
import ThermalSearch.Proofs.Tempering.Direction
import ThermalSearch.Proofs.Moves
import ThermalSearch.Proofs.Model.RowWalk
import ThermalSearch.Proofs.Tempering.Transpositions
import ThermalSearch.Proofs.Scalar.Accumulation
import ThermalSearch.Proofs.Model.FiniteSpinModel
import ThermalSearch.Proofs.Solver.GenuineStart
import ThermalSearch.Proofs.Timetable.Coefficients
import ThermalSearch.Proofs.Timetable.FiniteQubo
import ThermalSearch.Proofs.Scalar.Counts
import ThermalSearch.Proofs.Model.CouplingWrites
import ThermalSearch.Proofs.Model.PottsFields
import ThermalSearch.Proofs.Model.PottsView
import ThermalSearch.Proofs.Reassignment
import ThermalSearch.Proofs.Scalar.Differences
import ThermalSearch.Proofs.Verdict
import ThermalSearch.Proofs.MonotoneAcceptance
import ThermalSearch.Proofs.Annealing.RecentMoves
import ThermalSearch.Proofs.Annealing.Steering
