import FormalGrammars.Derivation.Exploration
import FormalGrammars.Derivation.Order
import FormalGrammars.Derivation.Relation
import FormalGrammars.Grammar.Consistency
import FormalGrammars.Grammar.Family
import FormalGrammars.Grammar.Reading
import FormalGrammars.Proofs.Ambiguity
import FormalGrammars.Proofs.Ancestry
import FormalGrammars.Proofs.Checkpoints
import FormalGrammars.Proofs.CorrectPrefix
import FormalGrammars.Proofs.Editing
import FormalGrammars.Proofs.Elimination.RestoredTrees
import FormalGrammars.Proofs.Elimination.Variants
import FormalGrammars.Proofs.EmptyDerivation
import FormalGrammars.Proofs.Exploration
import FormalGrammars.Proofs.Lexing
import FormalGrammars.Proofs.Lookahead
import FormalGrammars.Proofs.NamingIndependence
import FormalGrammars.Proofs.NormalForm.Equivalence
import FormalGrammars.Proofs.NormalForm.Faults
import FormalGrammars.Proofs.NormalForm.Freshness
import FormalGrammars.Proofs.NormalForm.Letters
import FormalGrammars.Proofs.NormalForm.Stability
import FormalGrammars.Proofs.NormalForm.StandIns
import FormalGrammars.Proofs.NormalForm.Usefulness
import FormalGrammars.Proofs.Predictive.Cells
import FormalGrammars.Proofs.Reading.CapitalScan
import FormalGrammars.Proofs.Reading.Legibility
import FormalGrammars.Proofs.Rejection
import FormalGrammars.Proofs.Search.ExactYield
import FormalGrammars.Proofs.Search.HandingOut
import FormalGrammars.Proofs.Search.Shortest
import FormalGrammars.Proofs.ShiftReduce.Cells
import FormalGrammars.Proofs.ShiftReduce.Stacks
import FormalGrammars.Proofs.ShiftReduce.SubsetConstruction
import FormalGrammars.Proofs.ShiftReduce.Termination
import FormalGrammars.Proofs.ShortestPath
import FormalGrammars.Proofs.Tabulation
import FormalGrammars.Proofs.Traceback
import FormalGrammars.Proofs.TreeWalk
import FormalGrammars.Proofs.Trial
import FormalGrammars.Proofs.Undoing
