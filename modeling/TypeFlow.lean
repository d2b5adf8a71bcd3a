import TypeFlow.Files.Tree
import TypeFlow.Main
import TypeFlow.Proofs.Ascent
import TypeFlow.Proofs.PathSoundness
import TypeFlow.Proofs.GreatestSolution
import TypeFlow.Proofs.WorkBounds
import TypeFlow.Proofs.Unchecked
import TypeFlow.Proofs.Unhandled
import TypeFlow.Proofs.Annotations
import TypeFlow.Proofs.Independence
import TypeFlow.Proofs.UseLists
import TypeFlow.Proofs.Concatenation
import TypeFlow.Proofs.IndexSafety
import TypeFlow.Proofs.EventStream
import TypeFlow.Proofs.Worklists
import TypeFlow.Proofs.BranchSuccessors
import TypeFlow.Proofs.TargetSelection
import TypeFlow.Proofs.InstructionLines
import TypeFlow.Proofs.Settings
import TypeFlow.Proofs.Reports
import TypeFlow.Proofs.PhiFacts
import TypeFlow.Proofs.LatticeDrawing
import TypeFlow.Proofs.EdgesFirst
import TypeFlow.Proofs.TokenLayout
