import ProgramTree.Census
import ProgramTree.Codec
import ProgramTree.FixedPoint
import ProgramTree.Proofs.Lockstep
import ProgramTree.Session
import ProgramTree.Transformer
import ProgramTree.Visitor
import ProgramTree.Proofs.Agreement
import ProgramTree.Proofs.Slots
import ProgramTree.Proofs.Walking
import ProgramTree.Proofs.Traversal
import ProgramTree.Proofs.Answering
import ProgramTree.Proofs.AnsweredTree
import ProgramTree.Proofs.Changes
import ProgramTree.Proofs.Contract
import ProgramTree.Proofs.Conduct
import ProgramTree.Proofs.FirstFault
import ProgramTree.Proofs.Narrowing
import ProgramTree.Proofs.WellTyped
import ProgramTree.Proofs.Replacement
import ProgramTree.Proofs.Interruption
import ProgramTree.Proofs.Confinement
import ProgramTree.Proofs.Accounting
import ProgramTree.Proofs.Marking
import ProgramTree.Proofs.Ownership
import ProgramTree.Proofs.Census
import ProgramTree.Proofs.Paths
import ProgramTree.Proofs.Parallel
import ProgramTree.Proofs.Rounds
import ProgramTree.Proofs.Stillness
import ProgramTree.Proofs.Placing
import ProgramTree.Proofs.Resolution
import ProgramTree.Proofs.LeafReplacement
import ProgramTree.Proofs.Folding
import ProgramTree.Proofs.Alongside
import ProgramTree.Proofs.Chronicle
import ProgramTree.Proofs.Policies
import ProgramTree.Proofs.Blindness
import ProgramTree.Proofs.Dispatching
import ProgramTree.Proofs.LiveLoop
import ProgramTree.Proofs.LiveEdits
import ProgramTree.Proofs.Reporting
import ProgramTree.Proofs.Encoding
import ProgramTree.Proofs.Snapshots
import ProgramTree.Proofs.LoopBounds
import ProgramTree.Proofs.Nesting
import ProgramTree.Proofs.Depth
