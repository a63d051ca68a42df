import SlotTree.Script
import SlotTree.Proofs.Drain.Execution
import SlotTree.Proofs.Dismantler.Step
import SlotTree.Proofs.Dismantler.Termination
import SlotTree.Proofs.Teardown
import SlotTree.Proofs.Dismantler.Vacancy
import SlotTree.Proofs.Heap.Private
import SlotTree.Proofs.Workspace.Holders
import SlotTree.Proofs.Workspace.Growth
import SlotTree.Proofs.Workspace.Action
import SlotTree.Proofs.Workspace.Change
import SlotTree.Proofs.Workspace.Machines
import SlotTree.Proofs.Workspace.Command
import SlotTree.Proofs.Workspace.Run
import SlotTree.Proofs.Heap.Unfolding
import SlotTree.Proofs.Dismantler.Order
import SlotTree.Proofs.Drain.Spine
import SlotTree.Proofs.Drain.Order
import SlotTree.Proofs.Workspace.Bystander
import SlotTree.Proofs.Workspace.Dismantling
import SlotTree.Proofs.Workspace.Navigation
import SlotTree.Proofs.Workspace.Isolation
import SlotTree.Proofs.Policies.Heap
import SlotTree.Proofs.Policies.Teardown
import SlotTree.Proofs.Policies.Command
import SlotTree.Proofs.Policies.Run
import SlotTree.Proofs.Text.Reading
import SlotTree.Proofs.Text.Entries
import SlotTree.Proofs.Text.Refusal
import SlotTree.Proofs.Text.Record
import SlotTree.Proofs.Dismantler.Course
import SlotTree.Proofs.Dismantler.Padding
import SlotTree.Proofs.Dismantler.Checks
import SlotTree.Proofs.Walk.Levels
import SlotTree.Proofs.Dismantler.Work
import SlotTree.Proofs.Drain.Work
import SlotTree.Proofs.Heap.Paths
import SlotTree.Proofs.Walk.Progress
