import SlotTree.Event
import SlotTree.Value
import SlotTree.Workspace.Failure

/-! # Answers -/

namespace SlotTree

/-- A node held by a dismantler: its term, or only its value and the number of its slots. -/
inductive HeldReport where
  | term (text : String)
  | outline (value : Value) (slots : Nat)

/-- What is seen of a dismantler. -/
structure MachineReport where
  done : Bool
  current : Option HeldReport
  parent : Option HeldReport
  steps : Nat
  rotations : Nat

/-- A single step of a dismantler: the state after it, whether there was anything to do, and what
was reported on the way. -/
structure StepReport where
  state : MachineReport
  more : Bool
  journal : List (Event Value)

/-- What a command answers. -/
inductive Answer where
  | nothing
  | bool (b : Bool)
  | number (n : Nat)
  | value (v : Value)
  | text (s : String)
  /-- A slot: the value of its node, or a hole. -/
  | slot (content : Option Value)
  | slots (contents : List (Option Value))
  | values (vs : List Value)
  /-- Whether a drawing went in as a whole, and what the sink holds. -/
  | written (complete : Bool) (text : String)
  | machine (report : MachineReport)
  | steps (reports : List StepReport)
  /-- One result for each act of a list. -/
  | results (rs : List (Except Failure Answer))

namespace Answer

/-- A thing that may be lacking. -/
def ofOption {β : Type} (f : β → Answer) : Option β → Answer
  | some b => f b
  | none => .nothing

end Answer

end SlotTree
