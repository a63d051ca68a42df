import SlotTree.Walk.Cursor
import SlotTree.Workspace.Query

/-! # Acts on cursors

A list of acts starts cursors under names and moves them. The workspace does not change meanwhile,
and the cursors end with the list. A failed act leaves all cursors as they were.
-/

namespace SlotTree

/-- What is done with a cursor that is there. -/
inductive CursorMove where
  | next
  | current
  | exhausted
  | rest
  | take (n : Field Nat)
  /-- A word that stands for nothing. -/
  | unknown

/-- One act of a list. -/
inductive CursorAct where
  | start (cursor : String) (order : Field Order) (target : Target)
  | move (cursor : String) (move : CursorMove)
  /-- Whether two cursors are at the same position. -/
  | equal (cursor : String) (other : Field String)
  | differ (cursor : String) (other : Field String)
  /-- An act that names no cursor. -/
  | malformed

namespace Workspace

/-- The live cursors, over trees of values. -/
abbrev Cursors := Registry (Cursor (Located Value))

/-- A cursor that is there. -/
def cursor (cursors : Cursors) (name : String) : Except Failure (Cursor (Located Value)) :=
  match cursors.get? name with
  | some c => .ok c
  | none => .error .noSuchCursor

/-- Compares two cursors. Both names are there before either cursor is looked up. -/
def samePosition (cursors : Cursors) (name : String) (other : Field String) :
    Except Failure Bool := do
  let other ← other.need
  let c ← cursor cursors name
  let d ← cursor cursors other
  match c.equals? d with
  | some b => return b
  | none => throw .typeMismatch

/-- Moves or looks at a cursor: the answer, and the cursor after it. -/
def moveCursor (c : Cursor (Located Value)) :
    CursorMove → Except Failure (Answer × Cursor (Located Value))
  | .next =>
    match c.next with
    | some (t, c) => return (.value t.value.value, c)
    | none => return (.nothing, c)
  | .current => return (.ofOption (fun t => .value t.value.value) c.current, c)
  | .exhausted => return (.bool c.isExhausted, c)
  | .rest => return (.values (valuesOf c.takeAll.1), c.takeAll.2)
  | .take n => do
    let taken := c.take (← n.need)
    return (.values (valuesOf taken.1), taken.2)
  | .unknown => throw .badInput

/-- Performs an act: the answer, and the cursors after it. -/
def act (w : Workspace) (cursors : Cursors) : CursorAct → Except Failure (Answer × Cursors)
  | .start name order target => do
    let id ← w.locate target
    let order ← order.need
    match w.heap.view id with
    | some t => return (.nothing, cursors.insert name (.start order t))
    | none => throw .emptyRegister
  | .move name move => do
    let (answer, c) ← moveCursor (← cursor cursors name) move
    return (answer, cursors.insert name c)
  | .equal name other => do return (.bool (← samePosition cursors name other), cursors)
  | .differ name other => do return (.bool !(← samePosition cursors name other), cursors)
  | .malformed => throw .badInput

/-- Performs acts in order, and answers each of them. -/
def acts (w : Workspace) (cursors : Cursors) : List CursorAct → List (Except Failure Answer)
  | [] => []
  | a :: rest =>
    match w.act cursors a with
    | .ok (answer, cursors) => .ok answer :: acts w cursors rest
    | .error failure => .error failure :: acts w cursors rest

end Workspace

end SlotTree
