import SlotTree.Heap.Access

/-! # Why a command fails -/

namespace SlotTree

/-- The causes for which a command is refused. -/
inductive Failure where
  /-- A part of the command is missing or of the wrong kind. -/
  | badInput
  | noSuchRegister
  | noSuchMachine
  | noSuchCursor
  /-- A register or a dismantler holds no node where one is needed. -/
  | emptyRegister
  /-- Other handles to the root are alive. -/
  | sharedRoot
  /-- There is no first or last slot. -/
  | noChildren
  /-- Handles are not cloned under unique ownership. -/
  | unsupported
  /-- Cursors of different orders are not compared. -/
  | typeMismatch
  /-- A checked slot index leads nowhere. -/
  | access (cause : AccessError)
  /-- An unchecked slot index is too large. -/
  | outOfBounds (index length : Nat)
  deriving DecidableEq

/-- The text that goes with a failure, if its name does not say all. -/
def Failure.message? : Failure → Option String
  | .access cause => some cause.message
  | .outOfBounds index length =>
    some s!"index out of bounds: the len is {length} but the index is {index}"
  | _ => none

/-- A part of a command as it was given; `none` stands for a missing or malformed part. -/
abbrev Field (α : Type) := Option α

/-- A part that the command cannot do without. -/
def Field.need {α : Type} : Field α → Except Failure α
  | some a => .ok a
  | none => .error .badInput

end SlotTree
