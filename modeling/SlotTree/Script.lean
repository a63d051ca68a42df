import SlotTree.Workspace.Command

/-! # Scripts

A script runs commands one after another in a workspace that starts empty. Afterwards all holders
are given up.
-/

namespace SlotTree

/-- What is seen of one command: its result, what was reported during it, and on request the terms
of all registers after it. -/
structure Step where
  result : Except Failure Answer
  journal : List (Event Value)
  registers : Option (List (String × String))

/-- What is seen of a script: its steps, and what was reported when the holders were given up. -/
structure Transcript where
  steps : List Step
  closing : List (Event Value)

namespace Workspace

/-- The terms of all registers. -/
def terms (w : Workspace) : List (String × String) :=
  w.registers.entries.map fun entry => (entry.1, Text.slotTerm (w.heap.viewSlot entry.2))

/-- Empties the journal. -/
def readJournal (w : Workspace) : Workspace × List (Event Value) :=
  ({ w with journal := #[] }, w.journal.toList)

/-- Carries out a command, with its result. -/
def exec (w : Workspace) (c : Command) : Except Failure Answer × Workspace := c.exec.run.run w

/-- Carries out a command, with all that is seen of it. -/
def perform (w : Workspace) (showRegisters : Bool) (c : Command) : Workspace × Step :=
  let (result, w) := w.exec c
  let (w, journal) := w.readJournal
  (w, ⟨result, journal, if showRegisters then some w.terms else none⟩)

/-- Carries out commands in order. What is seen of them is added to what was seen before. -/
def performOnto (showRegisters : Bool) (noted : Array Step) :
    Workspace → List Command → Workspace × List Step
  | w, [] => (w, noted.toList)
  | w, c :: rest =>
    let first := w.perform showRegisters c
    performOnto showRegisters (noted.push first.2) first.1 rest

/-- Carries out commands in order. -/
def performAll (showRegisters : Bool) (w : Workspace) (commands : List Command) :
    Workspace × List Step := performOnto showRegisters #[] w commands

/-- What was seen before comes first, and has no part in the commands. -/
theorem performOnto_eq (showRegisters : Bool) (noted : Array Step) (w : Workspace)
    (commands : List Command) :
    performOnto showRegisters noted w commands =
      ((performAll showRegisters w commands).1,
        noted.toList ++ (performAll showRegisters w commands).2) := by
  induction commands generalizing noted w with
  | nil => simp [performOnto, performAll]
  | cons c rest ih =>
    rw [performAll, performOnto, performOnto, ih, ih (#[].push _)]
    simp

theorem performAll_cons (showRegisters : Bool) (w : Workspace) (c : Command)
    (rest : List Command) :
    performAll showRegisters w (c :: rest) =
      let first := w.perform showRegisters c
      let later := performAll showRegisters first.1 rest
      (later.1, first.2 :: later.2) := by
  rw [performAll, performOnto, performOnto_eq]
  simp

end Workspace

/-- Runs a script under a policy. -/
def runScript (p : Policy) (showRegisters : Bool) (commands : List Command) : Transcript :=
  let (w, steps) := Workspace.performAll showRegisters (.empty p) commands
  ⟨steps, w.close.readJournal.2⟩

end SlotTree
