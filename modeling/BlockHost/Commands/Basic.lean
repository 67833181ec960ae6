import BlockHost.Heap.Basic

/-!
# The command language

A small language to drive the host with: a script is a list of commands, one a line, and each block
runs all of them in order. Its state is a counter.
-/

namespace BlockHost

/-- What a command does with a block. -/
inductive Command where
  /-- Copies the events of each input to the output with the same number. -/
  | echo
  /-- Adds the number of events at the first input to the counter and writes the counter at the last
  frame. -/
  | count
  /-- Allocates memory the first time and keeps it. -/
  | hold (size : Nat)
  /-- Allocates memory and gives it back. -/
  | churn (size : Nat)
  /-- Adds a line to the trace. -/
  | trace (text : String)
  /-- Writes a chunk at the last frame. -/
  | flood (size : Nat)
  /-- Writes events whose times decrease. -/
  | rewind
  /-- Gives up. -/
  | fail
  /-- Crashes. -/
  | panic
deriving DecidableEq, Repr

namespace Command

/-- An allocation and the size it was asked for. -/
abbrev Holding := Pointer × Nat

/-- A command of a script and the memory it keeps. -/
structure Step where
  command : Command
  held : Option Holding
deriving DecidableEq, Repr

/-- A script. -/
structure Program where
  steps : List Step
  /-- What was allocated when the script was compiled. -/
  reserved : List Holding
  counter : Int64
deriving DecidableEq, Repr

/-- All memory of a script, that of its commands first. -/
def Program.holdings (p : Program) : List Holding :=
  p.steps.filterMap Step.held ++ p.reserved

end Command

end BlockHost
