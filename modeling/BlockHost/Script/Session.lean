import BlockHost.Atom.Children
import BlockHost.Diagnostics
import BlockHost.Heap.Growth
import BlockHost.Script.Error
import BlockHost.Writer.Times
import BlockHost.Writer.Values

/-!
# Sessions

What a script can see and touch while it runs over a block. It sees the block: its frames and the
atoms at the inputs. It touches the session: its own state, the heap, the writers of the outputs and
the trace.

An action of a script (`ScriptAction`) that is refused or brought down leaves the session as it had
become.
-/

namespace BlockHost

/-- What a script is shown of a block. -/
structure Block where
  schema : Schema
  /-- The number of frames. -/
  frames : UInt32
  /-- What lies at each input, if it is an atom. -/
  inputs : List (Option Atom)

/-- The atom at an input. -/
def Block.input? (b : Block) (port : Nat) : Option Atom :=
  (b.inputs[port]?).join

/-- The time of the last frame. -/
def Block.lastFrame (b : Block) : Int64 :=
  Int64.ofNat (b.frames.toNat - 1)

/-- What a running script can change. -/
structure Session (σ : Type) where
  /-- The state of the script. -/
  script : σ
  heap : Heap
  trace : BoundedText traceCapacity
  /-- The writer of each output. -/
  outputs : List Writer

/-- An action of a script. -/
abbrev ScriptAction (σ : Type) := EStateM (Stop ScriptFailure) (Session σ)

namespace Session

variable {σ α : Type}

/-- Ends the script with a failure. -/
def fail (cause : ScriptFailure) : ScriptAction σ α :=
  throw (.refused cause)

/-- Ends the script as by accident. -/
def crash (fault : Fault) : ScriptAction σ α :=
  throw (.crashed fault)

/-- A call on the heap. -/
def onHeap (action : HeapAction α) : ScriptAction σ α := fun s =>
  match action s.heap with
  | .ok a heap => .ok a { s with heap }
  | .error (.refused cause) heap => .error (.refused (.ofHeap cause)) { s with heap }
  | .error (.crashed fault) heap => .error (.crashed fault) { s with heap }

/-- Calls on the writer of an output; `none` when there is no such output. -/
def onOutput (port : Nat) (calls : Write α) : ScriptAction σ (Option α) := fun s =>
  match s.outputs[port]? with
  | none => .ok none s
  | some w =>
      match calls w with
      | .ok a w => .ok (some a) { s with outputs := s.outputs.set port w }
      | .error cause w =>
          .error (.refused (.writer cause)) { s with outputs := s.outputs.set port w }

/-- Adds a line to the trace. -/
def traceLine (line : String) : ScriptAction σ Unit :=
  modify fun s => { s with trace := s.trace.pushLine line }

/-- The state of the script. -/
def state : ScriptAction σ σ := do
  return (← get).script

/-- Changes the state of the script. -/
def setState (script : σ) : ScriptAction σ Unit :=
  modify fun s => { s with script }

end Session

end BlockHost
