import BlockHost.Commands.Run
import BlockHost.Host.Growth
import BlockHost.Host.Scripts
import BlockHost.Host.Telling

/-!
# The rig

A rig drives a host of command scripts with a buffer for each port: events of whole numbers are put
into the inputs, blocks are run, and such events are read from the outputs.
-/

namespace BlockHost

/-- A host and a buffer for each of its ports. -/
structure Rig where
  host : Host Command.Program
  inputs : List Buffer
  outputs : List Buffer

namespace Rig

/-- The length of a buffer when nothing is said about it. -/
def standardPortSize : Nat := 4096

/-- Calls on a writer that are expected to succeed. -/
def expecting {α : Type} (expectation : String) (calls : Write α) : EStateM Fault Writer α :=
  EStateM.adaptExcept (Fault.refused expectation) calls

/-- Writes events of whole numbers as one sequence. -/
def writeNumbers (events : List (Int64 × Int32)) : EStateM Fault Writer Unit := do
  let frame ← expecting "input port too small" Writer.openSequence
  events.forM fun (t, n) => expecting "input event" do
    Writer.time t
    Writer.scalar (.int n)
  expecting "input port too small" (Writer.close frame)

/-- Puts events into an input, which has room for all of them. -/
def setInput (port : Nat) (events : List (Int64 × Int32)) : EStateM Fault Rig Unit := fun rig =>
  match rig.inputs[port]? with
  | none => .error (.index rig.inputs.length port) rig
  | some buffer =>
      match writeNumbers events (Writer.start rig.host.schema.vocabulary buffer) with
      | .ok _ w => .ok () { rig with inputs := rig.inputs.set port w.buffer }
      | .error fault w => .error fault { rig with inputs := rig.inputs.set port w.buffer }

/-- Empties so many inputs, from the given one on. -/
def clearInputs : (count port : Nat) → EStateM Fault Rig Unit
  | 0, _ => return ()
  | count + 1, port => do
      setInput port []
      clearInputs count (port + 1)

/-- The room that a buffer takes in a row of buffers, whatever its length. -/
def placeSize : Nat := 24

/-- Checks that a row of so many buffers of the given length can be addressed. -/
def checkRow (count portSize : Nat) : Except Fault Unit := do
  Fault.addressable portSize
  Fault.addressable (placeSize * count)

/-- Builds a rig with buffers of the given length and empty inputs. The buffers come first, whatever
the settings are. -/
def create (supply : Supply) (settings : Settings) (portSize : Nat) :
    Except (Stop HostFailure) Rig := do
  (checkRow settings.inputs portSize).mapError .crashed
  (checkRow settings.outputs portSize).mapError .crashed
  let host ← Host.create supply Command.language settings
  let rig : Rig :=
    { host
      inputs := List.replicate settings.inputs (.blank portSize)
      outputs := List.replicate settings.outputs (.blank portSize) }
  match clearInputs settings.inputs 0 rig with
  | .ok _ rig => return rig
  | .error fault _ => throw (.crashed fault)

/-- Runs a block. -/
def run (rig : Rig) (frames : UInt32) : Except Fault (Outcome × Rig) := do
  let (host, outcome, outputs) ← rig.host.process Command.language rig.inputs rig.outputs frames
  return (outcome, { rig with host, outputs })

/-- Runs a block while the worker holds the gate. -/
def runHeld (rig : Rig) (frames : UInt32) : Except Fault (Outcome × Rig) := do
  let (outcome, rig) ← { rig with host := rig.host.hold }.run frames
  return (outcome, { rig with host := rig.host.leave })

/-- The buffer of an output. -/
def output (rig : Rig) (port : Nat) : Except Fault Buffer :=
  match rig.outputs[port]? with
  | none => .error (.index rig.outputs.length port)
  | some buffer => .ok buffer

/-- The whole number that an atom is. -/
def number? (s : Schema) (a : Atom) : Option Int64 :=
  match a.value? s with
  | some (.int n) => some n.toInt64
  | some (.long n) => some n
  | _ => none

/-- The events of whole numbers at an output. -/
def numbers (rig : Rig) (port : Nat) : Except Fault (List (Int64 × Int64)) := do
  let buffer ← rig.output port
  match buffer.atom? with
  | none => return []
  | some a =>
      return (a.events rig.host.schema).filterMap fun (t, event) =>
        (number? rig.host.schema event).map fun n => (t, n)

end Rig

end BlockHost
