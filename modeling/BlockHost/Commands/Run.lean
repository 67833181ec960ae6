import BlockHost.Atom.Value
import BlockHost.Commands.Compile

/-!
# Running commands

What each command does in a session, and the command language as a language of the host. A command
that fails ends the run; what the commands before it did stays done.
-/

namespace BlockHost.Command

open Session

/-- An action of a script of commands. -/
abbrev Action := ScriptAction Program

/-- Copies the events of each input that has an output of the same number. -/
def echoPorts (b : Block) : Action Unit := do
  let outputs := (← get).outputs.length
  (List.range (min b.inputs.length outputs)).forM fun port =>
    match b.input? port with
    | none => return ()
    | some input => discard (onOutput port (Writer.events (input.events b.schema)))

/-- Adds to the counter. -/
def addToCounter (n : Nat) : Action Unit := do
  let p ← state
  let sum := p.counter.toInt + n
  if sum < 2 ^ 63 then
    setState { p with counter := Int64.ofInt sum }
  else crash .addition

/-- Writes an atom at the last frame of the first output. -/
def writeLast (b : Block) (calls : Write Unit) : Action Unit :=
  discard (onOutput 0 do
    Writer.time b.lastFrame
    calls)

/-- The byte that `flood` writes. -/
def floodByte : UInt8 := 0xA5

/-- Writes a chunk of equal bytes. One byte more than the whole output is as much as any longer
chunk: neither fits. -/
def writeFlood (size : Nat) : Write Unit := do
  let w ← get
  Writer.chunk (List.replicate (min size (w.capacity + 1)) floodByte)

/-- Allocates memory for the step at a position, if it does not keep some already. -/
def holdAt (position size : Nat) : Action Unit := do
  let p ← state
  match (p.steps[position]?).bind Step.held with
  | some _ => return ()
  | none =>
      let q ← onHeap (Heap.allocate size)
      let p ← state
      setState { p with steps := p.steps.modify position fun s => { s with held := some (q, size) } }

/-- Runs the command at a position of the script. -/
def run (b : Block) (position : Nat) : Command → Action Unit
  | echo => echoPorts b
  | count => do
      match b.input? 0 with
      | none => pure ()
      | some input => addToCounter (input.events b.schema).length
      let p ← state
      writeLast b (Writer.scalar (.long p.counter))
  | hold size => holdAt position size
  | churn size => do
      let p ← onHeap (Heap.allocate size)
      onHeap (Heap.free p size)
  | trace text => traceLine text
  | flood size => writeLast b (writeFlood size)
  | rewind => discard (onOutput 0 do
      Writer.time 5
      Writer.scalar (.int 0)
      Writer.time 1)
  | fail => Session.fail (.runtime "script failed")
  | panic => crash (.raised "script panicked")

/-- Runs all commands of the script. -/
def runAll (b : Block) : Action Unit := do
  let p ← state
  p.steps.zipIdx.forM fun (step, position) => step.command.run b position

/-- Writes the counter. -/
def save (p : Program) : EStateM ScriptFailure Writer Unit :=
  EStateM.adaptExcept ScriptFailure.writer (Writer.scalar (.long p.counter))

/-- Takes the counter from an atom. -/
def restore (s : Schema) (saved : Atom) (p : Program) : Except ScriptFailure Program :=
  match saved.value? s with
  | some (.long n) => .ok { p with counter := n }
  | _ => .error (.runtime "state is not a counter")

/-- The command language. -/
def language : Language Program where
  compile := compile
  run := runAll
  save := save
  restore := restore
  release p := Heap.releaseAll p.holdings

end BlockHost.Command
