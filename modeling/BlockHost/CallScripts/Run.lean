import BlockHost.Atom.Value
import BlockHost.CallScripts.Source
import BlockHost.Script.Language

/-!
# Running scripts of calls

What each step does in a session, and scripts of calls as a language of the host.
-/

namespace BlockHost.CallScripts

open Session

/-- An action of a script of calls. -/
abbrev Action := ScriptAction Program

/-- The pointer with a number. -/
def pointer (number : Nat) : Action Pointer := do
  match (← state).pointers[number]? with
  | some p => return p
  | none => Session.fail (.runtime "no pointer")

/-- Makes a call on the heap as the client that the script is. -/
def heapCall (call : Heap.Call) : Action Heap.Answer := fun s =>
  let after (c : Heap.Client) : Session Program :=
    { s with heap := c.heap, script := { s.script with pointers := c.pointers } }
  match call.run ⟨s.heap, s.script.pointers⟩ with
  | .ok answer c => .ok answer (after c)
  | .error fault c => .error (.crashed fault) (after c)

/-- What is seen of a block: frames and numbers of ports, then the text and the length of what lies at
each input, then how far each output is written. One port more is asked for than there is. -/
def describeBlock (b : Block) (outputs : List Writer) : String :=
  let inputs := b.inputs.length
  toString b.frames.toNat ++ " " ++ toString inputs ++ " " ++ toString outputs.length
    ++ String.join ((List.range (inputs + 1)).map fun port =>
      match b.input? port with
      | some a => " " ++ a.describe b.schema ++ ":" ++ toString (a.length b.schema)
      | none => " -")
    ++ String.join ((List.range (outputs.length + 1)).map fun port =>
      match outputs[port]? with
      | some w => " " ++ toString w.offset ++ "/" ++ toString w.capacity
      | none => " -")

/-- Makes a call on the writer of an output, which has to be there. -/
def outputCall (port : Nat) (call : Writer.Call) : Action Unit := do
  let p ← state
  match ← onOutput port (call.run (p.framesAt port)) with
  | none => Session.fail (.runtime "no such output")
  | some answer =>
      match answer.frame? with
      | none => return ()
      | some frame => setState { p with frames := p.frames ++ [(port, frame)] }

/-- Does a step. -/
def Step.run (b : Block) : Step → Action Unit
  | allocate size => do
      let p ← onHeap (Heap.allocate size)
      modify fun s => { s with script := { s.script with pointers := s.script.pointers ++ [p] } }
  | free number size => do
      let p ← pointer number
      onHeap (Heap.free p size)
  | heap call => do
      let answer ← heapCall call
      traceLine answer.text
  | trace text => traceLine text
  | traceState => do traceLine (← state).state
  | traceBlock => do traceLine (describeBlock b (← get).outputs)
  | echo source target =>
      match b.input? source with
      | none => return ()
      | some a => discard (onOutput target (Writer.events (a.events b.schema)))
  | output port call => outputCall port call
  | fail cause => Session.fail cause
  | panic => crash (.raised "script panicked")

/-- Does all steps of the script. -/
def run (b : Block) : Action Unit := do
  let p ← state
  setState { p with frames := [] }
  p.plan.steps.forM fun step => step.run b

/-- Writes the state by the remaining calls, when the given frames have been opened. -/
def saveFrom (frames : List Frame) : List Saving → EStateM ScriptFailure Writer Unit
  | [] => return ()
  | .refuse :: _ => throw (.runtime "save refused")
  | .call c :: rest => do
      let answer ← EStateM.adaptExcept ScriptFailure.writer (c.run frames)
      saveFrom (frames ++ answer.frame?.toList) rest

/-- Writes the state. -/
def save (p : Program) : EStateM ScriptFailure Writer Unit :=
  if p.plan.stateless then return () else saveFrom [] p.plan.saving

/-- Takes note of a state. -/
def restore (s : Schema) (saved : Atom) (p : Program) : Except ScriptFailure Program :=
  if p.plan.stateless then .ok p
  else if p.plan.restorable then
    .ok { p with state := toString saved.type.toNat ++ ":" ++ saved.describe s }
  else .error (.runtime "restore refused")

/-- What a script gives back when it is replaced, as far as it has got the pointers. -/
def releases (p : Program) : List (Pointer × Nat) :=
  if p.plan.stateless then []
  else p.plan.releases.filterMap fun (number, size) => p.pointers[number]?.map fun q => (q, size)

/-- Scripts of calls, on a system with the given supply. -/
def language (supply : Supply) : Language Program where
  compile source :=
    match Plan.ofSource? supply source with
    | some plan => return .ofPlan plan
    | none => throw (.refused (.compile "bad script"))
  run := run
  save := save
  restore := restore
  release p := Heap.releaseAll (releases p)

end BlockHost.CallScripts
