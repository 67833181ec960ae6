import BlockHost.Host.Bypass

/-!
# Processing blocks

The audio side of the host. For each block it tries the gate once. With the engine, the script first
runs over the blocks that were put aside, if any, and what it writes moves to the start of the outputs;
then it runs over the block itself. Without the engine, the block is put aside. Every served output
then carries what the script wrote, or its bypass.

The blocks that were put aside are shown to the script at most once: they are spent by the first block
that gets the engine, whatever becomes of it.
-/

namespace BlockHost

/-- What a run over a block needs. -/
structure Replay where
  /-- The backlogs, as sequences. -/
  inputs : List (Option Atom)
  /-- The frames of the blocks put aside, as far as a block can have so many. -/
  frames : UInt32

namespace Session

variable {σ : Type}

/-- A call on each output, in order. -/
def onOutputs {α β : Type} (calls : α → Write β) : (port : Nat) → List α →
    ScriptAction σ (List (Option β))
  | _, [] => return []
  | port, a :: rest => do
      let b ← onOutput port (calls a)
      return b :: (← onOutputs calls (port + 1) rest)

/-- Opens a sequence at each of so many outputs. -/
def openOutputs (count : Nat) : ScriptAction σ (List Frame) := do
  let frames ← onOutputs (fun () => Writer.openSequence) 0 (List.replicate count ())
  return frames.filterMap id

/-- Moves what has been written so far to the start of the outputs. -/
def restartOutputs (frames : List Frame) : ScriptAction σ Unit :=
  discard (onOutputs Writer.restartTimes 0 frames)

/-- Closes the sequence of an output. -/
def closeOutput (frame : Frame) : Write Unit := do
  Writer.close frame
  match (← get).finish with
  | .ok _ => pure ()
  | .error cause => throw cause

/-- Closes the sequence at each output. -/
def closeOutputs (frames : List Frame) : ScriptAction σ Unit :=
  discard (onOutputs closeOutput 0 frames)

/-- Runs the script over the blocks put aside, if any, and over the block at hand. -/
def play (language : Language σ) (schema : Schema) (replay : Option Replay)
    (inputs : List (Option Atom)) (frames : UInt32) : ScriptAction σ Unit := do
  let sequences ← openOutputs (← get).outputs.length
  match replay with
  | none => pure ()
  | some r =>
      language.run { schema, frames := r.frames, inputs := r.inputs }
      restartOutputs sequences
  language.run { schema, frames, inputs }
  closeOutputs sequences

end Session

namespace Host

variable {σ : Type}

/-- Sends a signal. -/
def send (h : Host σ) (signal : Signal) : Host σ :=
  { h with signals := h.signals.push signal }

/-- Empties all backlogs. -/
def resetBacklogs (h : Host σ) : Host σ :=
  { h with backlogs := h.backlogs.map Backlog.reset, stashedFrames := 0, stashedBlocks := 0 }

/-- Empties the backlogs of blocks that no script will be shown. -/
def forgetBacklogs (h : Host σ) : Host σ :=
  if h.hasBacklog then h.resetBacklogs else h

/-- Empties the backlogs of blocks that the script has been shown, and counts what they had lost. -/
def spendBacklogs (h : Host σ) (delivered : Bool) : Host σ :=
  let dropped := (h.backlogs.map Backlog.dropped).sum
  let h := { h with tally := { h.tally with dropped := h.tally.dropped + dropped } }
  let h :=
    if delivered then
      { h with tally := { h.tally with replays := h.tally.replays + 1 } }.send .stashReplayed
    else h
  h.resetBacklogs

/-- Counts a bypassed block. -/
def countBypass (h : Host σ) : Host σ :=
  { h with tally := { h.tally with bypassed := h.tally.bypassed + 1 } }

/-- The blocks put aside, as the script is shown them. -/
def replay (h : Host σ) : Option Replay :=
  if h.hasBacklog then
    some
      { inputs := h.backlogs.map fun b => Atom.parse b.sequence
        frames := UInt32.ofNat (min h.stashedFrames (2 ^ 32 - 1)) }
  else none

/-- Runs the script of the engine over a block. Answers how the run ended, the engine as it left it,
and the outputs. -/
def run (language : Language σ) (h : Host σ) (script : σ) (inputs outputs : List Buffer)
    (frames : UInt32) : Except ScriptFailure Unit × Engine σ × List Buffer :=
  let e := h.engine.value
  let session : Session σ :=
    { script, heap := e.heap, trace := e.diagnostics.trace
      outputs := outputs.map (Writer.start h.schema.vocabulary) }
  let finished (s : Session σ) : Engine σ × List Buffer :=
    ({ e with script := some s.script
              heap := s.heap
              diagnostics := { e.diagnostics with trace := s.trace } },
      s.outputs.map Writer.buffer)
  match Session.play language h.schema h.replay (inputs.map Buffer.atom?) frames session with
  | .ok _ s => (.ok (), finished s)
  | .error (.refused cause) s => (.error cause, finished s)
  | .error (.crashed _) s => (.error (.runtime "script panicked"), finished s)

/-- A block for which the gate is held by the audio side. -/
def processHeld (language : Language σ) (h : Host σ) (inputs outputs : List Buffer)
    (frames : UInt32) : Host σ × Outcome × List Buffer :=
  let bypass (h : Host σ) (reason : Bypass.Reason) (outputs : List Buffer) :=
    (h.countBypass, Outcome.bypassed reason,
      Bypass.outputs h.settings.bypass h.schema.vocabulary inputs outputs)
  match h.engine.value.script with
  | none => bypass h.forgetBacklogs .noScript outputs
  | some script =>
      if h.engine.value.diagnostics.disabled then bypass h.forgetBacklogs .disabled outputs
      else
        let replayed := h.hasBacklog
        let (ended, engine, outputs) := h.run language script inputs outputs frames
        let h := { h with engine := { h.engine with value := engine } }
        let h := if replayed then h.spendBacklogs (ended matches .ok _) else h
        match ended with
        | .ok _ =>
            let h := { h with tally := { h.tally with processed := h.tally.processed + 1 } }
            (h.send .blockProcessed, .processed replayed, outputs)
        | .error cause =>
            if cause.isDisabling then
              let h :=
                { h with
                  engine := h.engine.update fun e =>
                    { e with diagnostics := e.diagnostics.record cause.message true }
                  tally := { h.tally with errors := h.tally.errors + 1 } }
              bypass (h.send .scriptError) .error outputs
            else if cause = .outOfMemory then bypass (h.send .oomBypass) .outOfMemory outputs
            else bypass (h.send .forgeOverflow) .overflow outputs

/-- Puts the inputs of a block aside, one input after the other. An input beyond those supplied is put
aside as empty. -/
def putAside (frames : UInt32) : List Backlog → List Buffer → SignalQueue →
    Except Fault (List Backlog × SignalQueue)
  | [], _, signals => .ok ([], signals)
  | b :: rest, inputs, signals => do
      let after ← b.append (inputs.head?.bind Buffer.atom?) frames
      let signals := if after.failed && !b.failed then signals.push .stashOverflow else signals
      let (rest, signals) ← putAside frames rest inputs.tail signals
      return (after :: rest, signals)

/-- A block for which the gate is held by another side. -/
def processStashed (h : Host σ) (inputs outputs : List Buffer) (frames : UInt32) :
    Except Fault (Host σ × Outcome × List Buffer) := do
  let (backlogs, signals) ← putAside frames h.backlogs inputs h.signals
  if 2 ^ 63 ≤ h.stashedFrames + frames.toNat then throw .addition
  if 2 ^ 32 ≤ h.stashedBlocks + 1 then throw .addition
  let h :=
    { h with
      backlogs
      signals
      stashedFrames := h.stashedFrames + frames.toNat
      stashedBlocks := h.stashedBlocks + 1
      tally := { h.tally with stashed := h.tally.stashed + 1 } }
  return (h.send .blockStashed, .stashed,
    Bypass.outputs h.settings.bypass h.schema.vocabulary inputs outputs)

/-- Processes a block: what lies at the inputs, the buffers of the outputs, and the number of frames.
Inputs and outputs beyond the configured ones are left alone. Answers the host after the block, what
became of the block, and all buffers. -/
def process (language : Language σ) (h : Host σ) (inputs outputs : List Buffer) (frames : UInt32) :
    Except Fault (Host σ × Outcome × List Buffer) := do
  let served := outputs.take h.settings.outputs
  let inputs := inputs.take h.settings.inputs
  let before := h.heap.requestCount
  let (h, outcome, served) ←
    match h.engine.tryEnter .audio with
    | some engine =>
        let (h, outcome, served) := { h with engine }.processHeld language inputs served frames
        pure ({ h with engine := h.engine.leave }, outcome, served)
    | none => h.processStashed inputs served frames
  let h := if h.heap.requestCount ≠ before then h.send .growthRequested else h
  return (h.send .callbackClean, outcome, served ++ outputs.drop h.settings.outputs)

end Host

end BlockHost
