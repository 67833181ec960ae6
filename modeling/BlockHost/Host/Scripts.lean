import BlockHost.Host.Upkeep

/-!
# Replacing scripts

How the state of a script is written and read, and how another script takes the place of the one that
runs: all or nothing, with the state of the old one. Room for a state is made, and a saved state is
looked at, before the gate is taken; everything else is done behind it.
-/

namespace BlockHost.Host

variable {σ : Type}

/-! ## State -/

/-- The room for the state of a script. -/
def stateRoom (h : Host σ) : Except Fault Buffer :=
  Buffer.create h.settings.stateCapacity

/-- The state of a script as bytes, written into the given room. -/
def stateOf (language : Language σ) (h : Host σ) (room : Buffer) (script : σ) :
    Except HostFailure Bytes :=
  match language.save script (Writer.start h.schema.vocabulary room) with
  | .error cause _ => .error (.script cause)
  | .ok _ w =>
      match w.finish with
      | .error cause => .error (.writer cause)
      | .ok size => .ok (w.buffer.take size)

/-- Writes the state of the script, if there is one, into the given room. -/
def saveScript (language : Language σ) (room : Buffer) : HostAction σ Bytes := fun h =>
  match h.engine.value.script with
  | none => .error (.refused .noScript) h
  | some script =>
      match h.stateOf language room script with
      | .error cause => .error (.refused cause) h
      | .ok saved => .ok saved h

/-- The state of the script. -/
def save (language : Language σ) : HostAction σ Bytes := fun h =>
  match h.stateRoom with
  | .error fault => .error (.crashed fault) h
  | .ok room => atGate (saveScript language room) h

/-- Gives the script, if there is one, a state. -/
def restoreScript (language : Language σ) (state : Atom) : HostAction σ Unit := fun h =>
  match h.engine.value.script with
  | none => .error (.refused .noScript) h
  | some script =>
      let h := h.pass .stateRestored
      match language.restore h.schema state script with
      | .error cause => .error (.refused (.script cause)) h
      | .ok script => .ok () (h.updateEngine fun e => { e with script := some script })

/-- Gives the script a state that has been saved. -/
def restore (language : Language σ) (saved : Bytes) : HostAction σ Unit := fun h =>
  match Atom.parseWhole saved with
  | none => .error (.refused .invalidState) h
  | some state => atGate (restoreScript language state) h

/-! ## Loading -/

/-- The state of the script as far as it can be written, for the script that is to follow. -/
def heritage (language : Language σ) (h : Host σ) (room : Buffer) : Bytes :=
  match h.engine.value.script with
  | none => []
  | some script => (h.stateOf language room script).toOption.getD []

/-- A new script with the state of the old one, if it takes that. -/
def carryOver (language : Language σ) (h : Host σ) (saved : Bytes) (script : σ) : σ :=
  match Atom.parseWhole saved with
  | none => script
  | some state =>
      match language.restore h.schema state script with
      | .ok script => script
      | .error _ => script

/-- Replaces the script, when there is room for the state of the old one. The new one takes that state
over. When the source is refused, the old script stays, and the error is to be told. -/
def replaceScript (language : Language σ) (source : String) (room : Buffer) : HostAction σ Unit :=
  fun h =>
    let h := h.pass .scriptSwap
    let saved := h.heritage language room
    match language.compile source h.heap with
    | .error (.crashed fault) heap => .error (.crashed fault) (h.withHeap heap)
    | .error (.refused cause) heap =>
        .error (.refused (.script cause)) ((h.withHeap heap).updateEngine fun e =>
          { e with diagnostics := e.diagnostics.record cause.message false })
    | .ok script heap =>
        let script := h.carryOver language saved script
        match Engine.install language script source { h.engine.value with heap } with
        | .ok _ engine => .ok () (h.updateEngine fun _ => engine)
        | .error fault engine => .error (.crashed fault) (h.updateEngine fun _ => engine)

/-- Loads a source. Nothing happens when there is no room for the state of the old script. -/
def load (language : Language σ) (source : String) : HostAction σ Unit := fun h =>
  match h.stateRoom with
  | .error fault => .error (.crashed fault) h
  | .ok room => atGate (replaceScript language source room) h

/-- Takes a control message. Only a source is acted on; answers whether it was one. -/
def receive (language : Language σ) (message : Bytes) : HostAction σ Bool := fun h =>
  match (Atom.parse message).bind (Message.ofAtom? h.schema) with
  | some (.code source) =>
      match load language source h with
      | .ok _ h => .ok true h
      | .error stop h => .error stop h
  | _ => .ok false h

end BlockHost.Host
