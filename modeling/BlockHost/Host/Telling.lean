import BlockHost.Host.Upkeep

/-!
# Telling the user

What there is to tell is written as control messages into a sequence, all of it or nothing.
-/

namespace BlockHost.Host

variable {σ : Type}

/-- The messages that there are to tell: the source, the error, and the lines of the trace. -/
def pendingMessages (e : Engine σ) : List Message :=
  (if e.diagnostics.codePending then [.code e.code] else [])
    ++ (if e.diagnostics.errorPending then [.error e.diagnostics.error.text] else [])
    ++ e.diagnostics.trace.lines.map .trace

/-- Writes messages, each at the given time. -/
def writeMessages (t : Int64) (messages : List Message) : Write Unit :=
  messages.forM fun m => do
    Writer.time t
    m.write

/-- Writes a sequence of messages at the last frame, and answers its size. -/
def writeControl (frames : UInt32) (messages : List Message) : Write Nat := do
  let frame ← Writer.openSequence
  writeMessages (Int64.ofNat (frames.toNat - 1)) messages
  Writer.close frame
  match (← get).finish with
  | .ok size => return size
  | .error cause => throw cause

/-- Tells everything that there is to tell, in a sequence at the start of a buffer. Tells nothing
while another side holds the gate. Answers the size of the sequence, the buffer, and the host. What
could not be told, because the buffer has no room for all of it, is still to be told. -/
def tell (h : Host σ) (buffer : Buffer) (frames : UInt32) :
    Except WriteFailure Nat × Buffer × Host σ :=
  let w := Writer.start h.schema.vocabulary buffer
  match h.engine.tryEnter .audio with
  | none =>
      match writeControl frames [] w with
      | .ok size w => (.ok size, w.buffer, h)
      | .error cause w => (.error cause, w.buffer, h)
  | some held =>
      let h := { h with engine := held }
      match writeControl frames (pendingMessages h.engine.value) w with
      | .ok size w =>
          (.ok size, w.buffer,
            (h.updateEngine fun e => { e with diagnostics := e.diagnostics.afterSending }).leave)
      | .error cause w => (.error cause, w.buffer, h.leave)

/-- All signals sent since the last time. -/
def drainSignals (h : Host σ) : List UInt8 × Host σ :=
  let (numbers, signals) := h.signals.drain
  (numbers, { h with signals })

end BlockHost.Host
