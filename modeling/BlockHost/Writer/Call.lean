import BlockHost.Writer.Times
import BlockHost.Writer.Values

/-!
# Calls on a writer

Every call on a writer as a value, so that whole runs of calls can be given and spoken of. A call
that asks for a frame names it by its number among the frames that have been opened.
-/

namespace BlockHost.Writer

/-- A call on a writer. -/
inductive Call where
  | scalar (n : Scalar)
  | string (text : String)
  | path (text : String)
  | uri (text : String)
  | literal (text : String) (datatype lang : UInt32)
  | chunk (bs : Bytes)
  | typed (type : UInt32) (body : Bytes)
  /-- Copies the atom at the start of the bytes. -/
  | copy (bs : Bytes)
  | raw (bs : Bytes)
  | pad
  | key (key context : UInt32)
  | time (t : Int64)
  | openTuple
  | openSequence
  | openObject (id type : UInt32)
  | openVector (type size : UInt32)
  | close (frame : Nat)
  | restartTimes (frame : Nat)
  | reset
  | finish
  | written
deriving DecidableEq, Repr

/-- What a call that is not refused answers. -/
inductive Answer where
  | done
  | opened (frame : Frame)
  | size (n : Nat)
  | bytes (bs : Bytes)
  /-- No frame has the number that was given. -/
  | noFrame
  /-- There is no atom to copy. -/
  | noAtom
deriving DecidableEq, Repr

/-- The frame that a call has opened. -/
def Answer.frame? : Answer → Option Frame
  | opened frame => some frame
  | _ => none

/-- A call that answers nothing. -/
def done (calls : Write Unit) : Write Answer := do
  calls
  return .done

/-- A call that opens a frame. -/
def opening (calls : Write Frame) : Write Answer := do
  return .opened (← calls)

/-- A call on one of the frames that have been opened. -/
def onFrame (frames : List Frame) (number : Nat) (calls : Frame → Write Unit) : Write Answer :=
  match frames[number]? with
  | none => return .noFrame
  | some frame => done (calls frame)

/-- Makes a call, when the given frames have been opened so far. -/
def Call.run (frames : List Frame) : Call → Write Answer
  | scalar n => done (Writer.scalar n)
  | string text => done (Writer.string text)
  | path text => done (Writer.path text)
  | uri text => done (Writer.uri text)
  | literal text datatype lang => done (Writer.literal text datatype lang)
  | chunk bs => done (Writer.chunk bs)
  | typed type body => done (Writer.put type body)
  | copy bs =>
      match Atom.parse bs with
      | none => return .noAtom
      | some a => done (Writer.copy a)
  | raw bs => done (Writer.emit bs)
  | pad => done Writer.pad
  | key k context => done (Writer.key k context)
  | time t => done (Writer.time t)
  | openTuple => opening Writer.openTuple
  | openSequence => opening Writer.openSequence
  | openObject id type => opening (Writer.openObject id type)
  | openVector type size => opening (Writer.openVector type size)
  | close number => onFrame frames number Writer.close
  | restartTimes number => onFrame frames number Writer.restartTimes
  | reset => done (modify Writer.reset)
  | finish => do
      match (← get).finish with
      | .ok n => return .size n
      | .error cause => throw cause
  | written => do return .bytes (← get).written

end BlockHost.Writer
