import BlockHost.Heap.Call
import BlockHost.Script.Error
import BlockHost.Writer.Call

/-!
# Scripts of calls

A second kind of script: a list of calls on the session, given as values. Such a script reaches every
call that the session offers, also in orders that no sensible script would choose.
-/

namespace BlockHost.CallScripts

/-- What a script of calls does, one after the other. -/
inductive Step where
  /-- Allocates memory. -/
  | allocate (size : Nat)
  /-- Gives memory back. -/
  | free (pointer size : Nat)
  /-- Makes a call on the heap, and traces the answer. -/
  | heap (call : Heap.Call)
  | trace (text : String)
  /-- Traces the state that was restored last. -/
  | traceState
  /-- Traces what is seen of the block. -/
  | traceBlock
  /-- Copies the events of an input to an output. -/
  | echo (source target : Nat)
  /-- Makes a call on the writer of an output. -/
  | output (port : Nat) (call : Writer.Call)
  | fail (cause : ScriptFailure)
  | panic

/-- How a script of calls writes its state. -/
inductive Saving where
  /-- By a call on the writer. -/
  | call (c : Writer.Call)
  /-- Not at all. -/
  | refuse
deriving DecidableEq, Repr

/-- What a script of calls is told to do. -/
structure Plan where
  steps : List Step
  saving : List Saving
  /-- Whether it takes a state. -/
  restorable : Bool
  /-- The pointers and sizes that it gives back when it is replaced. -/
  releases : List (Nat × Nat)
  /-- Whether it has no state and gives nothing back. -/
  stateless : Bool

/-- A script of calls. -/
structure Program where
  plan : Plan
  /-- The pointers that it has got, in order. -/
  pointers : List Pointer
  /-- The frames that it has opened in this run, with the port of each. -/
  frames : List (Nat × Frame)
  /-- A description of the state that was restored last. -/
  state : String

namespace Program

/-- A script that has not run. -/
def ofPlan (plan : Plan) : Program where
  plan := plan
  pointers := []
  frames := []
  state := "none"

/-- The frames that were opened at a port, in order. -/
def framesAt (p : Program) (port : Nat) : List Frame :=
  p.frames.filterMap fun (q, frame) => if q = port then some frame else none

end Program

end BlockHost.CallScripts
