import BlockHost.Heap.Error
import BlockHost.Writer.Error

/-!
# Failures of scripts

Why a script does not compile or does not get through a block. Running out of memory or of room in an
output costs only the block in which it happens; every other failure disables the script.
-/

namespace BlockHost

/-- Why a script fails. -/
inductive ScriptFailure where
  /-- The heap has no block. -/
  | outOfMemory
  /-- A call on a writer is refused. -/
  | writer (cause : WriteFailure)
  /-- A call on the heap is refused, for another reason than a lack of memory. -/
  | heap (cause : HeapFailure)
  /-- The script itself gives up. -/
  | runtime (text : String)
  /-- The source is not a script. -/
  | compile (text : String)
deriving DecidableEq, Repr

namespace ScriptFailure

/-- The failure that a refusal of the heap means to a script. -/
def ofHeap : HeapFailure → ScriptFailure
  | .outOfMemory => outOfMemory
  | cause => heap cause

/-- Whether a failure disables the script. -/
def isDisabling : ScriptFailure → Bool
  | outOfMemory => false
  | writer .overflow => false
  | _ => true

/-- The name of a failure, with that of scripts. -/
def label : ScriptFailure → String
  | outOfMemory => "Script.OutOfMemory"
  | writer cause => "Script." ++ cause.label
  | heap cause => "Script." ++ cause.label
  | runtime _ => "Script.Runtime"
  | compile _ => "Script.Compile"

/-- The wording of a failure. -/
def message : ScriptFailure → String
  | outOfMemory => "out of memory"
  | writer cause => "forge: " ++ cause.message
  | heap cause => "pool: " ++ cause.message
  | runtime text => text
  | compile text => "compile error: " ++ text

end ScriptFailure

end BlockHost
