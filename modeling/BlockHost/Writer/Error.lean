/-!
# Refusals of the atom writer

What the writer refuses, and how it says so.
-/

namespace BlockHost

/-- Why the writer refuses a call. -/
inductive WriteFailure where
  /-- The buffer has no room. -/
  | overflow
  /-- The frame to be closed is not the innermost open one. -/
  | frameMismatch
  /-- No more frames can be open at a time. -/
  | tooDeep
  /-- Frames are still open at the end. -/
  | unbalanced (frames : Nat)
  /-- A time is below the last one of its sequence. -/
  | timeDecreasing
  /-- A time stands outside a sequence. -/
  | notInSequence
  /-- A vector gets something other than an element of its shape. -/
  | vectorMismatch
deriving DecidableEq, Repr

namespace WriteFailure

/-- The name of a refusal. -/
def name : WriteFailure → String
  | overflow => "Overflow"
  | frameMismatch => "FrameMismatch"
  | tooDeep => "TooDeep"
  | unbalanced _ => "Unbalanced"
  | timeDecreasing => "TimeDecreasing"
  | notInSequence => "NotInSequence"
  | vectorMismatch => "VectorMismatch"

/-- The name of a refusal, with that of the writer. -/
def label (e : WriteFailure) : String :=
  "Forge." ++ e.name

/-- The wording of a refusal. -/
def message : WriteFailure → String
  | overflow => "forge buffer overflow"
  | frameMismatch => "forge frame mismatch"
  | tooDeep => "forge frame stack exhausted"
  | unbalanced frames => toString frames ++ " forge frame(s) left open"
  | timeDecreasing => "invalid frame time, must not decrease"
  | notInSequence => "event time outside a sequence"
  | vectorMismatch => "vector supports only elements of its child type"

end WriteFailure

end BlockHost
