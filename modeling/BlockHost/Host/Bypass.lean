import BlockHost.Host.Basic

/-!
# Bypassed outputs

What an output carries when the script did not get through the block: an empty sequence, or, when the
host passes its inputs on, the atom of the input with the same number. An output too short for either
is zero throughout.
-/

namespace BlockHost

namespace Bypass

/-- An output with an empty sequence at its start, or zero throughout when there is no room. -/
def silence (v : Vocabulary) (output : Buffer) : Buffer :=
  let write : Write Unit := do
    let frame ← Writer.openSequence
    Writer.close frame
  match write (Writer.start v output) with
  | .ok _ w => w.buffer
  | .error _ _ => .blank output.length

/-- An output with the whole atom of an input at its start, when that fits. -/
def passOn (input output : Buffer) : Option Buffer := do
  let a ← input.atom?.filter fun a => !a.isTruncated
  if a.totalSize ≤ output.length then
    some (output.startWith (input.take a.totalSize))
  else none

/-- The content of an output, for the input with the same number. -/
def output (mode : Bypass.Mode) (v : Vocabulary) (input : Option Buffer) (output : Buffer) :
    Buffer :=
  match mode with
  | .silent => silence v output
  | .passthrough => ((input.bind fun buffer => passOn buffer output)).getD (silence v output)

/-- The content of all outputs. -/
def outputs (mode : Bypass.Mode) (v : Vocabulary) (inputs outputs : List Buffer) : List Buffer :=
  outputs.zipIdx.map fun (buffer, port) => output mode v inputs[port]? buffer

end Bypass

end BlockHost
