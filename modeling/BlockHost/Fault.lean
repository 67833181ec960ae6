import BlockHost.Numbers
import BlockHost.Text.Quoted
import BlockHost.Writer.Error

/-!
# Faults

An operation can be refused, which is an answer, or be brought down by a fault, which is not: an
addition that leaves the range of its word, a range that is not inside its buffer, an expectation that
turns out to be wrong. A fault ends the operation at once; what was done before it stays done.
-/

namespace BlockHost

/-- What brings an operation down. -/
inductive Fault where
  /-- A sum is above the range of its word. -/
  | addition
  /-- A difference is below zero. -/
  | subtraction
  /-- A position lies outside a list. -/
  | index (length position : Nat)
  /-- A range of so many bytes does not lie inside a buffer. -/
  | range (length start count : Nat)
  /-- A copy would end outside its buffer. -/
  | copyTarget
  /-- More bytes are asked for than can be addressed. -/
  | capacity
  /-- The script gives up. -/
  | raised (text : String)
  /-- A call on a writer that was expected to succeed was refused. -/
  | refused (expectation : String) (cause : WriteFailure)
  /-- Checkpoints that a contract asks for have not been passed. -/
  | checkpointsMissed (contract : String) (missed : List Nat)
  /-- Signals that a contract asks for have not been sent. -/
  | signalsMissed (contract : String) (missed sent : List String)
deriving DecidableEq, Repr

/-- The wording of a fault. A range is named by its start when that is behind the buffer already, and
else by its end. -/
def Fault.message : Fault → String
  | addition => "attempt to add with overflow"
  | subtraction => "attempt to subtract with overflow"
  | index length position =>
      "index out of bounds: the len is " ++ toString length ++ " but the index is "
        ++ toString position
  | range length start count =>
      (if length < start then "range start index " ++ toString start
        else "range end index " ++ toString (start + count))
        ++ " out of range for slice of length " ++ toString length
  | copyTarget => "dest is out of bounds"
  | capacity => "capacity overflow"
  | raised text => text
  | refused expectation cause => expectation ++ ": " ++ cause.name
  | checkpointsMissed contract missed =>
      "Contract test '" ++ contract ++ "' failed: invariants not enforced: ["
        ++ ", ".intercalate (missed.map toString) ++ "]"
  | signalsMissed contract missed sent =>
      "RT Contract '" ++ contract ++ "' missing invariants: [" ++ Text.quotedList missed
        ++ "]. Present: \x7b" ++ Text.quotedList sent ++ "\x7d"

/-- Why an operation ended early. -/
inductive Stop (ε : Type) where
  /-- It was refused. -/
  | refused (cause : ε)
  /-- It was brought down. -/
  | crashed (fault : Fault)
deriving DecidableEq, Repr

namespace Fault

/-- A 64-bit sum. -/
def checkedAdd (a b : Nat) : Except Fault Nat :=
  if a + b < 2 ^ 64 then .ok (a + b) else .error .addition

/-- The greatest number of bytes that can be addressed in one piece. -/
def maxLength : Nat := 2 ^ 63 - 1

/-- Checks that so many bytes can be addressed in one piece. -/
def addressable (length : Nat) : Except Fault Unit :=
  if length ≤ maxLength then .ok () else .error .capacity

end Fault

end BlockHost
