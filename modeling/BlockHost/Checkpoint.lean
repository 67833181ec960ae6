import BlockHost.Fault

/-!
# Checkpoints

Outside the audio side, the places where a condition is enforced are remembered when they are passed,
so that a test can ask whether they were.
-/

namespace BlockHost

/-- A place where a condition is enforced. -/
inductive Checkpoint where
  /-- The first region has its full size. -/
  | initialRegion
  /-- Regions come in order. -/
  | regionOrder
  /-- The space is the sum of the regions. -/
  | spaceConsistent
  /-- The table of kinds is in ascending order. -/
  | kindsSorted
  /-- A script is replaced by the side that holds the gate. -/
  | scriptSwap
  /-- A state is restored by the side that holds the gate. -/
  | stateRestored
  /-- There are not too many ports. -/
  | portsBound
deriving DecidableEq, Repr

namespace Checkpoint

/-- The number of a checkpoint. -/
def number : Checkpoint → Nat
  | initialRegion => 1
  | regionOrder => 2
  | spaceConsistent => 3
  | kindsSorted => 4
  | scriptSwap => 5
  | stateRestored => 6
  | portsBound => 7

/-- Checks that all the required checkpoints were passed. -/
def contract (title : String) (passed : List Checkpoint) (required : List Nat) :
    Except Fault Unit :=
  let missed := required.filter fun number => !(passed.map Checkpoint.number).contains number
  if missed.isEmpty then .ok () else .error (.checkpointsMissed title missed)

end Checkpoint

end BlockHost
