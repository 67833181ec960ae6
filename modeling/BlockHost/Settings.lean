import BlockHost.Backlog
import BlockHost.Heap.Basic

/-!
# Settings

What a host is built from, and the limits that the settings have to keep.
-/

namespace BlockHost

/-- What an output carries while the script does not run. -/
inductive Bypass.Mode where
  /-- An empty sequence. -/
  | silent
  /-- The atom of the input with the same number, when it fits. -/
  | passthrough
deriving DecidableEq, Repr

/-- The name of a mode. -/
def Bypass.Mode.name : Bypass.Mode → String
  | silent => "Silent"
  | passthrough => "Passthrough"

/-- What a host is built from. -/
structure Settings where
  /-- The size of the heap's first region. -/
  regionSize : Nat
  /-- How many regions the heap may have. -/
  maxRegions : Nat
  inputs : Nat
  outputs : Nat
  /-- The room for events that are put aside, per input. -/
  backlogCapacity : Nat
  /-- The room for the state of a script. -/
  stateCapacity : Nat
  bypass : Bypass.Mode
  /-- The source of the first script. -/
  code : Option String
deriving DecidableEq, Repr

/-- A limit that settings do not keep. -/
inductive SettingsFailure where
  | regionSize (size : Nat)
  | regionCount (count : Nat)
  | addressSpace (index : Nat)
  | ports (inputs outputs : Nat)
  | backlogCapacity (capacity : Nat)
  | stateCapacity (capacity : Nat)
deriving DecidableEq, Repr

namespace SettingsFailure

/-- The name of a violation. -/
def name : SettingsFailure → String
  | regionSize _ => "RegionSize"
  | regionCount _ => "RegionCount"
  | addressSpace _ => "AddressSpace"
  | ports _ _ => "Ports"
  | backlogCapacity _ => "StashCapacity"
  | stateCapacity _ => "StateCapacity"

/-- The name of a violation, with that of the settings. -/
def label (e : SettingsFailure) : String :=
  "Config." ++ e.name

/-- The wording of a violation. -/
def message : SettingsFailure → String
  | regionSize size =>
      "initial region size " ++ toString size ++ " must be a multiple of 8 and at least 128"
  | regionCount count => "region count " ++ toString count ++ " must be within 1..=16"
  | addressSpace index => "region " ++ toString index ++ " would exceed the 4 GiB region limit"
  | ports inputs outputs => "port counts " ++ toString inputs ++ "/" ++ toString outputs ++ " exceed 8"
  | backlogCapacity capacity => "stash capacity " ++ toString capacity ++ " is below 64"
  | stateCapacity capacity => "state capacity " ++ toString capacity ++ " is below 64"

end SettingsFailure

namespace Settings

/-- The settings of a host that nothing is said about. -/
def standard : Settings where
  regionSize := 128 * 1024
  maxRegions := 8
  inputs := 1
  outputs := 1
  backlogCapacity := 8 * 1024
  stateCapacity := 64 * 1024
  bypass := .silent
  code := none

/-- How many ports there can be in each direction. -/
def maxPorts : Nat := 8

/-- Whether the region at an index can be addressed by a 32-bit offset. -/
def addressable (base index : Nat) : Bool :=
  match Region.sizeAt base index with
  | some size => size < 2 ^ 32
  | none => false

/-- Checks the limits, in this order. -/
def validate (s : Settings) : Except SettingsFailure Unit :=
  if s.regionSize % 8 ≠ 0 ∨ s.regionSize < leastBlock * 4 then .error (.regionSize s.regionSize)
  else if s.maxRegions = 0 ∨ Heap.regionLimit < s.maxRegions then
    .error (.regionCount s.maxRegions)
  else if ¬ addressable s.regionSize (s.maxRegions - 1) then
    .error (.addressSpace (s.maxRegions - 1))
  else if maxPorts < s.inputs ∨ maxPorts < s.outputs then .error (.ports s.inputs s.outputs)
  else if s.backlogCapacity < Backlog.minCapacity then
    .error (.backlogCapacity s.backlogCapacity)
  else if s.stateCapacity < Backlog.minCapacity then .error (.stateCapacity s.stateCapacity)
  else .ok ()

end Settings

end BlockHost
