import BlockHost.CallScripts.Basic
import BlockHost.Json.Calls
import BlockHost.Json.Parser

/-!
# Sources of call scripts

The source of a script of calls is a JSON object. It says in `run` what the script does in each block,
in `save` how it writes its state, in `restore` whether it takes one, and in `release` what it gives
back. A script that is `plain` has no state and gives nothing back. What is not said is empty, and
fields of other names say nothing. Where such a script adds regions to the heap, their memory comes from
one supply.
-/

namespace BlockHost.CallScripts

open Json (Data)

/-- The failure with a name. -/
def failure (name detail : Data) : Option ScriptFailure :=
  match name with
  | .text "oom" => some .outOfMemory
  | .text "overflow" => some (.writer .overflow)
  | .text "pool" => some (.heap .invalidPointer)
  | .text "compile" => detail.text?.map .compile
  | _ => some (.runtime "scripted failure")

/-- What a list says to do. -/
def Step.ofData? (supply : Supply) (d : Data) : Option Step := do
  let a := d.item 1
  let b := d.item 2
  let name ← (d.item 0).text?
  match name with
  | "alloc" => return .allocate (← a.nat?)
  | "free" => return .free (← a.nat?) (← b.nat?)
  | "pool" => return .heap (← Heap.Call.ofData? supply a)
  | "trace" => return .trace (← a.text?)
  | "state" => return .traceState
  | "info" => return .traceBlock
  | "echo" => return .echo (← a.nat?) (← b.nat?)
  | "out" => return .output (← a.nat?) (← Writer.Call.ofData? b)
  | "fail" => return .fail (← failure a b)
  | "panic" => return .panic
  | _ => none

/-- How a list says to write the state. -/
def Saving.ofData? (d : Data) : Option Saving :=
  if (d.item 0).isText "fail" then some .refuse else (Writer.Call.ofData? d).map .call

/-- The number of a pointer and the size that is given back with it. -/
def release? (d : Data) : Option (Nat × Nat) := do
  return (← (d.item 0).nat?, ← (d.item 1).nat?)

/-- What an object says to do. -/
def Plan.ofData? (supply : Supply) (d : Data) : Option Plan := do
  let steps ← (← (d.field "run").items?).mapM (Step.ofData? supply)
  let saving ← (← (d.field "save").items?).mapM Saving.ofData?
  let releases ← (← (d.field "release").items?).mapM release?
  return {
    steps
    saving
    restorable := !(d.field "restore").isText "fail"
    releases
    stateless := (d.field "plain").isTrue }

/-- What a source says to do. -/
def Plan.ofSource? (supply : Supply) (source : String) : Option Plan := do
  let d ← Data.parse source
  Plan.ofData? supply d

end BlockHost.CallScripts
