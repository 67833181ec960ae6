import BlockHost.Script.Session

/-!
# Languages

The host does not look into scripts. A language says what it needs: how a source becomes a script,
what a script does with a block, how its state is written and read, and what it gives back when it is
replaced.
-/

namespace BlockHost

/-- A language whose scripts are values of type `σ`. -/
structure Language (σ : Type) where
  /-- The script of a source. It may take memory already. -/
  compile : String → EStateM (Stop ScriptFailure) Heap σ
  /-- Runs the script of the session over a block. -/
  run : Block → ScriptAction σ Unit
  /-- Writes the state of a script, as one atom. -/
  save : σ → EStateM ScriptFailure Writer Unit
  /-- The script with a state that has been saved. -/
  restore : Schema → Atom → σ → Except ScriptFailure σ
  /-- Gives all memory of a script back. -/
  release : σ → EStateM Fault Heap Unit

/-- Gives an allocation back, if it is one. -/
def Heap.release (p : Pointer) (size : Nat) : EStateM Fault Heap Unit := fun h =>
  match h.free p size with
  | .ok _ h => .ok () h
  | .error (.refused _) h => .ok () h
  | .error (.crashed fault) h => .error fault h

/-- Gives allocations back, one after the other. -/
def Heap.releaseAll : List (Pointer × Nat) → EStateM Fault Heap Unit
  | [] => return ()
  | (p, size) :: rest => do
      Heap.release p size
      Heap.releaseAll rest

end BlockHost
