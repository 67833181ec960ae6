/-!
# The gate

The engine of the host is shared by two sides and belongs to one of them at a time. The audio side
tries the gate once and goes on without the engine when it is held; the worker's side waits until it
is free.
-/

namespace BlockHost

/-- A side that can hold the gate. -/
inductive Side where
  | audio
  | worker
deriving DecidableEq, Repr

/-- The name of a side. -/
def Side.name : Side → String
  | audio => "Audio"
  | worker => "Worker"

/-- A shared value and the side that holds it. -/
structure Gate (α : Type) where
  holder : Option Side
  value : α
deriving DecidableEq, Repr

namespace Gate

variable {α β : Type}

/-- A gate that nobody holds. -/
def free (value : α) : Gate α := ⟨none, value⟩

/-- The gate in the hands of a side, if nobody holds it. -/
def tryEnter (g : Gate α) (side : Side) : Option (Gate α) :=
  match g.holder with
  | none => some { g with holder := some side }
  | some _ => none

/-- The gate after its holder has left. -/
def leave (g : Gate α) : Gate α :=
  { g with holder := none }

/-- The gate with another value. -/
def update (g : Gate α) (f : α → α) : Gate α :=
  { g with value := f g.value }

/-- The name of a gate's state. -/
def stateName (g : Gate α) : String :=
  match g.holder with
  | none => "Idle"
  | some side => side.name

/-- A form for reading by people. -/
def describe (g : Gate α) : String :=
  "ExecLock \x7b state: " ++ g.stateName ++ ", .. \x7d"

end Gate

end BlockHost
