import BlockHost.Heap.Memory

/-!
# Regions

A region is a run of memory of fixed size, zero when it is acquired. The system grants or refuses the
memory, and that is all that is known of it here. The regions of a heap grow geometrically: each is
twice the size of the one before it.
-/

namespace BlockHost

/-- What the system says when it is asked for memory. -/
inductive SystemAnswer where
  | granted
  | refused (reason : String)
deriving DecidableEq, Repr

/-- How the system answers while an operation lasts, for each number of bytes that it may be asked
for. The answers are nobody's but the system's: the same request can be granted by one supply and
refused by the next. -/
abbrev Supply := Nat → SystemAnswer

/-- The supply of a system that grants everything. -/
def Supply.ample : Supply := fun _ => .granted

/-- Why no region can be acquired. -/
inductive RegionFailure where
  /-- A region of no size was asked for. -/
  | empty (index : UInt32)
  /-- The system refuses so much memory. -/
  | unavailable (index : UInt32) (size : Nat) (reason : String)
deriving DecidableEq, Repr

namespace RegionFailure

/-- The name of a failure. -/
def name : RegionFailure → String
  | empty _ => "Empty"
  | unavailable _ _ _ => "Map"

/-- The name of a failure, with that of regions. -/
def label (e : RegionFailure) : String :=
  "Region." ++ e.name

/-- The wording of a failure. -/
def message : RegionFailure → String
  | empty index => "region " ++ toString index.toNat ++ ": zero-sized region requested"
  | unavailable index size reason =>
      "region " ++ toString index.toNat ++ ": mapping " ++ toString size
        ++ " bytes failed: " ++ reason

end RegionFailure

/-- A run of memory. -/
structure Region where
  /-- Its place among the regions of a heap. -/
  index : UInt32
  size : Nat
  memory : Memory
deriving Repr

namespace Region

/-- Asks for a region of zero bytes. The system is not asked for no bytes at all. -/
def acquire (supply : Supply) (index : UInt32) (size : Nat) : Except RegionFailure Region :=
  if size = 0 then .error (.empty index)
  else
    match supply size with
    | .granted => .ok { index, size, memory := .blank }
    | .refused reason => .error (.unavailable index size reason)

/-- What has been granted is as large as was asked for, and zero. -/
theorem acquire_ok_iff {supply : Supply} {index : UInt32} {size : Nat} {region : Region} :
    acquire supply index size = .ok region ↔
      size ≠ 0 ∧ supply size = .granted ∧ region = ⟨index, size, .blank⟩ := by
  rw [acquire]
  by_cases hsize : size = 0
  · simp [hsize]
  · cases hanswer : supply size <;> simp [hsize, eq_comm]

/-- The bytes of a region. -/
def bytes (r : Region) : Bytes :=
  r.memory.load 0 r.size

/-- The size of the region at an index, when the first one has a given size and sizes are 64-bit
numbers. -/
def sizeAt (base index : Nat) : Option Nat :=
  if index < 64 ∧ base * 2 ^ index < 2 ^ 64 then some (base * 2 ^ index) else none

end Region

end BlockHost
