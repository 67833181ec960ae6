import BlockHost.Heap.Blocks

/-!
# Requests

What clients of a heap call: allocate, reallocate, free, and read and write through a pointer. The
heap keeps the sum of the sizes asked for (`used`). After every call it compares that sum with half
of its space, and when the sum is greater it asks for one more region. At most one region is asked for
at a time, and none once the heap is fully extended.
-/

namespace BlockHost.Heap

/-- Asks for the next region when more than half of the space is used. -/
def askForGrowth (h : Heap) : Heap :=
  if h.awaiting || h.complete then h
  else if h.used ≤ h.space / 2 then h
  else if h.maxRegions ≤ h.regionCount then { h with complete := true }
  else if h.requests.length < h.maxRegions then
    { h with requests := h.requests ++ [h.regionCount]
             awaiting := true
             requestCount := h.requestCount + 1 }
  else h

/-- A call as the client sees it: what it does to the blocks, then to the account of used bytes when
the blocks were not refused, then the check for growth. -/
def settled {α : Type} (blocks : HeapAction α) (account : Nat → Except Fault Nat) :
    HeapAction α := fun h =>
  match blocks h with
  | .ok a h =>
      match account h.used with
      | .ok used => .ok a (askForGrowth { h with used })
      | .error fault => .error (.crashed fault) h
  | .error (.refused cause) h => .error (.refused cause) (askForGrowth h)
  | .error (.crashed fault) h => .error (.crashed fault) h

/-- The account after a size has been replaced by another one. -/
def replaceUsed (new old used : Nat) : Except Fault Nat := do
  let sum ← Fault.checkedAdd used new
  return sum - old

/-- Allocates a block for `size` bytes. -/
def allocate (size : Nat) : HeapAction Pointer :=
  settled (takeBlock size) fun used => .ok ((used + size) % 2 ^ 64)

/-- Changes the size of an allocation and keeps its content. -/
def reallocate (p : Pointer) (old new : Nat) : HeapAction Pointer :=
  settled (moveBlock p old new) (replaceUsed new old)

/-- Gives an allocation of `size` bytes back. -/
def free (p : Pointer) (size : Nat) : HeapAction Unit :=
  settled (giveBack p) (replaceUsed 0 size)

/-- Allocates without a pointer, frees when the new size is zero, and reallocates otherwise. -/
def resize (p : Option Pointer) (old new : Nat) : HeapAction (Option Pointer) :=
  match p, new with
  | some p, 0 => do
      free p old
      return none
  | none, 0 => return none
  | none, new => do return some (← allocate new)
  | some p, new => do return some (← reallocate p old new)

/-- The size of a live payload. -/
def payloadSize (h : Heap) (p : Pointer) : Option Nat :=
  (h.blockOf? p).map fun b => b.size - headerSize

/-- The first bytes of a live payload. -/
def read (h : Heap) (p : Pointer) (len : Nat) : Option Bytes := do
  let b ← h.blockOf? p
  let s ← h.segments[b.segment]?
  if b.size - headerSize < len then none
  else some (s.region.memory.load (b.start + headerSize) len)

/-- The heap with the first bytes of a live payload replaced. -/
def write (h : Heap) (p : Pointer) (bs : Bytes) : Option Heap := do
  let b ← h.blockOf? p
  let s ← h.segments[b.segment]?
  if b.size - headerSize < bs.length then none
  else
    let region := { s.region with memory := s.region.memory.store (b.start + headerSize) bs }
    return { h with segments := h.segments.set b.segment { s with region } }

end BlockHost.Heap
