import BlockHost.Fault
import BlockHost.Heap.Error
import BlockHost.Heap.Region
import BlockHost.Heap.SizeClass

/-!
# The heap

The heap hands out blocks of memory from a few regions. A block begins with a header of eight bytes,
its size and a tag that says whether it is used; the payload follows. A free block's payload begins
with a link to the next free block of its class.

In each segment (a region and how far it has been used) blocks lie one behind the other below `top`.
Segments are used up in order: `current` is the one whose rest still gives new blocks.

Headers and links lie in the same memory as payloads, so a client that writes through a pointer it no
longer owns can make any of them say anything. That is why an operation on the heap (`HeapAction`)
can not only be refused but also be brought down, and then leaves the heap as it had become.
-/

namespace BlockHost

/-- A block that has been handed out. -/
structure Pointer where
  region : UInt32
  /-- Where the payload begins. -/
  offset : UInt32
deriving DecidableEq, Repr

/-- A region in use. -/
structure Segment where
  region : Region
  /-- Where the part that has not been used begins. -/
  top : Nat
deriving Repr

/-- A block where it lies. -/
structure Heap.Block where
  /-- The number of its segment. -/
  segment : Nat
  /-- Where its header begins. -/
  start : Nat
  /-- Its size, header included. -/
  size : Nat
deriving DecidableEq, Repr

/-- Regions and what is free in them. -/
structure Heap where
  segments : List Segment
  /-- The link to the first free block of each class. -/
  heads : Vector Nat classCount
  /-- One bit for each class, set when the class has a free block. -/
  occupied : BitVec classCount
  /-- The segment whose rest gives new blocks. -/
  current : Nat
  /-- The size of the first region. -/
  baseSize : Nat
  /-- How many regions there can be. -/
  maxRegions : Nat
  /-- Whether a region has been asked for and neither come nor been given up. -/
  awaiting : Bool
  /-- Whether no more regions will be asked for. -/
  complete : Bool
  /-- The regions asked for that nobody has taken note of yet, by index. -/
  requests : List Nat
  /-- How many regions have been asked for in all. -/
  requestCount : Nat
  /-- The sum of the sizes that clients asked for and have not given back. -/
  used : Nat

/-- An operation on the heap. -/
abbrev HeapAction := EStateM (Stop HeapFailure) Heap

namespace Heap

/-- The size of a block's header. -/
def headerSize : Nat := 8

/-- The tag of a block that has been handed out. -/
def usedTag : Nat := 0x55534544

/-- The tag of a free block. -/
def freeTag : Nat := 0x46524545

/-- The link that leads nowhere. -/
def noLink : Nat := 2 ^ 64 - 1

/-- How many regions any heap can have. -/
def regionLimit : Nat := 16

/-- A heap with its first region. -/
def create (supply : Supply) (baseSize maxRegions : Nat) : Except RegionFailure Heap := do
  let region ← Region.acquire supply 0 baseSize
  return {
    segments := [⟨region, 0⟩]
    heads := Vector.replicate classCount noLink
    occupied := 0
    current := 0
    baseSize := baseSize
    maxRegions := max 1 (min maxRegions regionLimit)
    awaiting := false
    complete := false
    requests := []
    requestCount := 0
    used := 0 }

/-- The size of all regions together. -/
def space (h : Heap) : Nat :=
  (h.segments.map fun s => s.region.size).sum

/-- How many regions there are. -/
def regionCount (h : Heap) : Nat :=
  h.segments.length

/-- The size of the block for a request: with its header, on the eight-byte grid, at least
`leastBlock`, and a 32-bit number. -/
def sizeFor? (request : Nat) : Option Nat :=
  if request + 15 < 2 ^ 64 then
    let size := max leastBlock (padded (request + headerSize))
    if size < 2 ^ 32 then some size else none
  else none

/-- The link to a block. -/
def link (segment start : Nat) : Nat :=
  segment <<< 32 ||| start

/-- The segment that a link leads to. -/
def linkSegment (link : Nat) : Nat :=
  link >>> 32

/-- The start of the block that a link leads to. -/
def linkStart (link : Nat) : Nat :=
  link % 2 ^ 32

/-- The block whose payload a pointer leads to, when it is live: its header lies below the top of
its segment, is tagged as used, and gives a size that lies there too. -/
def blockOf? (h : Heap) (p : Pointer) : Option Block := do
  let s ← h.segments[p.region.toNat]?
  let offset := p.offset.toNat
  if offset % headerSize ≠ 0 ∨ offset < headerSize ∨ s.top < offset then none
  else
    let start := offset - headerSize
    let size := Bytes.toNat (s.region.memory.load start 4)
    let tag := Bytes.toNat (s.region.memory.load (start + 4) 4)
    if tag ≠ usedTag ∨ size < leastBlock ∨ s.top < start + size then none
    else some ⟨p.region.toNat, start, size⟩

/-! ## Access to segments -/

/-- Brings an operation down. -/
def crash {α : Type} (fault : Fault) : HeapAction α :=
  throw (.crashed fault)

/-- Refuses an operation. -/
def refuse {α : Type} (cause : HeapFailure) : HeapAction α :=
  throw (.refused cause)

/-- The segment at a position. -/
def segment (position : Nat) : HeapAction Segment := fun h =>
  match h.segments[position]? with
  | some s => .ok s h
  | none => .error (.crashed (.index h.segments.length position)) h

/-- Checks that a range lies inside a segment. -/
def checkRange (s : Segment) (start len : Nat) : HeapAction Unit :=
  if start + len ≤ s.region.size then return ()
  else crash (.range s.region.size start len)

/-- Gives a segment other content. -/
def setMemory (position : Nat) (memory : Memory) : HeapAction Unit := do
  let s ← segment position
  let region := { s.region with memory }
  modify fun h => { h with segments := h.segments.set position { s with region } }

/-- Bytes of a segment. -/
def load (position start len : Nat) : HeapAction Bytes := do
  let s ← segment position
  checkRange s start len
  return s.region.memory.load start len

/-- Replaces bytes of a segment. -/
def store (position start : Nat) (bs : Bytes) : HeapAction Unit := do
  let s ← segment position
  checkRange s start bs.length
  setMemory position (s.region.memory.store start bs)

/-- Moves the top of a segment. -/
def setTop (position top : Nat) : HeapAction Unit := do
  let s ← segment position
  modify fun h => { h with segments := h.segments.set position { s with top } }

/-- Writes the header of a block. -/
def writeHeader (position start size tag : Nat) : HeapAction Unit := do
  store position start (Bytes.ofNat 4 size)
  store position (start + 4) (Bytes.ofNat 4 tag)

end Heap

end BlockHost
