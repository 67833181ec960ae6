import BlockHost.Heap.Basic

/-!
# Blocks

How blocks come and go, without regard to how much the clients have asked for. A request is served by
the first free block of the least class that is sure to suffice, and else from the rest of the
segments. A block that is much too large is split. A block that is given back is filed under its
class, except at the top of the current segment, which then just moves down.
-/

namespace BlockHost.Heap

/-- Puts a block at the front of the free blocks of its class. -/
def file (b : Block) : HeapAction Unit := do
  let c := SizeClass.floor b.size
  let head := (← get).heads[c]
  writeHeader b.segment b.start b.size freeTag
  store b.segment (b.start + headerSize) (Bytes.ofNat 8 head)
  modify fun h =>
    { h with heads := h.heads.set c (link b.segment b.start)
             occupied := h.occupied ||| BitVec.twoPow classCount c.val }

/-- Takes the first free block out of a class. -/
def unfile (c : SizeClass) : HeapAction Block := do
  let head := (← get).heads[c]
  let position := linkSegment head
  let start := linkStart head
  let next := Bytes.toNat (← load position (start + headerSize) 8)
  modify fun h => { h with heads := h.heads.set c next }
  if next = noLink then
    modify fun h => { h with occupied := h.occupied &&& ~~~(BitVec.twoPow classCount c.val) }
  let size := Bytes.toNat (← load position start 4)
  return ⟨position, start, size⟩

/-- Makes a used block of the given size out of a free one, and files the rest when it is a block of
its own. -/
def occupy (b : Block) (need : Nat) : HeapAction Pointer := do
  if b.size < need then
    crash .subtraction
  let rest := b.size - need
  if leastBlock ≤ rest then
    file ⟨b.segment, b.start + need, rest⟩
  writeHeader b.segment b.start (if leastBlock ≤ rest then need else b.size) usedTag
  return ⟨UInt32.ofNat b.segment, UInt32.ofNat (b.start + headerSize)⟩

/-- Takes a block from the rest of the current segment or, when it does not suffice, from one of the
segments after it, of which there are `left - 1`. The rest of a segment that is left behind is filed;
the last segment is never left behind. -/
def extend (need : Nat) : (left : Nat) → HeapAction Pointer
  | 0 => refuse .outOfMemory
  | left + 1 => do
      let current := (← get).current
      let s ← segment current
      if s.top + need ≤ s.region.size then
        setTop current (s.top + need)
        occupy ⟨current, s.top, need⟩ need
      else if left = 0 then
        refuse .outOfMemory
      else
        let rest := s.region.size - s.top
        setTop current s.region.size
        if leastBlock ≤ rest then
          file ⟨current, s.top, rest⟩
        modify fun h => { h with current := h.current + 1 }
        extend need left

/-- The least class from `c` on that has a free block. -/
def firstOccupied (h : Heap) (c : SizeClass) : Option SizeClass :=
  (List.finRange classCount).find? fun d => c ≤ d && h.occupied[d]

/-- A block for a request. -/
def takeBlock (request : Nat) : HeapAction Pointer := do
  match sizeFor? request with
  | none => refuse .outOfMemory
  | some need =>
      let h ← get
      match (SizeClass.ceil need).bind h.firstOccupied with
      | some c => occupy (← unfile c) need
      | none => extend need (h.segments.length - h.current)

/-- The live block of a pointer. -/
def liveBlock (p : Pointer) : HeapAction Block := fun h =>
  match h.blockOf? p with
  | some b => .ok b h
  | none => .error (.refused .invalidPointer) h

/-- Gives a block back. -/
def giveBack (p : Pointer) : HeapAction Unit := do
  let b ← liveBlock p
  let h ← get
  let s ← segment b.segment
  if b.segment = h.current ∧ b.start + b.size = s.top then
    setTop b.segment b.start
    store b.segment (b.start + 4) (Bytes.ofNat 4 freeTag)
  else
    file b

/-- Copies the first bytes of one payload to another. -/
def copyContent (source target : Pointer) (len : Nat) : HeapAction Unit := do
  let start := source.offset.toNat
  let dest := target.offset.toNat
  if source.region = target.region then
    let s ← segment source.region.toNat
    checkRange s start len
    if s.region.size < dest + len then
      crash .copyTarget
    setMemory target.region.toNat (s.region.memory.copy dest s.region.memory start len)
  else
    let t ← segment target.region.toNat
    checkRange t dest len
    let s ← segment source.region.toNat
    checkRange s start len
    setMemory target.region.toNat (t.region.memory.copy dest s.region.memory start len)

/-- A block for a new size of a live request: the same block when it is large enough or can grow at
the top of the current segment, and else another one with the content copied. -/
def moveBlock (p : Pointer) (old new : Nat) : HeapAction Pointer := do
  let b ← liveBlock p
  match sizeFor? new with
  | none => refuse .outOfMemory
  | some need =>
      if need ≤ b.size then
        return p
      let h ← get
      let s ← segment b.segment
      if b.segment = h.current ∧ b.start + b.size = s.top ∧ b.start + need ≤ s.region.size then
        setTop b.segment (b.start + need)
        store b.segment b.start (Bytes.ofNat 4 need)
        return p
      let q ← takeBlock new
      copyContent p q (min (min old new) (b.size - headerSize))
      giveBack p
      return q

end BlockHost.Heap
