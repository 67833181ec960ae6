import BlockHost.Heap.Requests

/-!
# Growth

How a heap comes by more memory: the worker takes a request from the queue, acquires a region, and
commits it, or gives the growth up when there is no more memory.
-/

namespace BlockHost.Heap

/-- The first request in the queue, and the heap without it. -/
def takeRequest (h : Heap) : Option (Nat × Heap) :=
  match h.requests with
  | [] => none
  | index :: rest => some (index, { h with requests := rest })

/-- Adds a region, which answers the request in flight. Regions come in order of their index and in
the sizes that follow from the first one. -/
def commit (h : Heap) (region : Region) : Except HeapFailure Heap :=
  let expected := h.regionCount
  let size := (Region.sizeAt h.baseSize region.index.toNat).getD 0
  if h.maxRegions ≤ expected then .error (.fullyExtended h.maxRegions)
  else if region.index.toNat ≠ expected then
    .error (.regionOrder (UInt32.ofNat expected) region.index)
  else if region.size ≠ size then .error (.regionSize region.index size region.size)
  else .ok { h with segments := h.segments ++ [⟨region, 0⟩], awaiting := false }

/-- Gives the request in flight up, and with it all further growth. -/
def giveUpGrowth (h : Heap) : Heap :=
  { h with awaiting := false, complete := true }

/-- The region for a request, if the system has so much memory. -/
def regionFor (supply : Supply) (h : Heap) (index : Nat) : Except RegionFailure Region :=
  Region.acquire supply (UInt32.ofNat index) ((Region.sizeAt h.baseSize index).getD 0)

end BlockHost.Heap
