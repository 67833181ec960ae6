import BlockHost.Heap.Growth
import BlockHost.Text.Hex

/-!
# Calls on a heap

Every call on a heap as a value, so that whole runs of calls can be given and spoken of. A client
names a pointer by its number among those it has got.
-/

namespace BlockHost.Heap

/-- A call on a heap. -/
inductive Call where
  | allocate (size : Nat)
  | reallocate (pointer old new : Nat)
  | resize (pointer : Option Nat) (old new : Nat)
  | free (pointer size : Nat)
  | payloadSize (pointer : Nat)
  | read (pointer len : Nat)
  | write (pointer : Nat) (bs : Bytes)
  /-- Adds a region of the given index and size, if the system grants it. -/
  | commit (supply : Supply) (index : UInt32) (size : Nat)
  | giveUpGrowth
  | takeRequest
  /-- Adds the region that has been asked for, if the system grants it. -/
  | serveRequest (supply : Supply)
  | limits

/-- What a call answers. -/
inductive Answer where
  | done
  /-- There is nothing to answer with. -/
  | nothing
  | pointer (p : Pointer)
  | number (n : Nat)
  | bytes (bs : Bytes)
  | limits (maxRegions baseSize : Nat)
  | refused (cause : HeapFailure)
  | noRegion (cause : RegionFailure)
  /-- No pointer has the number that was given. -/
  | noPointer
deriving DecidableEq, Repr

/-- An answer in one word. -/
def Answer.text : Answer → String
  | done => "ok"
  | nothing => "nil"
  | pointer p => toString p.region.toNat ++ ":" ++ toString p.offset.toNat
  | number n => toString n
  | bytes bs => Hex.encode bs
  | limits maxRegions baseSize => toString maxRegions ++ ":" ++ toString baseSize
  | refused cause => cause.label
  | noRegion cause => cause.label
  | noPointer => "no pointer"

/-- A heap and the pointers that its client has got, in order. -/
structure Client where
  heap : Heap
  pointers : List Pointer

/-- A client's call. -/
abbrev ClientAction := EStateM Fault Client

namespace Client

/-- A call that is answered without a change. -/
def ask (f : Heap → Answer) : ClientAction Answer := do
  return f (← get).heap

/-- An operation on the heap. -/
def perform {α : Type} (action : HeapAction α) (answer : α → Answer) : ClientAction Answer :=
  fun c =>
    match action c.heap with
    | .ok a heap => .ok (answer a) { c with heap }
    | .error (.refused cause) heap => .ok (.refused cause) { c with heap }
    | .error (.crashed fault) heap => .error fault { c with heap }

/-- An operation that gives the client a pointer. -/
def obtain (action : HeapAction (Option Pointer)) : ClientAction Answer := fun c =>
  match action c.heap with
  | .ok none heap => .ok .nothing { c with heap }
  | .ok (some p) heap => .ok (.pointer p) { heap, pointers := c.pointers ++ [p] }
  | .error (.refused cause) heap => .ok (.refused cause) { c with heap }
  | .error (.crashed fault) heap => .error fault { c with heap }

/-- A call on one of the client's pointers. -/
def withPointer (number : Nat) (call : Pointer → ClientAction Answer) : ClientAction Answer := do
  match (← get).pointers[number]? with
  | none => return .noPointer
  | some p => call p

/-- Changes the heap. -/
def setHeap (heap : Heap) : ClientAction Unit :=
  modify fun c => { c with heap }

/-- Adds a region to the heap. -/
def addRegion (region : Except RegionFailure Region) : ClientAction Answer := do
  match region with
  | .error cause => return .noRegion cause
  | .ok region =>
      match (← get).heap.commit region with
      | .error cause => return .refused cause
      | .ok heap =>
          setHeap heap
          return .done

end Client

/-- An optional answer. -/
def Answer.ofOption {α : Type} (f : α → Answer) : Option α → Answer
  | none => nothing
  | some a => f a

open Client in
/-- Makes a call. -/
def Call.run : Call → ClientAction Answer
  | allocate size => obtain (some <$> Heap.allocate size)
  | reallocate number old new =>
      withPointer number fun p => obtain (some <$> Heap.reallocate p old new)
  | resize none old new => obtain (Heap.resize none old new)
  | resize (some number) old new =>
      withPointer number fun p => obtain (Heap.resize (some p) old new)
  | free number size => withPointer number fun p => perform (Heap.free p size) fun _ => .done
  | payloadSize number =>
      withPointer number fun p => ask fun h => .ofOption .number (h.payloadSize p)
  | read number len => withPointer number fun p => ask fun h => .ofOption .bytes (h.read p len)
  | write number bs =>
      withPointer number fun p => do
        match (← get).heap.write p bs with
        | none => return .nothing
        | some heap =>
            setHeap heap
            return .done
  | commit supply index size => addRegion (Region.acquire supply index size)
  | giveUpGrowth => do
      modify fun c => { c with heap := c.heap.giveUpGrowth }
      return .done
  | takeRequest => do
      match (← get).heap.takeRequest with
      | none => return .nothing
      | some (index, heap) =>
          setHeap heap
          return .number index
  | serveRequest supply => do
      match (← get).heap.takeRequest with
      | none => return .nothing
      | some (index, heap) =>
          setHeap heap
          addRegion (regionFor supply heap index)
  | limits => ask fun h => .limits h.maxRegions h.baseSize

end BlockHost.Heap
