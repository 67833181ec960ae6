import BlockHost.Host.Upkeep

/-!
# Growth of the heap

The worker answers what the heap has asked for: it acquires a region for each request, without the
gate, and adds it to the heap with the gate.
-/

namespace BlockHost.Host

variable {σ : Type}

/-- The first request of the heap, which is then no longer in the queue. The queue is between the two
sides and not behind the gate. -/
def takeRequest : HostAction σ (Option Nat) := fun h =>
  match h.heap.takeRequest with
  | none => .ok none h
  | some (index, heap) => .ok (some index) (h.withHeap heap)

/-- Adds a region to the heap. -/
def commit (region : Region) : HostAction σ Unit := fun h =>
  match h.heap.commit region with
  | .error cause => .error (.refused (.heap cause)) h
  | .ok heap => .ok () (h.withHeap heap)

/-- Gives all growth up. -/
def giveUpGrowth : HostAction σ Unit := fun h =>
  .ok () (h.withHeap h.heap.giveUpGrowth)

/-- Counts a region that has been added. -/
def countRegion (h : Host σ) : Host σ :=
  { h with tally := { h.tally with committed := h.tally.committed + 1 } }

/-- Acquires the region for a request, if the system has memory for it. -/
def acquire (supply : Supply) (index : Nat) : HostAction σ (Except RegionFailure Region) := fun h =>
  .ok (h.heap.regionFor supply index) h

/-- Answers so many requests of the heap for regions, of which some have been answered already. Ends
early when the system refuses a region, which gives all growth up, or when the heap does. -/
def answerRequests (supply : Supply) : (pending committed : Nat) → HostAction σ Nat
  | 0, committed => return committed
  | pending + 1, committed => do
      match ← takeRequest with
      | none => return committed
      | some index =>
          match ← acquire supply index with
          | .error cause =>
              atGate giveUpGrowth
              throw (.refused (.region cause))
          | .ok region =>
              atGate (commit region)
              modify countRegion
              answerRequests supply pending (committed + 1)

/-- Answers all requests of the heap for regions, and with the number of regions added. -/
def grow (supply : Supply) : HostAction σ Nat := fun h =>
  answerRequests supply h.heap.requests.length 0 h

theorem atGate_giveUpGrowth (h : Host σ) :
    atGate giveUpGrowth h = .ok () (h.withHeap h.heap.giveUpGrowth).leave := by
  simp only [atGate, giveUpGrowth, heap, value_hold]
  exact congrArg (EStateM.Result.ok ()) (leave_updateEngine_hold h _)

theorem atGate_commit (region : Region) (h : Host σ) :
    atGate (commit region) h =
      match h.heap.commit region with
      | .error cause => .error (.refused (.heap cause)) h.leave
      | .ok heap => .ok () (h.withHeap heap).leave := by
  simp only [atGate, commit, heap, value_hold]
  cases h.engine.value.heap.commit region with
  | error cause => exact congrArg (EStateM.Result.error _) (leave_hold h)
  | ok heap => exact congrArg (EStateM.Result.ok ()) (leave_updateEngine_hold h _)

/-- What becomes of one request. -/
theorem answerRequests_succ (supply : Supply) (pending committed : Nat) (h : Host σ) :
    answerRequests supply (pending + 1) committed h =
      match h.heap.takeRequest with
      | none => .ok committed h
      | some (index, heap) =>
          match heap.regionFor supply index with
          | .error cause => .error (.refused (.region cause)) (h.withHeap heap.giveUpGrowth).leave
          | .ok region =>
              match heap.commit region with
              | .error cause => .error (.refused (.heap cause)) (h.withHeap heap).leave
              | .ok heap =>
                  answerRequests supply pending (committed + 1)
                    (h.withHeap heap).leave.countRegion := by
  simp only [answerRequests, bind, EStateM.bind, takeRequest]
  cases h.heap.takeRequest with
  | none => rfl
  | some taken =>
      obtain ⟨index, heap⟩ := taken
      have hheap : (h.withHeap heap).heap = heap := rfl
      simp only [EStateM.bind, acquire, hheap]
      cases heap.regionFor supply index with
      | error cause =>
          simp only [EStateM.bind, atGate_giveUpGrowth]
          rfl
      | ok region =>
          simp only [EStateM.bind, atGate_commit, hheap]
          cases heap.commit region <;> rfl

end BlockHost.Host
