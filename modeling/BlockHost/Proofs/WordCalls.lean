import BlockHost.Proofs.HighWater
import BlockHost.Proofs.WordBlocks

/-!
# Every run of a heap that counts in words

The calls of clients and of the worker, on words. What clients have asked for is added up in a word of 64
bits, and so are the sizes of the regions; the number of the next region is put into 32 bits; and a
payload is found, measured, read and written through sums and differences of its block's numbers.

The account stays a word because what was asked for lies in blocks that do not overlap, and the count of
requests because there are fewer of them than regions (`countable_of_timely`). So every call ends as the
library's call does (`Words.step_eq`), and a run with it (`runs_in_words`).
-/

namespace BlockHost.Heap

namespace Words

/-! ## Calls -/

/-- Asks for the next region when more than half of the space is used. -/
def askForGrowth : WordAction Unit := do
  let h ← get
  if h.awaiting || h.complete then
    return
  if h.used ≤ h.space / 2 then
    return
  if h.maxRegions ≤ h.regionCount then
    modify fun h => { h with complete := true }
  else
    let index ← narrow h.regionCount
    if h.requests.length < h.maxRegions then
      let requestCount ← add h.requestCount 1
      modify fun h =>
        { h with requests := h.requests ++ [index], awaiting := true, requestCount }

/-- The end of a call that is answered. -/
def answered {α : Type} (account : Nat → WordAction Nat) (a : α) : WordAction α := do
  let used ← account (← get).used
  modify fun h => { h with used }
  askForGrowth
  return a

/-- The end of a call that is refused. -/
def refused {α : Type} (cause : HeapFailure) : WordAction α := do
  askForGrowth
  throw (.stopped (.refused cause))

/-- A call as the client sees it. -/
def settled {α : Type} (blocks : WordAction α) (account : Nat → WordAction Nat) : WordAction α :=
  fun h =>
    match blocks h with
    | .ok a h => answered account a h
    | .error (.stopped (.refused cause)) h => refused cause h
    | .error halt h => .error halt h

/-- The account after a size has been replaced by another one. What would fall below zero is zero. -/
def replaceUsed (new old used : Nat) : WordAction Nat := do
  return (← add used new) - old

/-- Allocates a block for so many bytes. -/
def allocate (size : Nat) : WordAction Pointer :=
  settled (takeBlock size) fun used => add used size

/-- Changes the size of an allocation and keeps its content. -/
def reallocate (p : Pointer) (old new : Nat) : WordAction Pointer :=
  settled (moveBlock p old new) (replaceUsed new old)

/-- Gives an allocation back. -/
def free (p : Pointer) (size : Nat) : WordAction Unit :=
  settled (giveBack p) (replaceUsed 0 size)

/-- Allocates without a pointer, frees when the new size is zero, and reallocates otherwise. -/
def resize (p : Option Pointer) (old new : Nat) : WordAction (Option Pointer) :=
  match p, new with
  | some p, 0 => do
      free p old
      return none
  | none, 0 => return none
  | none, new => do return some (← allocate new)
  | some p, new => do return some (← reallocate p old new)

/-- What a lookup finds, if it is not refused. -/
def found {α : Type} (x : WordAction α) : WordAction (Option α) := fun h =>
  match x h with
  | .ok a h => .ok (some a) h
  | .error (.stopped (.refused _)) h => .ok none h
  | .error halt h => .error halt h

/-- The size of a live payload. -/
def payloadSize (p : Pointer) : WordAction (Option Nat) := do
  match ← found (liveBlock p) with
  | none => return none
  | some b => return some (← sub b.size headerSize)

/-- Where the first bytes of a live payload are, if it has so many. -/
def placeOf (p : Pointer) (len : Nat) : WordAction (Option (Nat × Nat)) := do
  match ← found (liveBlock p) with
  | none => return none
  | some b =>
      let room ← sub b.size headerSize
      if room < len then return none
      else return some (b.segment, ← add b.start headerSize)

/-- The first bytes of a live payload. -/
def read (p : Pointer) (len : Nat) : WordAction (Option Bytes) := do
  match ← placeOf p len with
  | none => return none
  | some (position, start) => return some (← load position start len)

/-- Replaces the first bytes of a live payload, if it has so many. -/
def write (p : Pointer) (bs : Bytes) : WordAction Bool := do
  match ← placeOf p bs.length with
  | none => return false
  | some (position, start) =>
      store position start bs
      return true

/-- Replaces bytes of a live payload from some place of it on. -/
def writeAt (p : Pointer) (start : Nat) (bs : Bytes) : WordAction Bool := do
  match ← read p start with
  | none => return false
  | some before => write p (before ++ bs)

/-- Adds a region, which answers the request in flight. -/
def commit (region : Region) : WordAction Unit := do
  let h ← get
  let expected := h.regionCount
  let size := (Region.sizeAt h.baseSize region.index.toNat).getD 0
  if h.maxRegions ≤ expected then
    throw (.stopped (.refused (.fullyExtended h.maxRegions)))
  else if region.index.toNat ≠ expected then
    let index ← narrow expected
    throw (.stopped (.refused (.regionOrder (UInt32.ofNat index) region.index)))
  else if region.size ≠ size then
    throw (.stopped (.refused (.regionSize region.index size region.size)))
  else
    let _ ← add h.space region.size
    modify fun h => { h with segments := h.segments ++ [⟨region, 0⟩], awaiting := false }

/-- What a call leaves. -/
def conclude {α : Type} (t : Tenancy) (after : α → List Allocation) :
    EStateM.Result Halt Heap α → Except Halt (Option HeapFailure × Tenancy)
  | .ok a heap => .ok (none, ⟨heap, after a⟩)
  | .error (.stopped (.refused cause)) heap => .ok (some cause, ⟨heap, t.live⟩)
  | .error halt _ => .error halt

/-- A call, and why it was refused when it was. -/
def step (t : Tenancy) : Request → Except Halt (Option HeapFailure × Tenancy)
  | .allocate size =>
      conclude t (fun p => ⟨p, size, nothingKnown⟩ :: t.live) (allocate size t.heap)
  | .reallocate place new =>
      match t.live[place]? with
      | none => .ok (none, t)
      | some a =>
          conclude t (fun p => t.live.set place (a.resized new p))
            (reallocate a.pointer a.size new t.heap)
  | .free place =>
      match t.live[place]? with
      | none => .ok (none, t)
      | some a => conclude t (fun _ => t.live.eraseIdx place) (free a.pointer a.size t.heap)
  | .resize place new =>
      match t.live[place]? with
      | none => .ok (none, t)
      | some a =>
          conclude t
            (fun
              | none => t.live.eraseIdx place
              | some p => t.live.set place (a.resized new p))
            (resize (some a.pointer) a.size new t.heap)
  | .obtain old new =>
      conclude t
        (fun
          | none => t.live
          | some p => ⟨p, new, nothingKnown⟩ :: t.live)
        (resize none old new t.heap)
  | .write place start bs =>
      match t.live[place]? with
      | none => .ok (none, t)
      | some a =>
          conclude t
            (fun
              | false => t.live
              | true => t.live.set place { a with content := overwritten start bs a.content })
            (writeAt a.pointer start bs t.heap)
  | .commit region => conclude t (fun _ => t.live) (commit region t.heap)
  | .takeRequest =>
      match t.heap.takeRequest with
      | none => .ok (none, t)
      | some (_, heap) => .ok (none, ⟨heap, t.live⟩)
  | .giveUpGrowth => .ok (none, ⟨t.heap.giveUpGrowth, t.live⟩)

/-- A run of calls. -/
def run (t : Tenancy) : List Request → Except Halt Tenancy
  | [] => .ok t
  | request :: rest =>
      match step t request with
      | .ok (_, t') => run t' rest
      | .error halt => .error halt

/-! ## What they come to -/

section Settling

variable {α : Type} {h h' : Heap} {blocks : HeapAction α} {blocks' : WordAction α}
  {account : Nat → Except Fault Nat} {account' : Nat → WordAction Nat}

/-- The numbers of regions and of requests have room in their words. -/
structure Countable (h : Heap) : Prop where
  regions : h.regionCount < 2 ^ 32
  requests : h.requestCount + 1 < 2 ^ 64

theorem Countable.of_samePlan (hc : Countable h) (hsame : SamePlan h h') : Countable h' := by
  have hrequests : h'.requestCount = h.requestCount := congrArg Plan.requestCount hsame
  exact ⟨hsame.regionCount ▸ hc.regions, hrequests ▸ hc.requests⟩

theorem askForGrowth_eq (hc : Countable h) : askForGrowth h = .ok () (Heap.askForGrowth h) := by
  rw [askForGrowth, Action.get_bind, Heap.askForGrowth]
  split
  · rfl
  split
  · rfl
  split
  · rfl
  rw [narrow_eq hc.regions, pure_bind]
  split
  · rw [add_eq hc.requests, pure_bind]
    rfl
  · rfl

theorem settled_eq (hc : Countable h) (hkeeps : Action.Keeps SamePlan blocks)
    (hblocks : blocks' h = plain blocks h)
    (haccount : ∀ a h₁, blocks h = .ok a h₁ → ∃ used, account h₁.used = .ok used ∧
      account' h₁.used = pure used) :
    settled blocks' account' h = plain (Heap.settled blocks account) h := by
  show _ = ended (Heap.settled blocks account h)
  rw [settled, Heap.settled]
  cases hrun : blocks h with
  | ok a h₁ =>
      -- Growth is asked for with the new account, by a heap that otherwise is the one the blocks left.
      obtain ⟨used, hused, hused'⟩ := haccount a h₁ hrun
      have hc₁ := hc.of_samePlan (hkeeps.of_ok hrun)
      have hask := askForGrowth_eq (h := { h₁ with used }) ⟨hc₁.regions, hc₁.requests⟩
      rw [hblocks, plain_ok hrun]
      simp only [hused]
      rw [answered, Action.get_bind, hused', pure_bind, Action.modify_bind, Action.bind_ok hask]
      rfl
  | error stop h₁ =>
      have hc₁ := hc.of_samePlan (hkeeps.of_error hrun)
      rw [hblocks, plain_error hrun]
      cases stop with
      | crashed fault => rfl
      | refused cause =>
          simp only
          rw [refused, Action.bind_ok (askForGrowth_eq hc₁)]
          rfl

end Settling

section Calls

variable {h h' : Heap} {L : List Lease} {F : List Block} {l : Lease}

theorem allocate_eq (hk : Accounted h L) (hc : Countable h) (size : Nat) :
    allocate size h = plain (Heap.allocate size) h := by
  obtain ⟨F, hbooked⟩ := hk.booked
  refine settled_eq hc (takeBlock_keeps size) (takeBlock_eq hbooked size) fun p h₁ hrun => ?_
  have htake := hbooked.takeBlock size
  rw [hrun] at htake
  obtain ⟨b, F₁, -, hk₁, hu₁⟩ := htake
  have hsum := hk₁.sum_le
  have hused : h₁.used = (L.map Lease.size).sum := hu₁.used.trans hk.used
  simp only [List.map_cons, List.sum_cons] at hsum
  unfold regionLimit at hsum
  exact ⟨_, rfl, by rw [Nat.mod_eq_of_lt (by omega)]; exact add_eq (by omega)⟩

/-- What is in use after a change of a size, for words and for the library. -/
theorem replaceUsed_eq {new old used : Nat} (h : used + new < 2 ^ 64) :
    Heap.replaceUsed new old used = .ok (used + new - old) ∧
      replaceUsed new old used = pure (used + new - old) := by
  refine ⟨?_, by rw [replaceUsed, add_eq h, pure_bind]⟩
  rw [Heap.replaceUsed, Fault.checkedAdd, if_pos h]
  rfl

theorem reallocate_eq (hk : Accounted h (l :: L)) (hc : Countable h) (new : Nat) :
    reallocate l.block.pointer l.size new h
      = plain (Heap.reallocate l.block.pointer l.size new) h := by
  obtain ⟨F, hbooked⟩ := hk.booked
  refine settled_eq hc (moveBlock_keeps _ _ _) (moveBlock_eq hbooked new) fun p h₁ hrun => ?_
  have hmove := hbooked.moveBlock new
  rw [hrun] at hmove
  obtain ⟨b, F₁, -, hk₁, hu₁⟩ := hmove
  have hbefore := hbooked.sum_le
  have hsum := hk₁.sum_le
  have hused : h₁.used = ((l :: L).map Lease.size).sum := hu₁.used.trans hk.used
  simp only [List.map_cons, List.sum_cons, Lease.resized] at hbefore hsum hused
  unfold regionLimit at hbefore hsum
  exact ⟨_, replaceUsed_eq (by omega)⟩

theorem free_eq (hk : Accounted h (l :: L)) (hc : Countable h) :
    free l.block.pointer l.size h = plain (Heap.free l.block.pointer l.size) h := by
  obtain ⟨F, hbooked⟩ := hk.booked
  refine settled_eq hc (giveBack_keeps _) (giveBack_eq hbooked List.mem_cons_self)
    fun _ h₁ hrun => ?_
  obtain ⟨F₁, h₂, hgive, -, hu₁, -⟩ := hbooked.giveBack
  rw [hrun] at hgive
  cases hgive
  have hbefore := hbooked.sum_le
  have hused : h₁.used = ((l :: L).map Lease.size).sum := hu₁.used.trans hk.used
  unfold regionLimit at hbefore
  exact ⟨_, replaceUsed_eq (by omega)⟩

/-- A change of size is one of the three other calls. -/
theorem resize_some_eq (hk : Accounted h (l :: L)) (hc : Countable h) (new : Nat) :
    resize (some l.block.pointer) l.size new h
      = plain (Heap.resize (some l.block.pointer) l.size new) h := by
  cases new with
  | zero => exact bind_eq (free_eq hk hc) fun _ _ _ => rfl
  | succ n => exact bind_eq (reallocate_eq hk hc (n + 1)) fun _ _ _ => rfl

theorem resize_none_eq (hk : Accounted h L) (hc : Countable h) (old new : Nat) :
    resize none old new h = plain (Heap.resize none old new) h := by
  cases new with
  | zero => rfl
  | succ n => exact bind_eq (allocate_eq hk hc (n + 1)) fun _ _ _ => rfl

theorem found_ok (hk : Booked h ⟨L, F, []⟩) (hl : l ∈ L) :
    found (liveBlock l.block.pointer) h = .ok (some l.block) h := by
  rw [found, liveBlock_ok hk hl]

theorem payloadSize_eq (hk : Booked h ⟨L, F, []⟩) (hl : l ∈ L) :
    payloadSize l.block.pointer h = .ok (h.payloadSize l.block.pointer) h := by
  obtain ⟨-, -, hleast⟩ := hk.bounds (hk.mem_of_lease hl)
  rw [payloadSize, Action.bind_ok (found_ok hk hl), hk.payloadSize hl]
  simp only
  rw [sub_eq (by unfold leastBlock headerSize at *; omega), pure_bind]
  rfl

theorem placeOf_ok (hk : Booked h ⟨L, F, []⟩) (hl : l ∈ L) (len : Nat) :
    placeOf l.block.pointer len h =
      .ok (if l.block.size - headerSize < len then none
        else some (l.block.segment, l.block.start + headerSize)) h := by
  obtain ⟨-, hstop, hleast⟩ := hk.bounds (hk.mem_of_lease hl)
  rw [placeOf, Action.bind_ok (found_ok hk hl)]
  simp only
  rw [sub_eq (by unfold leastBlock headerSize at *; omega), pure_bind]
  split
  · rfl
  · rw [add_eq (by unfold headerSize; omega), pure_bind]
    rfl

theorem read_eq (hk : Booked h ⟨L, F, []⟩) (hl : l ∈ L) (len : Nat) :
    read l.block.pointer len h = .ok (h.read l.block.pointer len) h := by
  have hmem : l.block ∈ (Books.mk L F []).blocks := hk.mem_of_lease hl
  have hi := hk.segment_lt hmem
  have hlength := hk.stop_le_length hmem
  obtain ⟨-, hstop, hleast⟩ := hk.bounds hmem
  rw [read, Action.bind_ok (placeOf_ok hk hl len), hk.read hl]
  split
  · rfl
  · unfold leastBlock headerSize at *
    simp only
    rw [load_eq (by omega), Action.bind_ok (plain_ok (load_ok hi (by omega)))]
    rfl

theorem writeAt_eq (hk : Booked h ⟨L, F, []⟩) (hl : l ∈ L) (start : Nat) (bs : Bytes) :
    writeAt l.block.pointer start bs h
      = (h.writeAt l.block.pointer start bs).elim (.ok false h) (.ok true) := by
  have hmem : l.block ∈ (Books.mk L F []).blocks := hk.mem_of_lease hl
  have hi := hk.segment_lt hmem
  have hlength := hk.stop_le_length hmem
  obtain ⟨-, hstop, hleast⟩ := hk.bounds hmem
  obtain ⟨hmemory, -, -⟩ := answers_of_lt hi
  rw [writeAt, Action.bind_ok (read_eq hk hl start), Heap.writeAt]
  cases hread : h.read l.block.pointer start with
  | none => rfl
  | some before =>
      simp only [Option.bind_eq_bind, Option.bind_some]
      rw [write, Action.bind_ok (placeOf_ok hk hl _), Heap.write, hk.blockOf? hl]
      simp only [Option.bind_eq_bind, Option.bind_some, List.getElem?_eq_getElem hi]
      split
      · rfl
      · unfold leastBlock headerSize at *
        simp only
        rw [store_eq (by omega), Action.bind_ok (plain_ok (store_ok hi (by omega))), withMemory,
          modify_eq_set hi, hmemory]
        rfl

/-- The spaces of sixteen segments have a sum far below the range of a word. -/
theorem space_lt (hk : Booked h ⟨L, F, []⟩) : h.space < 2 ^ 48 := by
  have hspace := hk.space_eq
  have hcount : h.segments.length ≤ 16 :=
    Nat.le_trans hk.tiled.sound.count_le hk.tiled.sound.regions_le
  have hlast : h.baseSize * 2 ^ (h.maxRegions - 1) < 2 ^ 32 := hk.tiled.sound.last_lt
  have hone : h.baseSize ≤ h.baseSize * 2 ^ (h.maxRegions - 1) :=
    Nat.le_mul_of_pos_right _ (Nat.pow_pos (by omega))
  have hbase : 4 * leastBlock ≤ h.baseSize := hk.tiled.sound.base_ge
  have hpow : 2 ^ h.segments.length ≤ 2 ^ 16 := Nat.pow_le_pow_right (by omega) hcount
  have hall : h.baseSize * 2 ^ h.segments.length ≤ h.baseSize * 2 ^ 16 :=
    Nat.mul_le_mul_left _ hpow
  unfold leastBlock at hbase
  omega

theorem commit_ok {region : Region} (hk : Booked h ⟨L, F, []⟩)
    (hrun : Heap.commit h region = .ok h') : commit region h = .ok () h' := by
  have hspace := space_lt hk
  obtain ⟨-, hmax, hsize⟩ := commit_eq hk.tiled.sound hrun
  have hlength : region.size < 2 ^ 32 := by
    have hgrown := (hk.tiled.sound.grow hmax).length_lt (Nat.lt_succ_self h.segments.length)
    rw [hsize]
    exact (if_pos rfl).symm.trans_lt hgrown
  rw [Heap.commit] at hrun
  rw [commit, Action.get_bind]
  split at hrun
  · cases hrun
  next hroom =>
  split at hrun
  · cases hrun
  next hindex =>
  split at hrun
  · cases hrun
  next hwanted =>
  cases hrun
  rw [if_neg hroom, if_neg hindex, if_neg hwanted, add_eq (by omega), pure_bind]
  rfl

theorem commit_refused {region : Region} {cause : HeapFailure} (hk : Booked h ⟨L, F, []⟩)
    (hrun : Heap.commit h region = .error cause) :
    commit region h = .error (.stopped (.refused cause)) h := by
  have hcount : h.regionCount ≤ 16 :=
    Nat.le_trans hk.tiled.sound.count_le hk.tiled.sound.regions_le
  rw [Heap.commit] at hrun
  rw [commit, Action.get_bind]
  split at hrun
  · next hfull =>
      cases hrun
      rw [if_pos hfull]
      rfl
  next hroom =>
  rw [if_neg hroom]
  split at hrun
  · next hindex =>
      cases hrun
      rw [if_pos hindex, narrow_eq (by omega), pure_bind]
      rfl
  next hindex =>
  rw [if_neg hindex]
  split at hrun
  · next hwanted =>
      cases hrun
      rw [if_pos hwanted]
      rfl
  · cases hrun

end Calls

/-! ## Runs -/

section Runs

variable {t : Tenancy} {L : List Lease}

theorem conclude_eq {α : Type} {after : α → List Allocation}
    {r : EStateM.Result (Stop HeapFailure) Heap α} {x : Option HeapFailure × Tenancy}
    (hr : t.conclude after r = .ok x) : conclude t after (ended r) = .ok x := by
  cases r with
  | ok a h => exact congrArg Except.ok (Except.ok.inj hr)
  | error stop h =>
      cases stop with
      | refused cause => exact congrArg Except.ok (Except.ok.inj hr)
      | crashed fault => cases hr

section Step

variable {request : Request} {outcome : Option HeapFailure} {t' : Tenancy} {place : Nat}

/-- An allocation that is named by its place is a lease, which the books may list first. A place that
names none leaves all as it was. -/
theorem placed_eq (hk : Accounted t.heap L) (hlive : t.live = L.map Tenancy.ofLease)
    {call : Allocation → Except Fault (Option HeapFailure × Tenancy)}
    {call' : Allocation → Except Halt (Option HeapFailure × Tenancy)}
    (hcall : ∀ l others, Accounted t.heap (l :: others) →
      call (Tenancy.ofLease l) = .ok (outcome, t') → call' (Tenancy.ofLease l) = .ok (outcome, t'))
    (hstep : (match t.live[place]? with
      | none => Except.ok (none, t)
      | some a => call a) = .ok (outcome, t')) :
    (match t.live[place]? with
      | none => Except.ok (none, t)
      | some a => call' a) = .ok (outcome, t') := by
  cases ha : t.live[place]? with
  | none =>
      rw [ha] at hstep
      exact congrArg Except.ok (Except.ok.inj hstep)
  | some a =>
      obtain ⟨l, rfl, -, hperm⟩ := Tenancy.exists_lease hlive ha
      rw [ha] at hstep
      exact hcall l _ (hk.perm hperm.symm) hstep

theorem write_step (hk : Accounted t.heap L) (hlive : t.live = L.map Tenancy.ofLease)
    {start : Nat} {bs : Bytes} (hstep : t.step (.write place start bs) = .ok (outcome, t')) :
    step t (.write place start bs) = .ok (outcome, t') := by
  rw [Tenancy.step] at hstep
  rw [step]
  refine placed_eq hk hlive (fun l others hk' hcall => ?_) hstep
  obtain ⟨F, hbooked⟩ := hk'.booked
  have hwrite : writeAt (Tenancy.ofLease l).pointer start bs t.heap
      = (t.heap.writeAt (Tenancy.ofLease l).pointer start bs).elim (.ok false t.heap)
        (.ok true) := writeAt_eq hbooked List.mem_cons_self start bs
  rw [hwrite]
  cases hrun : t.heap.writeAt (Tenancy.ofLease l).pointer start bs with
  | none | some h' =>
      rw [hrun] at hcall
      exact congrArg Except.ok (Except.ok.inj hcall)

theorem commit_step (hk : Accounted t.heap L) {region : Region}
    (hstep : t.step (.commit region) = .ok (outcome, t')) :
    step t (.commit region) = .ok (outcome, t') := by
  obtain ⟨F, hbooked⟩ := hk.booked
  rw [Tenancy.step] at hstep
  rw [step]
  cases hrun : t.heap.commit region with
  | ok h' =>
      rw [hrun] at hstep
      rw [commit_ok hbooked hrun]
      exact congrArg Except.ok (Except.ok.inj hstep)
  | error cause =>
      rw [hrun] at hstep
      rw [commit_refused hbooked hrun]
      exact congrArg Except.ok (Except.ok.inj hstep)

/-- A call on words ends as the library's call does. -/
theorem step_eq (ht : t.Kept) (hc : Countable t.heap)
    (hstep : t.step request = .ok (outcome, t')) : step t request = .ok (outcome, t') := by
  obtain ⟨L, hk, hlive⟩ := ht
  cases request with
  | allocate size =>
      rw [step, allocate_eq hk hc]
      exact conclude_eq hstep
  | reallocate place new =>
      rw [Tenancy.step] at hstep
      rw [step]
      refine placed_eq hk hlive (fun l others hk' hcall => ?_) hstep
      exact (congrArg (conclude t _) (reallocate_eq hk' hc new)).trans (conclude_eq hcall)
  | free place =>
      rw [Tenancy.step] at hstep
      rw [step]
      refine placed_eq hk hlive (fun l others hk' hcall => ?_) hstep
      exact (congrArg (conclude t _) (free_eq hk' hc)).trans (conclude_eq hcall)
  | resize place new =>
      rw [Tenancy.step] at hstep
      rw [step]
      refine placed_eq hk hlive (fun l others hk' hcall => ?_) hstep
      exact (congrArg (conclude t _) (resize_some_eq hk' hc new)).trans (conclude_eq hcall)
  | obtain old new =>
      rw [step, resize_none_eq hk hc]
      exact conclude_eq hstep
  | write place start bs => exact write_step hk hlive hstep
  | commit region => exact commit_step hk hstep
  | takeRequest =>
      rw [Tenancy.step] at hstep
      rw [step]
      cases hrun : t.heap.takeRequest with
      | none =>
          rw [hrun] at hstep
          exact congrArg Except.ok (Except.ok.inj hstep)
      | some taken =>
          rw [hrun] at hstep
          exact congrArg Except.ok (Except.ok.inj hstep)
  | giveUpGrowth => exact congrArg Except.ok (Except.ok.inj hstep)

end Step

/-- Fewer requests are sent than there can be regions. -/
theorem countable_of_timely {sent : List Nat} (ht : t.Timely sent) : Countable t.heap := by
  obtain ⟨L, ⟨⟨F, hbooked⟩, -⟩, -⟩ := ht.kept
  have hcount : t.heap.regionCount ≤ t.heap.maxRegions := hbooked.tiled.sound.count_le
  have hmax : t.heap.maxRegions ≤ 16 := hbooked.tiled.sound.regions_le
  have hsent : sent.length < t.heap.maxRegions := ht.charted.length_lt
  have hrequests : t.heap.requestCount = sent.length := ht.charted.count_eq
  exact ⟨by omega, by omega⟩

theorem run_eq {sent : List Nat} {requests : List Request} {t' : Tenancy} (ht : t.Timely sent)
    (hrun : t.run requests = .ok t') : run t requests = .ok t' := by
  induction requests generalizing t sent with
  | nil => exact congrArg Except.ok (Except.ok.inj hrun)
  | cons request rest ih =>
      rw [Tenancy.run] at hrun
      rw [run]
      cases hstep : t.step request with
      | error fault =>
          rw [hstep] at hrun
          cases hrun
      | ok result =>
          obtain ⟨outcome, mid⟩ := result
          rw [hstep] at hrun
          rw [step_eq ht.kept (countable_of_timely ht) hstep]
          exact ih (ht.step hstep) hrun

end Runs

end Words

/-- Whatever the settings allow and whatever clients and the worker call: counting in words, a run from a
new heap comes to no step that fails, and it ends where the library's run ends. From there on each call
is answered or refused as the library does it, and whoever holds an allocation sees its size and its
bytes. -/
theorem runs_in_words {supply : Supply} {s : Settings} (hs : s.validate = .ok ())
    (hgranted : supply s.regionSize = .granted) (requests : List Request) :
    ∃ h t, create supply s.regionSize s.maxRegions = .ok h ∧
      Tenancy.run ⟨h, []⟩ requests = .ok t ∧
      Words.run ⟨h, []⟩ requests = .ok t ∧
      (∀ request, ∃ outcome t', t.step request = .ok (outcome, t') ∧
        Words.step t request = .ok (outcome, t')) ∧
      ∀ a ∈ t.live,
        Words.payloadSize a.pointer t.heap = .ok (t.heap.payloadSize a.pointer) t.heap ∧
        ∀ len, Words.read a.pointer len t.heap = .ok (t.heap.read a.pointer len) t.heap := by
  obtain ⟨h, hcreate, hk⟩ := exists_create hs hgranted
  have hstart := timely_create hcreate hk
  obtain ⟨t, hrun, hkept⟩ := hstart.kept.run requests
  have ht := hstart.run hrun
  refine ⟨h, t, hcreate, hrun, Words.run_eq hstart hrun, fun request => ?_, fun a ha => ?_⟩
  · obtain ⟨outcome, t', hstep, -⟩ := hkept.step request
    exact ⟨outcome, t', hstep, Words.step_eq hkept (Words.countable_of_timely ht) hstep⟩
  · obtain ⟨L, ⟨⟨F, hbooked⟩, -⟩, hlive⟩ := hkept
    rw [hlive] at ha
    obtain ⟨l, hl, rfl⟩ := List.mem_map.1 ha
    exact ⟨Words.payloadSize_eq hbooked hl, Words.read_eq hbooked hl⟩

/-- The greatest size that a word holds is asked for, blocks are split and given back, a request is sent,
and a region is added. -/
theorem runs_in_words_standard :
    let requests : List Request := [.allocate (2 ^ 64 - 1), .allocate 70000, .allocate 40, .free 1,
      .allocate 100, .commit ⟨1, 262144, .blank⟩, .reallocate 0 200000, .resize 1 (2 ^ 64 - 1)]
    Settings.standard.validate = .ok () ∧ Supply.ample Settings.standard.regionSize = .granted ∧
      ∃ h t, create .ample Settings.standard.regionSize Settings.standard.maxRegions = .ok h ∧
        Tenancy.run ⟨h, []⟩ requests = .ok t ∧ Words.run ⟨h, []⟩ requests = .ok t ∧
        t.live.map Allocation.size = [200000, 40] ∧ t.heap.regionCount = 2 ∧
        t.heap.requestCount = 2 ∧
        (∀ request, ∃ outcome t', t.step request = .ok (outcome, t') ∧
          Words.step t request = .ok (outcome, t')) ∧
        ∀ a ∈ t.live,
          Words.payloadSize a.pointer t.heap = .ok (t.heap.payloadSize a.pointer) t.heap ∧
          ∀ len, Words.read a.pointer len t.heap = .ok (t.heap.read a.pointer len) t.heap := by
  intro requests
  have hcheck : ((create .ample Settings.standard.regionSize
      Settings.standard.maxRegions).toOption.bind fun h =>
      (Tenancy.run ⟨h, []⟩ requests).toOption.map fun t =>
        (t.live.map Allocation.size, t.heap.regionCount, t.heap.requestCount))
      = some ([200000, 40], 2, 2) := by
    decide +kernel
  have hgranted : Supply.ample Settings.standard.regionSize = .granted := rfl
  obtain ⟨h, t, hcreate, hrun, hwords, hrest⟩ := runs_in_words (s := Settings.standard) rfl hgranted requests
  simp only [hcreate, hrun, Except.toOption, Option.bind_some, Option.map_some, Option.some.injEq,
    Prod.mk.injEq] at hcheck
  obtain ⟨hlive, hregions, hrequests⟩ := hcheck
  exact ⟨rfl, hgranted, h, t, hcreate, hrun, hwords, hlive, hregions, hrequests, hrest⟩

end BlockHost.Heap
