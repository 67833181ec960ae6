import BlockHost.Heap.Requests
import BlockHost.Proofs.HeapMoves
import Mathlib.Algebra.Order.BigOperators.Group.List
import Mathlib.Algebra.Order.Ring.Nat

/-!
# Requests keep the account

A client's call does something to the blocks, then changes the sum of what was asked for, then
looks whether the heap should grow. Between two calls nothing is loose and that sum is the one
over all leases (`Accounted`). Here every call is shown to go from one such state to the next
(`Concluded`): it is answered, and the leases are those that the answer says, or it is refused,
and then the leases are the old ones and every byte of every payload is where it was.

The sum never leaves its 64 bits, because what was asked for lies in blocks that do not overlap.
-/

namespace BlockHost.Heap

/-! ## What clients see -/

section Seen

variable {h h' : Heap} {k : Books} {l : Lease}

theorem Booked.read (hk : Booked h k) (hl : l ∈ k.leases) (n : Nat) :
    h.read l.block.pointer n =
      if l.block.size - headerSize < n then none
      else some ((h.memoryAt l.block.segment).load (l.block.start + headerSize) n) := by
  have hseg := hk.segment_lt (hk.mem_of_lease hl)
  obtain ⟨hm, -, -⟩ := answers_of_lt hseg
  simp only [Heap.read, hk.blockOf? hl, List.getElem?_eq_getElem hseg, Option.bind_eq_bind,
    Option.bind_some, hm]

theorem Booked.payloadSize (hk : Booked h k) (hl : l ∈ k.leases) :
    h.payloadSize l.block.pointer = some (l.block.size - headerSize) := by
  rw [Heap.payloadSize, hk.blockOf? hl]
  rfl

/-- The blocks of clients, and every byte of their payloads, are as before. -/
def SamePayloads (pointers : List Pointer) (h h' : Heap) : Prop :=
  ∀ p ∈ pointers, h'.blockOf? p = h.blockOf? p ∧ ∀ n, h'.read p n = h.read p n

/-- A lease whose client knows the whole payload. -/
def Lease.full (h : Heap) (l : Lease) : Lease :=
  { l with content := fun i =>
      if i + headerSize < l.block.size then
        some ((h.memoryAt l.block.segment).byteAt (l.block.start + headerSize + i))
      else none }

theorem Booked.full {L : List Lease} {F U : List Block} (hk : Booked h ⟨L, F, U⟩) :
    Booked h ⟨L.map (Lease.full h), F, U⟩ where
  tiled := by
    have hblocks : (L.map (Lease.full h)).map Lease.block = L.map Lease.block := by
      rw [List.map_map]
      rfl
    simp only [Books.blocks, hblocks]
    exact hk.tiled
  held l hl := by
    obtain ⟨m, hm, rfl⟩ := List.mem_map.1 hl
    have hheld := hk.held m hm
    refine ⟨hheld.marked, hheld.room, fun i byte hi => ?_⟩
    simp only [Lease.full] at hi
    split at hi
    · next hlt =>
        cases hi
        exact ⟨hlt, rfl⟩
    · cases hi
  marked := hk.marked
  linked := hk.linked
  occupied := hk.occupied

/-- When the books say all about every payload and stay right, no payload has changed. -/
theorem Booked.samePayloads {L : List Lease} {F F' U U' : List Block} (hk : Booked h ⟨L, F, U⟩)
    (hk' : Booked h' ⟨L.map (Lease.full h), F', U'⟩) :
    SamePayloads (L.map fun l => l.block.pointer) h h' := by
  intro p hp
  obtain ⟨l, hl, rfl⟩ := List.mem_map.1 hp
  have hl' : l.full h ∈ L.map (Lease.full h) := List.mem_map_of_mem hl
  refine ⟨(hk'.blockOf? hl').trans (hk.blockOf? hl).symm, fun n => ?_⟩
  have hread : h'.read l.block.pointer n =
      if l.block.size - headerSize < n then none
      else some ((h'.memoryAt l.block.segment).load (l.block.start + headerSize) n) :=
    hk'.read hl' n
  rw [hread, hk.read hl]
  by_cases hn : l.block.size - headerSize < n
  · rw [if_pos hn, if_pos hn]
  · rw [if_neg hn, if_neg hn]
    refine congrArg some (List.map_congr_left fun x hx => ?_)
    rw [List.mem_range'_1] at hx
    have hin : x - (l.block.start + headerSize) + headerSize < l.block.size := by omega
    have hat : l.block.start + headerSize + (x - (l.block.start + headerSize)) = x := by omega
    have hbyte := ((hk'.held _ hl').content (x - (l.block.start + headerSize)) _ (if_pos hin)).2
    simp only [Lease.full, hat] at hbyte
    exact hbyte

end Seen

/-! ## The account -/

/-- Between two calls nothing is loose, and what is used is what was asked for. -/
structure Accounted (h : Heap) (L : List Lease) : Prop where
  booked : ∃ F, Booked h ⟨L, F, []⟩
  used : h.used = (L.map Lease.size).sum

/-- How a call ends: with leases that fit its answer, or with a refusal that has changed nothing
for clients. -/
def Concluded {α : Type} (L : List Lease) (after : α → List Lease → Prop) (h : Heap) :
    EStateM.Result (Stop HeapFailure) Heap α → Prop
  | .ok a h' => ∃ L', after a L' ∧ Accounted h' L'
  | .error (.refused _) h' => Accounted h' L ∧ SamePayloads (L.map fun l => l.block.pointer) h h'
  | .error (.crashed _) _ => False

section Account

variable {h h' : Heap} {k : Books} {L : List Lease} {F U : List Block} {l : Lease}

theorem ground_of_same (hsegments : h'.segments = h.segments) (hcurrent : h'.current = h.current)
    (hbase : h'.baseSize = h.baseSize) (hmax : h'.maxRegions = h.maxRegions) :
    h'.ground = h.ground := by
  have hlength : h'.lengthAt = h.lengthAt := by
    funext i
    simp only [lengthAt, hsegments]
  have htop : h'.topAt = h.topAt := by
    funext i
    simp only [topAt, hsegments]
  simp only [ground, hsegments, hlength, htop, hcurrent, hbase, hmax]

/-- The books are about blocks, and not about what else a heap keeps. -/
theorem Booked.of_same (hk : Booked h k) (hsegments : h'.segments = h.segments)
    (hheads : h'.heads = h.heads) (hoccupied : h'.occupied = h.occupied)
    (hcurrent : h'.current = h.current) (hbase : h'.baseSize = h.baseSize)
    (hmax : h'.maxRegions = h.maxRegions) : Booked h' k := by
  have hmemory : h'.memoryAt = h.memoryAt := by
    funext i
    simp only [memoryAt, hsegments]
  refine hk.transport ?_ rfl rfl hheads hoccupied fun b _ x _ _ => by rw [hmemory]
  rw [ground_of_same hsegments hcurrent hbase hmax]
  exact hk.tiled

theorem askForGrowth_same (h : Heap) :
    (askForGrowth h).segments = h.segments ∧ (askForGrowth h).heads = h.heads ∧
      (askForGrowth h).occupied = h.occupied ∧ (askForGrowth h).current = h.current ∧
      (askForGrowth h).baseSize = h.baseSize ∧ (askForGrowth h).maxRegions = h.maxRegions ∧
      (askForGrowth h).used = h.used := by
  rw [askForGrowth]
  split
  · exact ⟨rfl, rfl, rfl, rfl, rfl, rfl, rfl⟩
  split
  · exact ⟨rfl, rfl, rfl, rfl, rfl, rfl, rfl⟩
  split
  · exact ⟨rfl, rfl, rfl, rfl, rfl, rfl, rfl⟩
  split <;> exact ⟨rfl, rfl, rfl, rfl, rfl, rfl, rfl⟩

theorem Accounted.perm {L' : List Lease} (hk : Accounted h L) (hp : L.Perm L') :
    Accounted h L' := by
  obtain ⟨F, hbooked⟩ := hk.booked
  exact ⟨⟨F, hbooked.perm hp⟩, hk.used.trans (hp.map _).sum_nat⟩

theorem Booked.askForGrowth (hk : Booked h k) : Booked (askForGrowth h) k := by
  obtain ⟨hs, hh, ho, hc, hb, hm, -⟩ := askForGrowth_same h
  exact hk.of_same hs hh ho hc hb hm

theorem ground_askForGrowth (h : Heap) : (Heap.askForGrowth h).ground = h.ground := by
  obtain ⟨hs, -, -, hc, hb, hm, -⟩ := askForGrowth_same h
  exact ground_of_same hs hc hb hm

theorem Accounted.askForGrowth (hk : Accounted h L) : Accounted (askForGrowth h) L := by
  obtain ⟨F, hbooked⟩ := hk.booked
  obtain ⟨-, -, -, -, -, -, hused⟩ := askForGrowth_same h
  exact ⟨⟨F, hbooked.askForGrowth⟩, hused.trans hk.used⟩

/-- What was asked for lies in the blocks, and those do not overlap. -/
theorem Booked.sum_le (hk : Booked h ⟨L, F, U⟩) :
    (L.map Lease.size).sum ≤ regionLimit * 2 ^ 32 := by
  have hsizes : (L.map Lease.size).sum ≤ ((L.map Lease.block).map Block.size).sum := by
    rw [List.map_map]
    refine List.sum_le_sum fun l hl => ?_
    have hroom := (hk.held l hl).room
    simp only [Function.comp]
    omega
  have hall := hk.tiled.sum_size_le
  simp only [Books.blocks, List.map_append, List.sum_append] at hall
  omega

end Account

/-! ## The calls -/

section Calls

variable {h h' : Heap} {L : List Lease} {F U : List Block} {l : Lease}
  {account : Nat → Except Fault Nat} {op : HeapAction Pointer} {after after' : Block → List Lease}

/-- A call that hands out a block, and counts what was asked for. -/
theorem Accounted.settle (hk : Accounted h L) (hserved : Served L after h (op h))
    (hfull : Served (L.map (Lease.full h)) after' h (op h))
    (haccount : ∀ b, ((after b).map Lease.size).sum ≤ regionLimit * 2 ^ 32 →
      account h.used = .ok ((after b).map Lease.size).sum) :
    Concluded L (fun p L' => ∃ b, p = b.pointer ∧ L' = after b) h (settled op account h) := by
  obtain ⟨F, hbooked⟩ := hk.booked
  rw [settled]
  cases hrun : op h with
  | ok p h₁ =>
      rw [hrun] at hserved
      obtain ⟨b, F₁, hp, hk₁, hu₁⟩ := hserved
      have hsum := haccount b hk₁.sum_le
      rw [← hu₁.used] at hsum
      simp only [hsum]
      refine ⟨after b, ⟨b, hp, rfl⟩, Accounted.askForGrowth ⟨⟨F₁, ?_⟩, rfl⟩⟩
      exact hk₁.of_same rfl rfl rfl rfl rfl rfl
  | error e h₁ =>
      rw [hrun] at hserved hfull
      match e with
      | .refused .outOfMemory =>
          obtain ⟨F₁, hk₁, hu₁⟩ := hserved
          obtain ⟨F₂, hk₂, -⟩ := hfull
          refine ⟨Accounted.askForGrowth ⟨⟨F₁, hk₁⟩, hu₁.used.trans hk.used⟩, ?_⟩
          exact hbooked.samePayloads hk₂.askForGrowth

theorem Accounted.allocate (hk : Accounted h L) (size : Nat) :
    Concluded L (fun p L' => ∃ b, p = b.pointer ∧ L' = ⟨b, size, nothingKnown⟩ :: L) h
      (Heap.allocate size h) := by
  obtain ⟨F, hbooked⟩ := hk.booked
  refine hk.settle (hbooked.takeBlock size) (hbooked.full.takeBlock size) fun b hsum => ?_
  simp only [List.map_cons, List.sum_cons] at hsum ⊢
  unfold regionLimit at hsum
  rw [hk.used, Nat.mod_eq_of_lt (by omega), Nat.add_comm]

theorem Accounted.reallocate (hk : Accounted h (l :: L)) (new : Nat) :
    Concluded (l :: L) (fun p L' => ∃ b, p = b.pointer ∧ L' = l.resized new b :: L) h
      (Heap.reallocate l.block.pointer l.size new h) := by
  obtain ⟨F, hbooked⟩ := hk.booked
  have hbefore := hbooked.sum_le
  refine hk.settle (hbooked.moveBlock new) (hbooked.full.moveBlock new) fun b hsum => ?_
  have hused := hk.used
  simp only [List.map_cons, List.sum_cons, Lease.resized] at hsum hused hbefore ⊢
  unfold regionLimit at hsum hbefore
  have hadd : Fault.checkedAdd h.used new = .ok (h.used + new) := by
    rw [Fault.checkedAdd, if_pos (by omega)]
  have hless : h.used + new - l.size = new + (L.map Lease.size).sum := by omega
  rw [← hless]
  simp only [replaceUsed, hadd]
  rfl

/-- Giving an allocation back does to the books what giving its block back does. -/
theorem Booked.free {F : List Block} (hk : Booked h ⟨l :: L, F, []⟩)
    (hused : h.used = ((l :: L).map Lease.size).sum) :
    ∃ F' h', Heap.free l.block.pointer l.size h = .ok () h' ∧ Booked h' ⟨L, F', []⟩ ∧
      h'.used = (L.map Lease.size).sum ∧ Returned h F l.block F' h' := by
  have hbefore := hk.sum_le
  simp only [List.map_cons, List.sum_cons] at hused hbefore
  unfold regionLimit at hbefore
  obtain ⟨F', h₁, hrun, hk₁, hu₁, hreturned⟩ := hk.giveBack
  have hadd : Fault.checkedAdd h₁.used 0 = .ok h₁.used := by
    rw [Fault.checkedAdd, if_pos (by rw [hu₁.used]; omega)]
    rfl
  have hless : replaceUsed 0 l.size h₁.used = .ok (L.map Lease.size).sum := by
    have hsum : h₁.used - l.size = (L.map Lease.size).sum := by
      rw [hu₁.used]
      omega
    simp only [replaceUsed, hadd, ← hsum]
    rfl
  have hk₂ : Booked { h₁ with used := (L.map Lease.size).sum } ⟨L, F', []⟩ :=
    hk₁.of_same rfl rfl rfl rfl rfl rfl
  obtain ⟨-, -, -, -, -, -, hsame⟩ :=
    askForGrowth_same { h₁ with used := (L.map Lease.size).sum }
  refine ⟨F', _, ?_, hk₂.askForGrowth, hsame, hreturned.of_ground (ground_askForGrowth _)⟩
  simp only [Heap.free, settled, hrun, hless]

theorem Accounted.free (hk : Accounted h (l :: L)) :
    ∃ h', Heap.free l.block.pointer l.size h = .ok () h' ∧ Accounted h' L := by
  obtain ⟨F, hbooked⟩ := hk.booked
  obtain ⟨F', h', hrun, hk', hused, -⟩ := hbooked.free hk.used
  exact ⟨h', hrun, ⟨⟨F', hk'⟩, hused⟩⟩

theorem Concluded.map {α β : Type} {op : HeapAction α} {f : α → β} {fits : α → List Lease → Prop}
    (hc : Concluded L fits h (op h)) (fits' : β → List Lease → Prop)
    (hf : ∀ a L', fits a L' → fits' (f a) L') :
    Concluded L fits' h ((op >>= fun a => pure (f a)) h) := by
  cases hrun : op h with
  | ok a h₁ =>
      rw [hrun] at hc
      obtain ⟨L', ha, hk⟩ := hc
      rw [Action.bind_ok hrun]
      exact ⟨L', hf a L' ha, hk⟩
  | error e h₁ =>
      rw [hrun] at hc
      rw [Action.bind_error hrun]
      match e with
      | .refused _ => exact hc

/-- Bytes from some place of a payload on are replaced. The bytes before them are written back. -/
def writeAt (h : Heap) (p : Pointer) (start : Nat) (bs : Bytes) : Option Heap := do
  let before ← h.read p start
  h.write p (before ++ bs)

/-- What is known of a content after bytes of it have been replaced. -/
def overwritten (start : Nat) (bs : Bytes) (content : Nat → Option UInt8) : Nat → Option UInt8 :=
  fun i => if start ≤ i ∧ i < start + bs.length then bs[i - start]? else content i

/-- What is known of a payload after a write to it is what the bytes there are. -/
theorem Lease.Held.overwritten {memory : Nat → Memory} (hl : l.Held memory) {start : Nat}
    {bs : Bytes} (hfit : start + bs.length + headerSize ≤ l.block.size) :
    ∀ i byte, Heap.overwritten start bs l.content i = some byte →
      i + headerSize < l.block.size ∧
        ((memory l.block.segment).store (l.block.start + headerSize)
          ((memory l.block.segment).load (l.block.start + headerSize) start ++ bs)).byteAt
            (l.block.start + headerSize + i) = byte := by
  intro i byte hi
  rw [Memory.byteAt_store, if_pos (by omega), Nat.add_sub_cancel_left,
    List.getD_eq_getElem?_getD]
  unfold Heap.overwritten at hi
  split at hi
  · next hin =>
      rw [List.getElem?_append_right (by rw [Memory.length_load]; exact hin.1),
        Memory.length_load, hi]
      exact ⟨by omega, rfl⟩
  · next hout =>
      obtain ⟨hlt, hbyte⟩ := hl.content i byte hi
      refine ⟨hlt, ?_⟩
      rcases Nat.lt_or_ge i start with hbefore | hafter
      · rw [List.getElem?_append_left (by rw [Memory.length_load]; exact hbefore),
          Memory.load, List.getElem?_map, List.getElem?_range' (by omega)]
        rw [← hbyte, Nat.one_mul]
        rfl
      · rw [List.getElem?_eq_none (by rw [List.length_append, Memory.length_load]; omega)]
        exact hbyte

theorem Accounted.writeAt {start : Nat} {bs : Bytes} (hk : Accounted h (l :: L))
    (hrun : h.writeAt l.block.pointer start bs = some h') :
    Accounted h' ({ l with content := overwritten start bs l.content } :: L) := by
  obtain ⟨F, hbooked⟩ := hk.booked
  have hmem := List.mem_cons_self (a := l) (l := L)
  have hseg := hbooked.segment_lt (hbooked.mem_of_lease hmem)
  obtain ⟨hm, -, -⟩ := answers_of_lt hseg
  obtain ⟨before, hread, hwrite⟩ := Option.bind_eq_some_iff.1 hrun
  rw [hbooked.read hmem] at hread
  split at hread
  · cases hread
  next hstart =>
  cases hread
  simp only [write, hbooked.blockOf? hmem, List.getElem?_eq_getElem hseg, Option.bind_eq_bind,
    Option.bind_some] at hwrite
  split at hwrite
  · cases hwrite
  next hfit =>
  cases hwrite
  rw [List.length_append, Memory.length_load] at hfit
  have hroom := (hbooked.held l hmem).room
  rw [hm]
  refine ⟨⟨F, ?_⟩, hk.used⟩
  have hbook := hbooked.rewrite
    ((h.memoryAt l.block.segment).store (l.block.start + headerSize)
      ((h.memoryAt l.block.segment).load (l.block.start + headerSize) start ++ bs))
    (overwritten start bs l.content) ?_ ((hbooked.held l hmem).overwritten (by omega))
  · rw [withMemory, modify_eq_set hseg] at hbook
    exact hbook
  · intro x hx
    refine Memory.byteAt_store_of_outside ?_
    rw [List.length_append, Memory.length_load]
    omega

/-- A region that is taken is the next one, and of the size that belongs to it. -/
theorem commit_eq {region : Region} (hsound : h.ground.Sound)
    (hrun : Heap.commit h region = .ok h') :
    h' = { h with segments := h.segments ++ [⟨region, 0⟩], awaiting := false } ∧
      h.segments.length < h.maxRegions ∧ region.size = h.baseSize * 2 ^ h.segments.length := by
  simp only [Heap.commit] at hrun
  split at hrun
  · cases hrun
  split at hrun
  · cases hrun
  split at hrun
  · cases hrun
  next hroom hindex hsize =>
  cases hrun
  rw [regionCount] at hroom hindex
  have hregions : h.maxRegions ≤ 16 := hsound.regions_le
  have hlast : h.baseSize * 2 ^ (h.maxRegions - 1) < 2 ^ 32 := hsound.last_lt
  have hpow : 2 ^ h.segments.length ≤ 2 ^ (h.maxRegions - 1) :=
    Nat.pow_le_pow_right (by omega) (by omega)
  have hle := Nat.mul_le_mul_left h.baseSize hpow
  rw [show region.index.toNat = h.segments.length by omega, Region.sizeAt,
    if_pos ⟨by omega, by omega⟩, Option.getD_some] at hsize
  exact ⟨rfl, by omega, by omega⟩

theorem getElem?_segments_append (h : Heap) (s : Segment) (i : Nat) :
    (h.segments ++ [s])[i]? = if i = h.segments.length then some s else h.segments[i]? := by
  rcases Nat.lt_trichotomy i h.segments.length with hlt | heq | hgt
  · rw [List.getElem?_append_left hlt, if_neg (by omega)]
  · rw [heq, List.getElem?_concat_length, if_pos rfl]
  · rw [List.getElem?_eq_none (by simp; omega), if_neg (by omega),
      List.getElem?_eq_none (by omega)]

theorem ground_append {region : Region}
    (hlength : region.size = h.baseSize * 2 ^ h.segments.length) :
    ground { h with segments := h.segments ++ [⟨region, 0⟩], awaiting := false }
      = h.ground.grow := by
  have hnone : h.segments[h.segments.length]? = none := List.getElem?_eq_none (Nat.le_refl _)
  simp only [ground, Ground.grow, List.length_append, List.length_singleton]
  congr 1
  · funext i
    simp only [lengthAt, getElem?_segments_append]
    by_cases heq : i = h.segments.length
    · rw [if_pos heq]
      exact hlength.trans (if_pos heq).symm
    · rw [if_neg heq]
      exact (if_neg heq).symm
  · funext i
    simp only [topAt, getElem?_segments_append]
    split
    · next heq => rw [heq, hnone]; rfl
    · rfl

theorem Booked.commit {region : Region} (hk : Booked h ⟨L, F, U⟩)
    (hrun : Heap.commit h region = .ok h') : Booked h' ⟨L, F, U⟩ := by
  obtain ⟨rfl, hmax, hlength⟩ := commit_eq hk.tiled.sound hrun
  refine hk.transport ?_ rfl rfl rfl rfl fun b hb x _ _ => ?_
  · rw [ground_append hlength]
    exact hk.tiled.grow hmax
  · have hseg := hk.segment_lt (List.mem_append_right _ hb)
    simp only [memoryAt, getElem?_segments_append]
    rw [if_neg (by omega)]

theorem Accounted.commit {region : Region} (hk : Accounted h L)
    (hrun : Heap.commit h region = .ok h') : Accounted h' L := by
  obtain ⟨F, hbooked⟩ := hk.booked
  have hbooked' := hbooked.commit hrun
  obtain ⟨rfl, -, -⟩ := commit_eq hbooked.tiled.sound hrun
  exact ⟨⟨F, hbooked'⟩, hk.used⟩

end Calls

end BlockHost.Heap
