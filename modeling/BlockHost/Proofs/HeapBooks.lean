import BlockHost.Proofs.HeapTiling

/-!
# The books of a heap

What a heap means is who owns each of its blocks. The heap does not write that down anywhere: it
is spread over headers, links, heads and a bitmap, all of which lie in or beside the memory that
clients write to. The books say it plainly. A block is on lease to a client, or free, or loose,
which it is only inside an operation, between one owner and the next.

`Booked` ties the books to the heap: together the blocks tile the segments, the header and the
content of each leased block are in the memory, and the free blocks of each class are linked in
the order in which the books list them. Nothing is asked of a loose block, which is why
operations may write to it.
-/

namespace BlockHost.Heap

/-- A block that a client holds. -/
structure Lease where
  block : Block
  /-- The size that the client asked for last. -/
  size : Nat
  /-- What the client knows to be in its payload. -/
  content : Nat → Option UInt8

/-- Who owns which block. -/
structure Books where
  leases : List Lease
  /-- The free blocks, of every class the one filed last first. -/
  free : List Block
  loose : List Block

/-- All blocks. -/
def Books.blocks (k : Books) : List Block :=
  k.loose ++ (k.free ++ k.leases.map Lease.block)

/-- The free blocks of a class, in the order of its links. -/
def Books.filed (k : Books) (c : SizeClass) : List Block :=
  k.free.filter fun b => SizeClass.floor b.size = c

/-- The pointer to the payload of a block. -/
def Block.pointer (b : Block) : Pointer :=
  ⟨UInt32.ofNat b.segment, UInt32.ofNat (b.start + headerSize)⟩

/-- The header of a block is in the memory of its segment. -/
structure Block.Marked (memory : Nat → Memory) (b : Block) (tag : Nat) : Prop where
  size_eq : (memory b.segment).number b.start 4 = b.size
  tag_eq : (memory b.segment).number (b.start + 4) 4 = tag

/-- What the client knows of its block is so. -/
structure Lease.Held (memory : Nat → Memory) (l : Lease) : Prop where
  marked : l.block.Marked memory usedTag
  room : l.size + headerSize ≤ l.block.size
  content : ∀ i byte, l.content i = some byte → i + headerSize < l.block.size ∧
    (memory l.block.segment).byteAt (l.block.start + headerSize + i) = byte

/-- Following the links from a first one leads through the given blocks, and nowhere else. -/
def Linked (memory : Nat → Memory) : Nat → List Block → Prop
  | first, [] => first = noLink
  | first, b :: rest =>
      first = link b.segment b.start ∧
        Linked memory ((memory b.segment).number (b.start + headerSize) 8) rest

/-- The books of a heap are right. -/
structure Booked (h : Heap) (k : Books) : Prop where
  tiled : Tiled h.ground k.blocks
  held : ∀ l ∈ k.leases, l.Held h.memoryAt
  marked : ∀ b ∈ k.free, b.Marked h.memoryAt freeTag
  linked : ∀ c : SizeClass, Linked h.memoryAt (h.heads.get c) (k.filed c)
  occupied : ∀ c : SizeClass, h.occupied.getLsbD c = true ↔ k.filed c ≠ []

/-- What clients and the worker see of a heap, apart from the blocks. -/
structure Undisturbed (h h' : Heap) : Prop where
  used : h'.used = h.used
  awaiting : h'.awaiting = h.awaiting
  complete : h'.complete = h.complete
  requests : h'.requests = h.requests
  requestCount : h'.requestCount = h.requestCount
  baseSize : h'.baseSize = h.baseSize
  maxRegions : h'.maxRegions = h.maxRegions
  count : h'.segments.length = h.segments.length
  lengthAt : ∀ i, h'.lengthAt i = h.lengthAt i

theorem Undisturbed.refl (h : Heap) : Undisturbed h h :=
  ⟨rfl, rfl, rfl, rfl, rfl, rfl, rfl, rfl, fun _ => rfl⟩

theorem Undisturbed.trans {h h' h'' : Heap} (a : Undisturbed h h') (b : Undisturbed h' h'') :
    Undisturbed h h'' :=
  ⟨b.used.trans a.used, b.awaiting.trans a.awaiting, b.complete.trans a.complete,
    b.requests.trans a.requests, b.requestCount.trans a.requestCount, b.baseSize.trans a.baseSize,
    b.maxRegions.trans a.maxRegions, b.count.trans a.count,
    fun i => (b.lengthAt i).trans (a.lengthAt i)⟩

theorem undisturbed_withMemory (h : Heap) (i : Nat) (m : Memory) :
    Undisturbed h (h.withMemory i m) :=
  ⟨rfl, rfl, rfl, rfl, rfl, rfl, rfl, by simp, fun j => by simp⟩

theorem undisturbed_withTop (h : Heap) (i top : Nat) : Undisturbed h (h.withTop i top) :=
  ⟨rfl, rfl, rfl, rfl, rfl, rfl, rfl, by simp, fun j => by simp⟩

@[simp] theorem ground_withMemory (h : Heap) (i : Nat) (m : Memory) :
    (h.withMemory i m).ground = h.ground := by
  simp only [ground, length_segments_withMemory]
  congr 1
  · funext j
    exact lengthAt_withMemory h i j m
  · funext j
    exact topAt_withMemory h i j m

theorem ground_withTop {h : Heap} {i : Nat} (hi : i < h.segments.length) (top : Nat) :
    (h.withTop i top).ground = h.ground.setTop i top := by
  simp only [ground, Ground.setTop, length_segments_withTop]
  congr 1
  · funext j
    exact lengthAt_withTop h i j top
  · funext j
    exact topAt_withTop h i j top hi

/-! ## What a change of the memory leaves alone -/

/-- The bytes of a block are the same before and after. -/
def Block.Kept (memory memory' : Nat → Memory) (b : Block) : Prop :=
  ∀ x, b.start ≤ x → x < b.start + b.size →
    (memory' b.segment).byteAt x = (memory b.segment).byteAt x

section Kept

variable {h : Heap} {memory memory' : Nat → Memory} {b c : Block} {g : Ground}

theorem Block.Kept.number_eq (hb : b.Kept memory memory') {x width : Nat} (hlow : b.start ≤ x)
    (hhigh : x + width ≤ b.start + b.size) :
    (memory' b.segment).number x width = (memory b.segment).number x width :=
  Memory.number_congr fun y hy hy' => hb y (by omega) (by omega)

theorem Block.Marked.of_kept {tag : Nat} (hb : b.Marked memory tag) (hfit : b.Fits g)
    (hkept : b.Kept memory memory') : b.Marked memory' tag := by
  have hsize := hfit.size_ge
  unfold leastBlock at hsize
  refine ⟨?_, ?_⟩
  · rw [hkept.number_eq (Nat.le_refl _) (by omega)]
    exact hb.size_eq
  · rw [hkept.number_eq (by omega) (by omega)]
    exact hb.tag_eq

theorem Lease.Held.of_kept {l : Lease} (hl : l.Held memory) (hfit : l.block.Fits g)
    (hkept : l.block.Kept memory memory') : l.Held memory' where
  marked := hl.marked.of_kept hfit hkept
  room := hl.room
  content i byte hi := by
    obtain ⟨hlt, hbyte⟩ := hl.content i byte hi
    exact ⟨hlt, (hkept _ (by omega) (by omega)).trans hbyte⟩

theorem Linked.of_kept : ∀ {bs : List Block} {first : Nat}, Linked memory first bs →
    (∀ b ∈ bs, b.Fits g) → (∀ b ∈ bs, b.Kept memory memory') → Linked memory' first bs
  | [], _, hl, _, _ => hl
  | b :: rest, _, ⟨hfirst, hrest⟩, hfit, hkept => by
      have hsize := (hfit b List.mem_cons_self).size_ge
      unfold leastBlock at hsize
      refine ⟨hfirst, ?_⟩
      rw [(hkept b List.mem_cons_self).number_eq (by omega) (by simp only [headerSize]; omega)]
      exact hrest.of_kept (fun c hc => hfit c (List.mem_cons_of_mem _ hc))
        fun c hc => hkept c (List.mem_cons_of_mem _ hc)

/-- A write inside one block leaves the blocks apart from it as they are. -/
theorem Block.Apart.kept_store (hap : b.Apart c) (hi : b.segment < h.segments.length) {start : Nat}
    {bs : Bytes} (hlow : b.start ≤ start) (hhigh : start + bs.length ≤ b.start + b.size) :
    c.Kept h.memoryAt
      (h.withMemory b.segment ((h.memoryAt b.segment).store start bs)).memoryAt := by
  intro x hx hx'
  rw [memoryAt_withMemory _ _ _ _ hi]
  split
  · next hseg =>
      rw [hseg]
      refine Memory.byteAt_store_of_outside ?_
      rcases hap with hne | hle | hle
      · exact absurd hseg.symm hne
      · omega
      · omega
  · rfl

end Kept

/-! ## The moves of the books -/

section Books

variable {h h' : Heap} {k : Books} {L : List Lease} {F U : List Block} {b : Block}

theorem Booked.fits (hk : Booked h k) (hb : b ∈ k.blocks) : b.Fits h.ground :=
  hk.tiled.fits b hb

theorem Booked.segment_lt (hk : Booked h k) (hb : b ∈ k.blocks) :
    b.segment < h.segments.length :=
  (hk.fits hb).segment_lt hk.tiled.sound

/-- A block of the books lies inside its region. -/
theorem Booked.stop_le_length (hk : Booked h k) (hb : b ∈ k.blocks) :
    b.start + b.size ≤ h.lengthAt b.segment :=
  Nat.le_trans (hk.fits hb).stop_le (hk.tiled.sound.top_le b.segment)

/-- The books stay right when the owned blocks are kept, whatever else changes. -/
theorem Booked.transport {k' : Books} (hk : Booked h k) (ht : Tiled h'.ground k'.blocks)
    (hleases : k'.leases = k.leases) (hfree : k'.free = k.free) (hheads : h'.heads = h.heads)
    (hocc : h'.occupied = h.occupied)
    (hkept : ∀ b ∈ k.free ++ k.leases.map Lease.block, b.Kept h.memoryAt h'.memoryAt) :
    Booked h' k' where
  tiled := ht
  held l hl := by
    rw [hleases] at hl
    have hmem : l.block ∈ k.free ++ k.leases.map Lease.block :=
      List.mem_append_right _ (List.mem_map_of_mem hl)
    exact (hk.held l hl).of_kept (hk.fits (List.mem_append_right _ hmem)) (hkept _ hmem)
  marked b hb := by
    rw [hfree] at hb
    have hmem : b ∈ k.free ++ k.leases.map Lease.block := List.mem_append_left _ hb
    exact (hk.marked b hb).of_kept (hk.fits (List.mem_append_right _ hmem)) (hkept _ hmem)
  linked c := by
    have hmem : ∀ b ∈ k.filed c, b ∈ k.free ++ k.leases.map Lease.block :=
      fun b hb => List.mem_append_left _ (List.mem_filter.1 hb).1
    rw [hheads, Books.filed, hfree]
    exact (hk.linked c).of_kept (fun b hb => hk.fits (List.mem_append_right _ (hmem b hb)))
      fun b hb => hkept b (hmem b hb)
  occupied c := by
    rw [hocc, Books.filed, hfree]
    exact hk.occupied c

theorem Booked.release {l : Lease} (hk : Booked h ⟨l :: L, F, U⟩) :
    Booked h ⟨L, F, l.block :: U⟩ where
  tiled := hk.tiled.perm <| by
    simp only [Books.blocks, List.map_cons, List.cons_append]
    rw [← List.append_assoc, ← List.append_assoc]
    exact List.perm_middle
  held m hm := hk.held m (List.mem_cons_of_mem _ hm)
  marked := hk.marked
  linked := hk.linked
  occupied := hk.occupied

/-- A loose block whose header and content are in place is leased. -/
theorem Booked.grant {l : Lease} (hk : Booked h ⟨L, F, l.block :: U⟩) (hl : l.Held h.memoryAt) :
    Booked h ⟨l :: L, F, U⟩ where
  tiled := hk.tiled.perm <| by
    simp only [Books.blocks, List.map_cons, List.cons_append]
    rw [← List.append_assoc, ← List.append_assoc]
    exact List.perm_middle.symm
  held m hm := by
    rcases List.mem_cons.mp hm with rfl | hm
    · exact hl
    · exact hk.held m hm
  marked := hk.marked
  linked := hk.linked
  occupied := hk.occupied

theorem Booked.perm {L' : List Lease} (hk : Booked h ⟨L, F, U⟩) (hp : L.Perm L') :
    Booked h ⟨L', F, U⟩ where
  tiled := hk.tiled.perm (List.Perm.append_left _ (List.Perm.append_left _ (hp.map _)))
  held m hm := hk.held m (hp.mem_iff.2 hm)
  marked := hk.marked
  linked := hk.linked
  occupied := hk.occupied

theorem Booked.cut {i start first rest : Nat} (hk : Booked h ⟨L, F, ⟨i, start, first + rest⟩ :: U⟩)
    (hfirst : leastBlock ≤ first) (hrest : leastBlock ≤ rest) (hmod : first % 8 = 0) :
    Booked h ⟨L, F, ⟨i, start, first⟩ :: ⟨i, start + first, rest⟩ :: U⟩ where
  tiled := hk.tiled.cut hfirst hrest hmod
  held := hk.held
  marked := hk.marked
  linked := hk.linked
  occupied := hk.occupied

theorem Booked.perm_loose {U' : List Block} (hk : Booked h ⟨L, F, U⟩) (hp : U.Perm U') :
    Booked h ⟨L, F, U'⟩ where
  tiled := hk.tiled.perm (List.Perm.append_right _ hp)
  held := hk.held
  marked := hk.marked
  linked := hk.linked
  occupied := hk.occupied

theorem Booked.apart_of_loose (hk : Booked h ⟨L, F, b :: U⟩) {c : Block}
    (hc : c ∈ F ++ L.map Lease.block) : b.Apart c :=
  (List.pairwise_cons.1 hk.tiled.apart).1 c (List.mem_append_right _ hc)

/-- What is changed inside a loose block is changed in no block of the books. -/
theorem Booked.withMemory (hk : Booked h ⟨L, F, b :: U⟩) {m : Memory}
    (hout : ∀ x, x < b.start ∨ b.start + b.size ≤ x →
      m.byteAt x = (h.memoryAt b.segment).byteAt x) :
    Booked (h.withMemory b.segment m) ⟨L, F, b :: U⟩ := by
  have hseg := hk.segment_lt (b := b) List.mem_cons_self
  refine hk.transport ?_ rfl rfl rfl rfl fun c hc x hlow hhigh => ?_
  · rw [ground_withMemory]
    exact hk.tiled
  · rw [memoryAt_withMemory _ _ _ _ hseg]
    split
    · next hsame =>
        rw [hsame]
        refine hout x ?_
        rcases hk.apart_of_loose hc with hne | hle | hle
        · exact absurd hsame.symm hne
        · exact Or.inr (by omega)
        · exact Or.inl (by omega)
    · rfl

theorem Booked.store (hk : Booked h ⟨L, F, b :: U⟩) (start : Nat) (bs : Bytes)
    (hlow : b.start ≤ start) (hhigh : start + bs.length ≤ b.start + b.size) :
    store b.segment start bs h
        = .ok () (h.withMemory b.segment ((h.memoryAt b.segment).store start bs)) ∧
      Booked (h.withMemory b.segment ((h.memoryAt b.segment).store start bs)) ⟨L, F, b :: U⟩ := by
  have hseg := hk.segment_lt (b := b) List.mem_cons_self
  have hstop := hk.stop_le_length (b := b) List.mem_cons_self
  exact ⟨store_ok hseg (by omega),
    hk.withMemory fun x hx => Memory.byteAt_store_of_outside (by omega)⟩

end Books

end BlockHost.Heap
