import BlockHost.Proofs.HeapMoves
import BlockHost.Proofs.WordClasses

/-!
# Blocks on words

How blocks come and go when the heap counts in words. Each operation of the library is written again in
the steps in which it is done there: where a header's word begins is a sum, a size is put into 32 bits, a
class is marked by a shift, and a link is made and followed. Slices are checked by the accesses of the
library, once the sum that ends them is known to be a word.

No step fails while the books are right. The blocks that the books list are small enough for all these
words (`Booked.bounds`), and what an operation takes in hand halfway is listed as loose. So for each
operation there is one equation, which says that in a state with books it ends as the library's operation
does (`takeBlock_eq`, `giveBack_eq`, `moveBlock_eq`). Where an operation has several parts, the library's
lemmas about the books say in which state each part begins.
-/

namespace BlockHost.Heap

namespace Words

/-! ## Access -/

/-- Bytes of a segment. Where they end is a sum. -/
def load (position start len : Nat) : WordAction Bytes := do
  let _ ← add start len
  plain (Heap.load position start len)

/-- Replaces bytes of a segment. Where they end is a sum. -/
def store (position start : Nat) (bs : Bytes) : WordAction Unit := do
  let _ ← add start bs.length
  plain (Heap.store position start bs)

/-- A word of 32 bits in a segment. -/
def word32 (position start : Nat) : WordAction Nat := do
  return Bytes.toNat (← load position start 4)

/-- A word of 64 bits in a segment. -/
def word64 (position start : Nat) : WordAction Nat := do
  return Bytes.toNat (← load position start 8)

/-- Replaces a word of 32 bits in a segment by a number that has to fit into it. -/
def putWord32 (position start n : Nat) : WordAction Unit := do
  store position start (Bytes.ofNat 4 (← narrow n))

/-- Replaces a word of 64 bits in a segment. -/
def putWord64 (position start n : Nat) : WordAction Unit :=
  store position start (Bytes.ofNat 8 n)

/-! ## Free blocks -/

/-- Puts a block at the front of the free blocks of its class. -/
def file (b : Block) : WordAction Unit := do
  let c ← classFloor b.size
  let head := (← get).heads.get c
  putWord32 b.segment b.start b.size
  putWord32 b.segment (← add b.start 4) freeTag
  putWord64 b.segment (← add b.start headerSize) head
  let first ← encode b.segment b.start
  modify fun h => { h with heads := h.heads.set c.val first c.isLt }
  checkShift classCount c.val
  modify fun h => { h with occupied := h.occupied ||| BitVec.twoPow classCount c.val }

/-- Takes the first free block out of a class. -/
def unfile (c : SizeClass) : WordAction Block := do
  let (position, start) ← decode ((← get).heads.get c)
  let next ← word64 position (← add start headerSize)
  modify fun h => { h with heads := h.heads.set c.val next c.isLt }
  if next = noLink then
    checkShift classCount c.val
    modify fun h => { h with occupied := h.occupied &&& ~~~(BitVec.twoPow classCount c.val) }
  return ⟨position, start, ← word32 position start⟩

/-- Makes a used block of the given size out of a free one, and files the rest when it is a block of
its own. -/
def occupy (b : Block) (need : Nat) : WordAction Pointer := do
  let rest ← sub b.size need
  if leastBlock ≤ rest then
    file ⟨b.segment, ← add b.start need, rest⟩
  putWord32 b.segment b.start (if leastBlock ≤ rest then need else b.size)
  putWord32 b.segment (← add b.start 4) usedTag
  let region ← narrow b.segment
  let offset ← narrow (← add b.start headerSize)
  return ⟨UInt32.ofNat region, UInt32.ofNat offset⟩

/-! ## Requests -/

/-- Leaves the rest of the current segment behind, of which so much has been used. -/
def leave (current top length : Nat) : WordAction Unit := do
  let rest ← sub length top
  plain (setTop current length)
  if leastBlock ≤ rest then
    file ⟨current, top, rest⟩
  let next ← add (← get).current 1
  modify fun h => { h with current := next }

/-- Takes a block from the rest of the current segment or of one of those after it. -/
def extend (need : Nat) : (left : Nat) → WordAction Pointer
  | 0 => throw (.stopped (.refused .outOfMemory))
  | left + 1 => do
      let current := (← get).current
      let s ← plain (segment current)
      let stop ← add s.top need
      if stop ≤ s.region.size then
        plain (setTop current stop)
        occupy ⟨current, s.top, need⟩ need
      else
        let next ← add current 1
        if next = (← get).segments.length then
          throw (.stopped (.refused .outOfMemory))
        else
          leave current s.top s.region.size
          extend need left

/-- Takes a block for a request out of the free ones, or else from the rest of the segments. -/
def takeBlock (request : Nat) : WordAction Pointer := do
  match sizeFor? request with
  | none => throw (.stopped (.refused .outOfMemory))
  | some need =>
      let h ← get
      match ← classCeil need with
      | none => extend need (h.segments.length - h.current)
      | some least =>
          checkShift classCount least.val
          match h.firstOccupied least with
          | some c => occupy (← unfile c) need
          | none => extend need (h.segments.length - h.current)

/-! ## Live blocks -/

/-- The block whose payload a pointer leads to, when it is live. -/
def liveBlock (p : Pointer) : WordAction Block := do
  let h ← get
  match h.segments[p.region.toNat]? with
  | none => throw (.stopped (.refused .invalidPointer))
  | some s =>
      let offset := p.offset.toNat
      if offset % headerSize ≠ 0 ∨ offset < headerSize ∨ s.top < offset then
        throw (.stopped (.refused .invalidPointer))
      else
        let start ← sub offset headerSize
        let size ← word32 p.region.toNat start
        let tag ← word32 p.region.toNat (← add start 4)
        let stop ← add start size
        if tag ≠ usedTag ∨ size < leastBlock ∨ s.top < stop then
          throw (.stopped (.refused .invalidPointer))
        else return ⟨p.region.toNat, start, size⟩

/-- Gives a live block back: to the rest of its segment when it lies last in it, and else to the free
ones. -/
def giveBack (p : Pointer) : WordAction Unit := do
  let b ← liveBlock p
  let h ← get
  let s ← plain (segment b.segment)
  let stop ← add b.start b.size
  if b.segment = h.current ∧ stop = s.top then
    plain (setTop b.segment b.start)
    putWord32 b.segment (← add b.start 4) freeTag
  else
    file b

/-- Copies the first bytes of one payload into another one. -/
def copyContent (source target : Pointer) (len : Nat) : WordAction Unit := do
  let _ ← add source.offset.toNat len
  let _ ← add target.offset.toNat len
  plain (Heap.copyContent source target len)

/-- Makes room for another size: in the block itself when it is large enough or lies last in its segment,
and else in a block elsewhere. -/
def moveBlock (p : Pointer) (old new : Nat) : WordAction Pointer := do
  let b ← liveBlock p
  match sizeFor? new with
  | none => throw (.stopped (.refused .outOfMemory))
  | some need =>
      if need ≤ b.size then
        return p
      let h ← get
      let s ← plain (segment b.segment)
      let stop ← add b.start b.size
      let grown ← add b.start need
      if b.segment = h.current ∧ stop = s.top ∧ grown ≤ s.region.size then
        plain (setTop b.segment grown)
        putWord32 b.segment b.start need
        return p
      let q ← takeBlock new
      let room ← sub b.size headerSize
      copyContent p q (min (min old new) room)
      giveBack p
      return q

/-! ## What they come to -/

section Access

variable {position start n : Nat}

theorem load_eq {len : Nat} (h : start + len < 2 ^ 64) :
    load position start len = plain (Heap.load position start len) := by
  rw [load, add_eq h, pure_bind]

theorem store_eq {bs : Bytes} (h : start + bs.length < 2 ^ 64) :
    store position start bs = plain (Heap.store position start bs) := by
  rw [store, add_eq h, pure_bind]

theorem word32_eq (h : start < 2 ^ 33) : word32 position start =
    (do return Bytes.toNat (← plain (Heap.load position start 4))) := by
  rw [word32, load_eq (by omega)]

theorem word64_eq (h : start < 2 ^ 33) : word64 position start =
    (do return Bytes.toNat (← plain (Heap.load position start 8))) := by
  rw [word64, load_eq (by omega)]

theorem putWord32_eq (h : start < 2 ^ 33) (hn : n < 2 ^ 32) :
    putWord32 position start n = plain (Heap.store position start (Bytes.ofNat 4 n)) := by
  rw [putWord32, narrow_eq hn, pure_bind]
  exact store_eq (by rw [Bytes.length_ofNat]; omega)

theorem putWord64_eq (h : start < 2 ^ 33) :
    putWord64 position start n = plain (Heap.store position start (Bytes.ofNat 8 n)) :=
  store_eq (by rw [Bytes.length_ofNat]; omega)

end Access

section Filing

variable {b : Block}

theorem file_eq (hsegment : b.segment < 16) (hstop : b.start + b.size < 2 ^ 32)
    (hleast : leastBlock ≤ b.size) : file b = plain (Heap.file b) := by
  have hmark : add b.start 4 = pure (b.start + 4) := add_eq (by omega)
  have hbody : add b.start headerSize = pure (b.start + headerSize) :=
    add_eq (by unfold headerSize; omega)
  have hsize : putWord32 b.segment b.start b.size = _ := putWord32_eq (by omega) (by omega)
  have htag : putWord32 b.segment (b.start + 4) freeTag = _ :=
    putWord32_eq (by omega) (by decide)
  have hnext : ∀ n, putWord64 b.segment (b.start + headerSize) n = _ := fun n =>
    putWord64_eq (n := n) (by unfold headerSize; omega)
  rw [file, classFloor_eq hleast (by omega), pure_bind, Heap.file, plain_bind]
  refine bind_congr fun h => ?_
  simp only [hmark, hbody, hsize, htag, hnext, encode_eq hsegment (show b.start < 2 ^ 32 by omega),
    checkShift_eq (SizeClass.floor b.size).isLt, pure_bind, writeHeader, plain_bind, bind_assoc]
  rfl

/-- The head of a class that has a block leads to it. -/
theorem unfile_eq {h : Heap} {c : SizeClass} (hhead : h.heads.get c ≠ noLink) :
    unfile c h = plain (Heap.unfile c) h := by
  have hlt := linkStart_lt (h.heads.get c)
  have hbody : add (linkStart (h.heads.get c)) headerSize
      = pure (linkStart (h.heads.get c) + headerSize) := add_eq (by unfold headerSize; omega)
  have hnext : word64 (linkSegment (h.heads.get c)) (linkStart (h.heads.get c) + headerSize) = _ :=
    word64_eq (by unfold headerSize; omega)
  have hsize : word32 (linkSegment (h.heads.get c)) (linkStart (h.heads.get c)) = _ :=
    word32_eq (by omega)
  rw [unfile, Action.get_bind, decode_eq hhead, pure_bind, Heap.unfile, plain_bind]
  show _ = (plain _ : WordAction Block) h
  refine congrFun ?_ h
  simp only [hbody, hnext, hsize, checkShift_eq c.isLt, pure_bind, bind_assoc, plain_bind,
    apply_ite plain]
  rfl

theorem occupy_eq {need : Nat} (hsegment : b.segment < 16) (hstop : b.start + b.size < 2 ^ 32)
    (hleast : leastBlock ≤ b.size) (hle : need ≤ b.size) :
    occupy b need = plain (Heap.occupy b need) := by
  unfold leastBlock at hleast
  have hmark : add b.start 4 = pure (b.start + 4) := add_eq (by omega)
  have hbody : add b.start headerSize = pure (b.start + headerSize) :=
    add_eq (by unfold headerSize; omega)
  have hsize : ∀ size ≤ b.size, putWord32 b.segment b.start size = _ := fun size hsize =>
    putWord32_eq (n := size) (by omega) (by omega)
  have htag : putWord32 b.segment (b.start + 4) usedTag = _ :=
    putWord32_eq (by omega) (by decide)
  rw [occupy, sub_eq hle, pure_bind, Heap.occupy, if_neg (Nat.not_lt.2 hle)]
  simp only [hmark, hbody, htag, narrow_eq (show b.segment < 2 ^ 32 by omega),
    narrow_eq (show b.start + headerSize < 2 ^ 32 by unfold headerSize; omega), pure_bind]
  by_cases hrest : leastBlock ≤ b.size - need
  · have hcut : add b.start need = pure (b.start + need) := add_eq (by omega)
    have hfile : file ⟨b.segment, b.start + need, b.size - need⟩ = _ :=
      file_eq hsegment (by simp only; omega) hrest
    simp only [if_pos hrest, hcut, hfile, hsize need hle, pure_bind, plain_bind, writeHeader,
      bind_assoc]
    rfl
  · simp only [if_neg hrest, hsize b.size (Nat.le_refl _), plain_bind, writeHeader, bind_assoc]
    rfl

end Filing

section Requests

variable {h : Heap} {L : List Lease} {F U : List Block} {b : Block} {need : Nat}

theorem current_lt (hk : Booked h ⟨L, F, U⟩) :
    h.current < 16 ∧ h.topAt h.current ≤ h.lengthAt h.current ∧
      h.lengthAt h.current < 2 ^ 32 := by
  have hcurrent : h.current < h.segments.length := hk.tiled.sound.current_lt
  have hcount : h.segments.length ≤ h.maxRegions := hk.tiled.sound.count_le
  have hmax : h.maxRegions ≤ 16 := hk.tiled.sound.regions_le
  have htop : h.topAt h.current ≤ h.lengthAt h.current := hk.tiled.sound.top_le _
  have hlength : h.lengthAt h.current < 2 ^ 32 := hk.tiled.sound.length_lt hcurrent
  exact ⟨by omega, htop, hlength⟩

theorem leave_ok (hk : Booked h ⟨L, F, []⟩) :
    leave h.current (h.topAt h.current) (h.lengthAt h.current) h = .ok () h.leftBehind := by
  obtain ⟨hsegment, htop, hlength⟩ := current_lt hk
  -- The library does this in the midst of a loop, so its run is read with nothing after it.
  have hpass := Heap.leave_ok hk.tiled.sound.current_lt htop (pure ⟨0, 0⟩)
  have hcurrent := current_leftBehind (h := h)
  generalize h.leftBehind = h' at hpass hcurrent
  rw [leave, sub_eq htop, pure_bind]
  by_cases hrest : leastBlock ≤ h.lengthAt h.current - h.topAt h.current
  · have hfile : file ⟨h.current, h.topAt h.current, h.lengthAt h.current - h.topAt h.current⟩
        = _ := file_eq hsegment (by simp only; omega) hrest
    simp only [if_pos hrest] at hpass ⊢
    obtain ⟨_, h₁, hset, hpass⟩ := Action.of_bind_ok hpass
    obtain ⟨_, h₂, hfiled, hpass⟩ := Action.of_bind_ok hpass
    cases hpass
    rw [Action.bind_ok (plain_ok hset), hfile, Action.bind_ok (plain_ok hfiled), Action.get_bind,
      add_eq (by simp only [advanced] at hcurrent; omega), pure_bind]
    rfl
  · simp only [if_neg hrest] at hpass ⊢
    obtain ⟨_, h₁, hset, hpass⟩ := Action.of_bind_ok hpass
    cases hpass
    rw [Action.bind_ok (plain_ok hset), Action.get_bind,
      add_eq (by simp only [advanced] at hcurrent; omega), pure_bind]
    rfl

/-- The induction is on the segments that are left, of which every step but the last leaves one
behind. -/
theorem extend_eq (hneed : leastBlock ≤ need) (hlt : need < 2 ^ 32) :
    ∀ {left : Nat} {h : Heap} {F : List Block}, Booked h ⟨L, F, []⟩ →
      left = h.segments.length - h.current →
      extend need left h = plain (Heap.extend need left) h := by
  intro left
  induction left with
  | zero => exact fun _ _ => rfl
  | succ left ih =>
      intro h F hk hleft
      have hcur : h.current < h.segments.length := hk.tiled.sound.current_lt
      obtain ⟨hsegment, htop, hlength⟩ := current_lt hk
      obtain ⟨-, hl, ht⟩ := answers_of_lt hcur
      show _ = ended (Heap.extend need (left + 1) h)
      rw [extend, Action.get_bind, Action.bind_ok (plain_ok (segment_ok hcur)), Heap.extend,
        Action.get_bind, Action.bind_ok (segment_ok hcur), hl, ht, add_eq (by omega), pure_bind]
      by_cases hfit : h.topAt h.current + need ≤ h.lengthAt h.current
      · simp only [if_pos hfit]
        rw [Action.bind_ok (plain_ok (setTop_ok hcur _)), Action.bind_ok (setTop_ok hcur _),
          occupy_eq hsegment (by simp only; omega) hneed (Nat.le_refl _)]
        rfl
      · simp only [if_neg hfit]
        rw [add_eq (by omega), pure_bind, Action.get_bind]
        by_cases hlast : left = 0
        · rw [if_pos (by omega), if_pos hlast]
          rfl
        · obtain ⟨F', hk'⟩ := hk.leave (by omega)
          rw [if_neg (by omega), if_neg hlast, Action.bind_ok (leave_ok hk),
            ih hk' (by rw [(undisturbed_leftBehind h).count, current_leftBehind]; omega)]
          exact congrArg ended (Heap.leave_ok hcur htop (Heap.extend need left)).symm

/-- A class that is occupied has a block at its head. -/
theorem head_ne (hk : Booked h ⟨L, F, U⟩) {c : SizeClass} (hc : h.occupied.getLsbD c = true) :
    h.heads.get c ≠ noLink := by
  obtain ⟨b, rest, hfiled⟩ := List.exists_cons_of_ne_nil ((hk.occupied c).1 hc)
  have hlinked := hk.linked c
  rw [hfiled] at hlinked
  have hhead : h.heads.get c = link b.segment b.start := hlinked.1
  rw [hhead]
  exact Nat.ne_of_lt (hk.link_lt (hk.mem_of_filed (hfiled ▸ List.mem_cons_self)))

theorem takeBlock_eq (hk : Booked h ⟨L, F, []⟩) (request : Nat) :
    takeBlock request h = plain (Heap.takeBlock request) h := by
  show _ = ended (Heap.takeBlock request h)
  rw [takeBlock, Heap.takeBlock]
  cases hsize : sizeFor? request with
  | none => rfl
  | some need =>
      obtain ⟨hneed, hlt, hmod, hroom⟩ := sizeFor?_spec hsize
      have hextend : extend need (h.segments.length - h.current) h = _ := extend_eq hneed hlt hk rfl
      simp only [Action.get_bind, classCeil_eq hneed hlt, pure_bind]
      cases hceil : SizeClass.ceil need with
      | none => exact hextend
      | some least =>
          simp only [Option.bind_some, checkShift_eq least.isLt, pure_bind]
          cases hfirst : h.firstOccupied least with
          | none => exact hextend
          | some c =>
              have hfound := List.find?_some hfirst
              simp only [Bool.and_eq_true, decide_eq_true_eq] at hfound
              obtain ⟨b, rest, h₁, -, hunfile, hfloor, hk₁, -, -⟩ := hk.unfile hfound.2
              obtain ⟨hsegment, hstop, hleast⟩ := hk₁.bounds (b := b) List.mem_cons_self
              have hle : need ≤ b.size := SizeClass.le_of_ceil_le_floor hneed hlt hleast
                (by omega) hceil (hfloor ▸ hfound.1)
              have hunfiled := (unfile_eq (head_ne hk hfound.2)).trans (plain_ok hunfile)
              simp only
              rw [Action.bind_ok hunfiled, Action.bind_ok hunfile,
                occupy_eq hsegment hstop hleast hle]
              rfl

end Requests

/-! ## Live blocks -/

section Living

variable {h : Heap} {L : List Lease} {F : List Block} {l : Lease} {p : Pointer}

theorem word32_ok {i start : Nat} (hi : i < h.segments.length)
    (hstart : start + 4 ≤ h.lengthAt i) (hlt : start < 2 ^ 33) :
    word32 i start h = .ok (Bytes.toNat ((h.memoryAt i).load start 4)) h := by
  rw [word32_eq hlt, Action.bind_ok (plain_ok (load_ok hi hstart))]
  rfl

/-- Whatever a pointer says, looking for its block stays inside its segment. -/
theorem liveBlock_eq (hk : Booked h ⟨L, F, []⟩) (p : Pointer) :
    liveBlock p h = plain (Heap.liveBlock p) h := by
  show _ = ended (Heap.liveBlock p h)
  rw [liveBlock, Action.get_bind, Heap.liveBlock, blockOf?]
  cases hs : h.segments[p.region.toNat]? with
  | none => rfl
  | some s =>
      simp only [Option.bind_eq_bind, Option.bind_some]
      split
      · rfl
      · next hplace =>
          obtain ⟨hi, -⟩ := List.getElem?_eq_some_iff.1 hs
          obtain ⟨hmemory, -, htop⟩ := answers_of_getElem? hs
          have hbelow : h.topAt p.region.toNat ≤ h.lengthAt p.region.toNat :=
            hk.tiled.sound.top_le _
          have hoffset := p.offset.toNat_lt
          have hin : headerSize ≤ p.offset.toNat ∧ p.offset.toNat ≤ h.topAt p.region.toNat := by
            rw [← htop]
            omega
          unfold headerSize at hin hplace ⊢
          rw [sub_eq hin.1, pure_bind, Action.bind_ok (word32_ok hi (by omega) (by omega)),
            add_eq (by omega), pure_bind, Action.bind_ok (word32_ok hi (by omega) (by omega)),
            ← hmemory]
          -- The size may be anything that four bytes say, as the pointer need not be one to a block.
          have hsize : Bytes.toNat (s.region.memory.load (p.offset.toNat - 8) 4) < 256 ^ 4 := by
            have hword := Bytes.toNat_lt (s.region.memory.load (p.offset.toNat - 8) 4)
            rwa [Memory.length_load] at hword
          rw [add_eq (by omega), pure_bind]
          split <;> rfl

theorem liveBlock_ok (hk : Booked h ⟨L, F, []⟩) (hl : l ∈ L) :
    liveBlock l.block.pointer h = .ok l.block h :=
  (liveBlock_eq hk _).trans (plain_ok (hk.liveBlock hl))

theorem giveBack_eq (hk : Booked h ⟨L, F, []⟩) (hl : l ∈ L) :
    giveBack l.block.pointer h = plain (Heap.giveBack l.block.pointer) h := by
  have hmem : l.block ∈ (Books.mk L F []).blocks := hk.mem_of_lease hl
  have hi := hk.segment_lt hmem
  obtain ⟨hsegment, hstop, hleast⟩ := hk.bounds hmem
  have hmark : putWord32 l.block.segment (l.block.start + 4) freeTag = _ :=
    putWord32_eq (by omega) (by decide)
  have hfile := file_eq hsegment hstop hleast
  show _ = ended (Heap.giveBack l.block.pointer h)
  rw [giveBack, Action.bind_ok (liveBlock_ok hk hl), Action.get_bind,
    Action.bind_ok (plain_ok (segment_ok hi)), add_eq (by omega), pure_bind,
    Heap.giveBack, Action.bind_ok (hk.liveBlock hl), Action.get_bind,
    Action.bind_ok (segment_ok hi)]
  split
  · rw [Action.bind_ok (plain_ok (setTop_ok hi _)), Action.bind_ok (setTop_ok hi _),
      add_eq (by omega), pure_bind, hmark]
    rfl
  · rw [hfile]
    rfl

theorem copyContent_eq {source target : Pointer} {len : Nat} (hlen : len < 2 ^ 32) :
    copyContent source target len = plain (Heap.copyContent source target len) := by
  have hsource := source.offset.toNat_lt
  have htarget := target.offset.toNat_lt
  rw [copyContent, add_eq (by omega), pure_bind, add_eq (by omega), pure_bind]

theorem moveBlock_eq (hk : Booked h ⟨l :: L, F, []⟩) (new : Nat) :
    moveBlock l.block.pointer l.size new h
      = plain (Heap.moveBlock l.block.pointer l.size new) h := by
  have hl : l ∈ l :: L := List.mem_cons_self
  have hmem : l.block ∈ (Books.mk (l :: L) F []).blocks := hk.mem_of_lease hl
  have hi := hk.segment_lt hmem
  obtain ⟨hsegment, hstop, hleast⟩ := hk.bounds hmem
  have hroom := (hk.held l hl).room
  show _ = ended (Heap.moveBlock l.block.pointer l.size new h)
  rw [moveBlock, Action.bind_ok (liveBlock_ok hk hl), Heap.moveBlock,
    Action.bind_ok (hk.liveBlock hl)]
  cases hsize : sizeFor? new with
  | none => rfl
  | some need =>
      obtain ⟨hneed, hlt, hmod, hnew⟩ := sizeFor?_spec hsize
      by_cases hsuffices : need ≤ l.block.size
      · simp only [if_pos hsuffices]
        rfl
      simp only [if_neg hsuffices]
      rw [Action.get_bind, Action.get_bind, Action.bind_ok (plain_ok (segment_ok hi)),
        Action.bind_ok (segment_ok hi), add_eq (by omega), pure_bind, add_eq (by omega), pure_bind]
      split
      · rw [Action.bind_ok (plain_ok (setTop_ok hi _)), Action.bind_ok (setTop_ok hi _),
          putWord32_eq (by omega) hlt]
        exact congrFun (plain_bind _ fun _ => pure l.block.pointer).symm _
      · -- What is left to do begins in the state in which the new block is leased as well.
        refine bind_eq (takeBlock_eq hk new) fun q h₁ hrun => ?_
        have htake := hk.takeBlock new
        rw [hrun] at htake
        obtain ⟨b, F₁, rfl, hk₁, -⟩ := htake
        have hnewRoom := (hk₁.held _ List.mem_cons_self).room
        have hlen : min (min l.size new) (l.block.size - headerSize) = min l.size new := by
          omega
        obtain ⟨m, hcopy, -, hk₂⟩ := hk₁.copyContent (min l.size new) (by omega)
          (by simp only at hnewRoom ⊢; omega)
        rw [sub_eq (by unfold leastBlock headerSize at *; omega), pure_bind, hlen,
          copyContent_eq (by omega)]
        refine bind_eq rfl fun _ h₂ hcopied => ?_
        rw [hcopy] at hcopied
        cases hcopied
        exact bind_eq (giveBack_eq hk₂ (List.mem_cons_of_mem _ List.mem_cons_self))
          fun _ _ _ => rfl

end Living

end Words

end BlockHost.Heap
