import BlockHost.Heap.Growth
import BlockHost.Proofs.HeapLeases

/-!
# Leases end, move and change content

The other half of what a heap does for its clients. A lease ends and its block becomes free, or
the top of the current segment goes down by it. A lease gets another size: in its block when
that suffices, at the top of the current segment when there is room, and else in another block
to which the content is copied. The content of a payload changes when its client writes to it.
And the worker adds a segment.

Each of these touches one lease. That the others stay as they are is not said separately,
because the books that come out still contain them.
-/

namespace BlockHost.Heap

/-! ## What becomes of a block that has been found -/

section Found

variable {h : Heap} {p : Pointer} {b : Block} {old new need : Nat}

/-- The heap with the top of the current segment moved down by its last block. -/
def lowered (h : Heap) (b : Block) : Heap :=
  (h.withTop b.segment b.start).withMemory b.segment
    ((h.memoryAt b.segment).store (b.start + 4) (Bytes.ofNat 4 freeTag))

/-- The heap with a block grown at the top of the current segment. -/
def grown (h : Heap) (b : Block) (need : Nat) : Heap :=
  (h.withTop b.segment (b.start + need)).withMemory b.segment
    ((h.memoryAt b.segment).store b.start (Bytes.ofNat 4 need))

theorem atFrontier_iff :
    h.AtFrontier b ↔ b.segment = h.current ∧ b.start + b.size = h.topAt b.segment :=
  and_congr_right fun hcurrent => by rw [hcurrent]

theorem giveBack_lowered (hb : h.blockOf? p = some b)
    (hlen : b.start + b.size ≤ h.lengthAt b.segment) (hlast : h.AtFrontier b) :
    Heap.giveBack p h = .ok () (h.lowered b) := by
  obtain ⟨-, hseg, -, -, hleast, -⟩ := of_blockOf? hb
  obtain ⟨-, -, htop⟩ := answers_of_lt hseg
  unfold leastBlock at hleast
  rw [Heap.giveBack, Action.bind_ok (liveBlock_some hb), Action.get_bind,
    Action.bind_ok (segment_ok hseg), htop, if_pos (atFrontier_iff.1 hlast),
    Action.bind_ok (setTop_ok hseg _), store_ok (by rwa [length_segments_withTop])
      (by rw [lengthAt_withTop, Bytes.length_ofNat]; omega), memoryAt_withTop]
  rfl

theorem giveBack_filed (hb : h.blockOf? p = some b) (hinner : ¬ h.AtFrontier b) :
    Heap.giveBack p h = Heap.file b h := by
  obtain ⟨-, hseg, -⟩ := of_blockOf? hb
  obtain ⟨-, -, htop⟩ := answers_of_lt hseg
  rw [Heap.giveBack, Action.bind_ok (liveBlock_some hb), Action.get_bind,
    Action.bind_ok (segment_ok hseg), htop, if_neg (mt atFrontier_iff.2 hinner)]

theorem moveBlock_unsized (hb : h.blockOf? p = some b) (hsize : sizeFor? new = none) :
    Heap.moveBlock p old new h = .error (.refused .outOfMemory) h := by
  rw [Heap.moveBlock, Action.bind_ok (liveBlock_some hb), hsize]
  rfl

theorem moveBlock_enough (hb : h.blockOf? p = some b) (hsize : sizeFor? new = some need)
    (hle : need ≤ b.size) : Heap.moveBlock p old new h = .ok p h := by
  rw [Heap.moveBlock, Action.bind_ok (liveBlock_some hb), hsize]
  simp only [if_pos hle]
  rfl

theorem moveBlock_grown (hb : h.blockOf? p = some b) (hsize : sizeFor? new = some need)
    (hlt : ¬ need ≤ b.size)
    (hgrow : h.AtFrontier b ∧ b.start + need ≤ h.lengthAt b.segment) :
    Heap.moveBlock p old new h = .ok p (h.grown b need) := by
  obtain ⟨-, hseg, -, -, hleast, -⟩ := of_blockOf? hb
  obtain ⟨-, hlength, htop⟩ := answers_of_lt hseg
  obtain ⟨hcurrent, hstop⟩ := atFrontier_iff.1 hgrow.1
  unfold leastBlock at hleast
  have hwrite : Heap.store b.segment b.start (Bytes.ofNat 4 need)
      (h.withTop b.segment (b.start + need)) = .ok () (h.grown b need) := by
    rw [store_ok (by rwa [length_segments_withTop])
      (by rw [lengthAt_withTop, Bytes.length_ofNat]; omega), memoryAt_withTop]
    rfl
  rw [Heap.moveBlock, Action.bind_ok (liveBlock_some hb), hsize]
  simp only [if_neg hlt]
  rw [Action.get_bind, Action.bind_ok (segment_ok hseg), hlength, htop,
    if_pos ⟨hcurrent, hstop, hgrow.2⟩, Action.bind_ok (setTop_ok hseg _), Action.bind_ok hwrite]
  rfl

theorem moveBlock_copied (hb : h.blockOf? p = some b) (hsize : sizeFor? new = some need)
    (hlt : ¬ need ≤ b.size)
    (hno : ¬ (h.AtFrontier b ∧ b.start + need ≤ h.lengthAt b.segment)) :
    Heap.moveBlock p old new h = (do
      let q ← Heap.takeBlock new
      Heap.copyContent p q (min (min old new) (b.size - headerSize))
      Heap.giveBack p
      return q) h := by
  obtain ⟨-, hseg, -⟩ := of_blockOf? hb
  obtain ⟨-, hlength, htop⟩ := answers_of_lt hseg
  rw [atFrontier_iff, and_assoc] at hno
  rw [Heap.moveBlock, Action.bind_ok (liveBlock_some hb), hsize]
  simp only [if_neg hlt]
  rw [Action.get_bind, Action.bind_ok (segment_ok hseg), hlength, htop, if_neg hno]

end Found

section Ending

variable {h : Heap} {L : List Lease} {F U : List Block} {l : Lease}

theorem Booked.drop {b : Block} (hk : Booked h ⟨L, F, b :: U⟩) (hseg : b.segment = h.current)
    (hstop : b.start + b.size = h.topAt h.current) :
    Booked (h.withTop b.segment b.start) ⟨L, F, U⟩ := by
  have hcur : h.current < h.segments.length := hk.tiled.sound.current_lt
  refine hk.transport ?_ rfl rfl rfl rfl fun c _ x _ _ => by simp
  rw [hseg, ground_withTop hcur]
  exact hk.tiled.lower hseg hstop

/-- What is free after a block has been given back, and where the tops are. -/
inductive Returned (h : Heap) (F : List Block) (b : Block) (F' : List Block) (h' : Heap) : Prop
  | lowered (hlast : h.AtFrontier b) (hfree : F' = F)
      (hground : h'.ground = h.ground.setTop h.current b.start)
  | filed (hinner : ¬ h.AtFrontier b) (hfree : F' = b :: F) (hground : h'.ground = h.ground)

theorem Returned.of_ground {b : Block} {F' : List Block} {h' h'' : Heap}
    (hr : Returned h F b F' h') (hsame : h''.ground = h'.ground) : Returned h F b F' h'' := by
  cases hr with
  | lowered hlast hfree hground => exact .lowered hlast hfree (hsame.trans hground)
  | filed hinner hfree hground => exact .filed hinner hfree (hsame.trans hground)

theorem Booked.lowered {b : Block} (hk : Booked h ⟨L, F, b :: U⟩) (hlast : h.AtFrontier b) :
    Booked (h.lowered b) ⟨L, F, U⟩ ∧ Undisturbed h (h.lowered b) ∧
      (h.lowered b).ground = h.ground.setTop h.current b.start := by
  have hmem : b ∈ (Books.mk L F (b :: U)).blocks := List.mem_cons_self
  have hseg := hk.segment_lt hmem
  obtain ⟨-, -, hleast⟩ := hk.bounds hmem
  unfold leastBlock at hleast
  have hdrop := hk.drop hlast.1 hlast.2
  refine ⟨hdrop.transport ?_ rfl rfl rfl rfl fun c hc => ?_,
    (undisturbed_withTop _ _ _).trans (undisturbed_withMemory _ _ _), ?_⟩
  · rw [Heap.lowered, ground_withMemory]
    exact hdrop.tiled
  · rw [Heap.lowered, ← memoryAt_withTop h b.segment b.segment b.start]
    exact (hk.apart_of_loose hc).kept_store (by rwa [length_segments_withTop]) (by omega)
      (by rw [Bytes.length_ofNat]; omega)
  · rw [Heap.lowered, ground_withMemory, ground_withTop hseg, hlast.1]

theorem Booked.giveBack (hk : Booked h ⟨l :: L, F, []⟩) :
    ∃ F' h', Heap.giveBack l.block.pointer h = .ok () h' ∧ Booked h' ⟨L, F', []⟩ ∧
      Undisturbed h h' ∧ Returned h F l.block F' h' := by
  have hb := hk.blockOf? List.mem_cons_self
  have hlen := hk.stop_le_length (hk.mem_of_lease List.mem_cons_self)
  by_cases hlast : h.AtFrontier l.block
  · obtain ⟨hk', hu', hg'⟩ := hk.release.lowered hlast
    exact ⟨F, _, giveBack_lowered hb hlen hlast, hk', hu', .lowered hlast rfl hg'⟩
  · obtain ⟨h', hfile, hk', hu', hg'⟩ := hk.release.file
    exact ⟨_, h', (giveBack_filed hb hlast).trans hfile, hk', hu', .filed hlast rfl hg'⟩

end Ending

/-! ## New content -/

/-- What is known of the first `n` bytes. -/
def knownBelow (n : Nat) (content : Nat → Option UInt8) : Nat → Option UInt8 :=
  fun i => if i < n then content i else none

theorem knownBelow_eq_some {n i : Nat} {content : Nat → Option UInt8} {byte : UInt8} :
    knownBelow n content i = some byte ↔ i < n ∧ content i = some byte := by
  unfold knownBelow
  split
  · next hlt => simp [hlt]
  · next hge => simp [hge]

section Content

variable {h : Heap} {L : List Lease} {F U : List Block} {l d : Lease}

theorem Booked.rewrite (hk : Booked h ⟨l :: L, F, U⟩) (m : Memory) (content : Nat → Option UInt8)
    (hout : ∀ x, x < l.block.start + headerSize ∨ l.block.start + l.block.size ≤ x →
      m.byteAt x = (h.memoryAt l.block.segment).byteAt x)
    (hcontent : ∀ i byte, content i = some byte → i + headerSize < l.block.size ∧
      m.byteAt (l.block.start + headerSize + i) = byte) :
    Booked (h.withMemory l.block.segment m) ⟨{ l with content } :: L, F, U⟩ := by
  have hmem : l.block ∈ (Books.mk (l :: L) F U).blocks := hk.mem_of_lease List.mem_cons_self
  have hseg := hk.segment_lt hmem
  have hheld := hk.held l List.mem_cons_self
  have hat : (h.withMemory l.block.segment m).memoryAt l.block.segment = m := by
    rw [memoryAt_withMemory _ _ _ _ hseg, if_pos rfl]
  have hmoved : Booked (h.withMemory l.block.segment m) ⟨L, F, l.block :: U⟩ :=
    hk.release.withMemory fun x hx => hout x (by unfold headerSize; omega)
  refine hmoved.grant (l := { l with content }) ⟨⟨?_, ?_⟩, hheld.room, ?_⟩
  · rw [hat, Memory.number_congr fun x _ hx => hout x (Or.inl ?_)]
    · exact hheld.marked.size_eq
    · simp only [headerSize] at hx ⊢
      omega
  · rw [hat, Memory.number_congr fun x _ hx => hout x (Or.inl ?_)]
    · exact hheld.marked.tag_eq
    · simp only [headerSize] at hx ⊢
      omega
  · simp only [hat]
    exact hcontent

/-- The lease of a block gets another size, and what is known of its content another extent. -/
theorem Booked.replace (hk : Booked h ⟨l :: L, F, U⟩) (l' : Lease) (hblock : l'.block = l.block)
    (hheld : l'.Held h.memoryAt) : Booked h ⟨l' :: L, F, U⟩ := by
  have hloose := hk.release
  rw [← hblock] at hloose
  exact hloose.grant hheld

theorem Booked.copyContent (hk : Booked h ⟨d :: l :: L, F, U⟩) (len : Nat)
    (hsource : len + headerSize ≤ l.block.size) (htarget : len + headerSize ≤ d.block.size) :
    ∃ m, Heap.copyContent l.block.pointer d.block.pointer len h
        = .ok () (h.withMemory d.block.segment m) ∧
      (∀ x, x < d.block.start + headerSize ∨ d.block.start + d.block.size ≤ x →
        m.byteAt x = (h.memoryAt d.block.segment).byteAt x) ∧
      Booked (h.withMemory d.block.segment m)
        ⟨{ d with content := knownBelow len l.content } :: l :: L, F, U⟩ := by
  have hl : l ∈ d :: l :: L := List.mem_cons_of_mem _ List.mem_cons_self
  have hlmem : l.block ∈ (Books.mk (d :: l :: L) F U).blocks := hk.mem_of_lease hl
  have hdmem : d.block ∈ (Books.mk (d :: l :: L) F U).blocks := hk.mem_of_lease List.mem_cons_self
  have hlseg := hk.segment_lt hlmem
  have hdseg := hk.segment_lt hdmem
  have hllen := hk.stop_le_length hlmem
  have hdlen := hk.stop_le_length hdmem
  obtain ⟨hlm, hls, -⟩ := answers_of_lt hlseg
  obtain ⟨hdm, hds, -⟩ := answers_of_lt hdseg
  have hout : ∀ x, x < d.block.start + headerSize ∨ d.block.start + d.block.size ≤ x →
      ((h.memoryAt d.block.segment).copy (d.block.start + headerSize)
        (h.memoryAt l.block.segment) (l.block.start + headerSize) len).byteAt x
          = (h.memoryAt d.block.segment).byteAt x :=
    fun x hx => Memory.byteAt_copy_of_outside (by omega)
  refine ⟨_, ?_, hout, hk.rewrite _ _ hout ?_⟩
  · rw [Heap.copyContent]
    simp only [hk.toNat_region hlmem, hk.toNat_region hdmem, hk.toNat_offset hlmem,
      hk.toNat_offset hdmem]
    by_cases hsame : l.block.pointer.region = d.block.pointer.region
    · have hsegments : l.block.segment = d.block.segment := by
        rw [← hk.toNat_region hlmem, hsame, hk.toNat_region hdmem]
      simp only [if_pos hsame]
      rw [← hsegments] at hdlen
      rw [Action.bind_ok (segment_ok hlseg), Action.bind_ok (checkRange_ok (by omega)), hlm]
      simp only [if_neg (show ¬ h.segments[l.block.segment].region.size
        < d.block.start + headerSize + len by omega)]
      rw [hsegments]
      exact setMemory_ok hdseg _
    · simp only [if_neg hsame]
      rw [Action.bind_ok (segment_ok hdseg), Action.bind_ok (checkRange_ok (by omega)),
        Action.bind_ok (segment_ok hlseg), Action.bind_ok (checkRange_ok (by omega)), hlm, hdm]
      exact setMemory_ok hdseg _
  · intro i byte hi
    obtain ⟨hlt, hcontent⟩ := knownBelow_eq_some.1 hi
    obtain ⟨-, hbyte⟩ := (hk.held l hl).content i byte hcontent
    refine ⟨by omega, ?_⟩
    rw [Memory.byteAt_copy, if_pos (by omega), Nat.add_sub_cancel_left]
    exact hbyte

end Content

/-! ## Another size -/

section Moving

variable {h : Heap} {L : List Lease} {F : List Block} {l : Lease} {need new : Nat}

/-- A lease as it is after its size has changed. -/
def Lease.resized (l : Lease) (new : Nat) (b : Block) : Lease :=
  ⟨b, new, knownBelow (min l.size new) l.content⟩

/-- The last block below the top of the current segment grows. For the tiling it is taken down to its
start and then set up again with its new size. -/
theorem Booked.enlarge {b : Block} {U : List Block} (hk : Booked h ⟨L, F, b :: U⟩)
    (hneed : leastBlock ≤ need) (hmod : need % 8 = 0) (hseg : b.segment = h.current)
    (hstop : b.start + b.size = h.topAt h.current)
    (hfit : b.start + need ≤ h.lengthAt h.current) :
    Booked (h.withTop b.segment (b.start + need))
      ⟨L, F, ⟨b.segment, b.start, need⟩ :: U⟩ := by
  have hlt := hk.segment_lt (b := b) List.mem_cons_self
  have hdrop := hk.drop hseg hstop
  have hlower : (h.withTop b.segment b.start).topAt b.segment = b.start := by
    rw [topAt_withTop _ _ _ _ hlt, if_pos rfl]
  have hground : (h.withTop b.segment (b.start + need)).ground
      = (h.withTop b.segment b.start).ground.setTop b.segment (b.start + need) := by
    rw [ground_withTop hlt, ground_withTop hlt]
    simp only [Ground.setTop]
    congr 1
    funext j
    split <;> rfl
  refine hdrop.transport ?_ rfl rfl rfl rfl fun c _ x _ _ => by simp
  have htiled := hdrop.tiled.raise need hneed hmod (by
    show (h.withTop b.segment b.start).topAt h.current + need
      ≤ (h.withTop b.segment b.start).lengthAt h.current
    rw [← hseg, hlower, lengthAt_withTop, hseg]
    exact hfit)
  have hcurrent : (h.withTop b.segment b.start).ground.current = b.segment := hseg.symm
  have htop : (h.withTop b.segment b.start).ground.top b.segment = b.start := hlower
  rw [hcurrent, htop] at htiled
  rw [hground]
  exact htiled

/-- A lease whose block has grown is as it was, once the new size stands in the header. -/
theorem Lease.Held.resized {memory : Nat → Memory} (hl : l.Held memory) (hlt : need < 2 ^ 32)
    (hneed : l.block.size ≤ need) (hroom : new + headerSize ≤ need) {memory' : Nat → Memory}
    (hat : memory' l.block.segment
      = (memory l.block.segment).store l.block.start (Bytes.ofNat 4 need)) :
    (l.resized new ⟨l.block.segment, l.block.start, need⟩).Held memory' := by
  refine ⟨⟨?_, ?_⟩, hroom, fun i byte hi => ?_⟩
  · simp only [Lease.resized, hat]
    exact Memory.number_store _ _ _ _ (by omega)
  · simp only [Lease.resized, hat]
    rw [Memory.number_store_of_disjoint (Or.inr (Nat.le_of_eq (by rw [Bytes.length_ofNat])))]
    exact hl.marked.tag_eq
  · obtain ⟨-, hcontent⟩ := knownBelow_eq_some.1 hi
    obtain ⟨hin, hbyte⟩ := hl.content i byte hcontent
    simp only [Lease.resized, hat]
    refine ⟨by omega, ?_⟩
    rw [Memory.byteAt_store_of_outside (Or.inr (by rw [Bytes.length_ofNat, headerSize]; omega))]
    exact hbyte

/-- The last block below the top of the current segment grows, and its lease with it. -/
theorem Booked.growInPlace (hk : Booked h ⟨l :: L, F, []⟩) (hneed : l.block.size ≤ need)
    (hlt : need < 2 ^ 32) (hmod : need % 8 = 0) (hroom : new + headerSize ≤ need)
    (hlast : h.AtFrontier l.block) (hfit : l.block.start + need ≤ h.lengthAt l.block.segment) :
    Booked (h.grown l.block need)
        ⟨l.resized new ⟨l.block.segment, l.block.start, need⟩ :: L, F, []⟩ ∧
      Undisturbed h (h.grown l.block need) := by
  have hmem : l.block ∈ (Books.mk (l :: L) F []).blocks := hk.mem_of_lease List.mem_cons_self
  have hseg := hk.segment_lt hmem
  obtain ⟨-, -, hleast⟩ := hk.bounds hmem
  have hraised := hk.release.enlarge (Nat.le_trans hleast hneed) hmod hlast.1 hlast.2
    (hlast.1 ▸ hfit)
  unfold leastBlock at hleast
  obtain ⟨-, hk'⟩ := hraised.store l.block.start (Bytes.ofNat 4 need)
    (Nat.le_refl _)
    (by rw [Bytes.length_ofNat]; show l.block.start + 4 ≤ l.block.start + need; omega)
  simp only [memoryAt_withTop] at hk'
  refine ⟨hk'.grant (l := l.resized new ⟨l.block.segment, l.block.start, need⟩) ?_,
    (undisturbed_withTop _ _ _).trans (undisturbed_withMemory _ _ _)⟩
  have hat : (h.grown l.block need).memoryAt l.block.segment
      = (h.memoryAt l.block.segment).store l.block.start (Bytes.ofNat 4 need) := by
    rw [grown, memoryAt_withMemory _ _ _ _ (by rwa [length_segments_withTop]), if_pos rfl]
  exact (hk.held l List.mem_cons_self).resized hlt hneed hroom hat

/-- A lease gets another size, in its block or in another one. -/
theorem Booked.moveBlock (hk : Booked h ⟨l :: L, F, []⟩) (new : Nat) :
    Served (l :: L) (fun b => l.resized new b :: L) h
      (Heap.moveBlock l.block.pointer l.size new h) := by
  have hb := hk.blockOf? List.mem_cons_self
  have hheld := hk.held l List.mem_cons_self
  have hroom := hheld.room
  cases hsize : sizeFor? new with
  | none =>
      rw [moveBlock_unsized hb hsize]
      exact ⟨F, hk, Undisturbed.refl h⟩
  | some need =>
      obtain ⟨hneed, hlt, hmod, hnew⟩ := sizeFor?_spec hsize
      by_cases hsuffices : need ≤ l.block.size
      · rw [moveBlock_enough hb hsize hsuffices]
        refine ⟨l.block, F, rfl, hk.replace (l.resized new l.block) rfl ⟨hheld.marked, ?_, ?_⟩,
          Undisturbed.refl h⟩
        · show new + headerSize ≤ l.block.size
          omega
        · intro i byte hi
          exact hheld.content i byte (knownBelow_eq_some.1 hi).2
      by_cases hgrow : h.AtFrontier l.block ∧
          l.block.start + need ≤ h.lengthAt l.block.segment
      · obtain ⟨hk', hu'⟩ := hk.growInPlace (by omega) hlt hmod hnew hgrow.1 hgrow.2
        rw [moveBlock_grown hb hsize hsuffices hgrow]
        exact ⟨⟨l.block.segment, l.block.start, need⟩, F, rfl, hk', hu'⟩
      · rw [moveBlock_copied hb hsize hsuffices hgrow]
        have htake := hk.takeBlock new
        cases hrun : Heap.takeBlock new h with
        | error e h' =>
            rw [Action.bind_error hrun]
            rw [hrun] at htake
            exact htake.of_error
        | ok q h₁ =>
            rw [hrun] at htake
            obtain ⟨b, F₁, hq, hk₁, hu₁⟩ := htake
            have hfits := hk₁.held _ List.mem_cons_self
            have hlen : min (min l.size new) (l.block.size - headerSize) = min l.size new := by
              omega
            obtain ⟨m, hcopy, -, hk₂⟩ := hk₁.copyContent (min l.size new) (by omega)
              (by have := hfits.room; simp only at this ⊢; omega)
            obtain ⟨F₂, h₃, hgive, hk₃, hu₃, -⟩ := (hk₂.perm (List.Perm.swap _ _ _)).giveBack
            subst hq
            rw [Action.bind_ok hrun, hlen, Action.bind_ok hcopy, Action.bind_ok hgive]
            exact ⟨b, F₂, rfl, hk₃, hu₁.trans ((undisturbed_withMemory _ _ _).trans hu₃)⟩

end Moving

end BlockHost.Heap
