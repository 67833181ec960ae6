import BlockHost.Proofs.HeapBlocks

/-!
# Leases come, move and go

Above filing and unfiling, what a heap does for its clients is to make leases and to end them.
Here are the operations in full: a block for a request, from a class or from the rest of the
segments; the end of a lease; and the move of a lease to another block when it cannot grow where
it is.

A request can be refused, and only for lack of memory. Even then the heap may have changed,
since the rests of segments that are too small are left behind, but no lease has: `Served` says
both.
-/

namespace BlockHost.Heap

/-! ## Requests and pointers -/

theorem sizeFor?_spec {request need : Nat} (h : sizeFor? request = some need) :
    leastBlock ≤ need ∧ need < 2 ^ 32 ∧ need % 8 = 0 ∧ request + headerSize ≤ need := by
  have hle := le_padded (request + headerSize)
  have hmod := padded_mod (request + headerSize)
  simp only [sizeFor?] at h
  split at h
  · split at h
    · cases h
      unfold leastBlock at *
      omega
    · cases h
  · cases h

section Pointers

variable {h : Heap} {k : Books} {b : Block} {p : Pointer}

theorem Booked.toNat_region (hk : Booked h k) (hb : b ∈ k.blocks) :
    b.pointer.region.toNat = b.segment := by
  obtain ⟨hseg, -, -⟩ := hk.bounds hb
  simp only [Block.pointer, UInt32.toNat_ofNat']
  omega

theorem Booked.toNat_offset (hk : Booked h k) (hb : b ∈ k.blocks) :
    b.pointer.offset.toNat = b.start + headerSize := by
  obtain ⟨-, hstop, hleast⟩ := hk.bounds hb
  unfold leastBlock at hleast
  simp only [Block.pointer, UInt32.toNat_ofNat', headerSize]
  omega

theorem Booked.mem_of_lease (_ : Booked h k) {l : Lease} (hl : l ∈ k.leases) : l.block ∈ k.blocks :=
  List.mem_append_right _ (List.mem_append_right _ (List.mem_map_of_mem hl))

theorem Booked.blockOf? (hk : Booked h k) {l : Lease} (hl : l ∈ k.leases) :
    h.blockOf? l.block.pointer = some l.block := by
  have hmem := hk.mem_of_lease hl
  have hseg := hk.segment_lt hmem
  obtain ⟨hm, -, ht⟩ := answers_of_lt hseg
  have hfits := hk.fits hmem
  have hmod := hfits.start_mod
  have hsize := hfits.size_ge
  have hstop : l.block.start + l.block.size ≤ h.topAt l.block.segment := hfits.stop_le
  have hleast := hsize
  unfold leastBlock at hleast
  have hmarked := (hk.held l hl).marked
  have hword : Bytes.toNat (h.segments[l.block.segment].region.memory.load l.block.start 4)
      = l.block.size := by
    rw [hm]
    exact hmarked.size_eq
  have htag : Bytes.toNat (h.segments[l.block.segment].region.memory.load (l.block.start + 4) 4)
      = usedTag := by
    rw [hm]
    exact hmarked.tag_eq
  simp only [Heap.blockOf?, hk.toNat_region hmem, hk.toNat_offset hmem,
    List.getElem?_eq_getElem hseg, Option.bind_eq_bind, Option.bind_some, Nat.add_sub_cancel, hword,
    htag]
  rw [if_neg (by unfold headerSize; omega), if_neg (by omega)]

/-- What a pointer leads to looks like a used block, whoever has written its header. -/
theorem of_blockOf? (hb : h.blockOf? p = some b) :
    b.segment = p.region.toNat ∧ b.segment < h.segments.length ∧
      b.start + headerSize = p.offset.toNat ∧ b.start % 8 = 0 ∧ leastBlock ≤ b.size ∧
      b.start + b.size ≤ h.topAt b.segment ∧ b.Marked h.memoryAt usedTag := by
  simp only [Heap.blockOf?, Option.bind_eq_bind, Option.bind_eq_some_iff] at hb
  obtain ⟨s, hs, hb⟩ := hb
  obtain ⟨hm, -, ht⟩ := answers_of_getElem? hs
  obtain ⟨hlt, -⟩ := List.getElem?_eq_some_iff.1 hs
  split at hb
  · cases hb
  next hplace =>
  split at hb
  · cases hb
  next hheader =>
  cases hb
  rw [hm] at hheader ⊢
  simp only [not_or, Decidable.not_not, Nat.not_lt] at hplace hheader
  obtain ⟨⟨hmod, hge, -⟩, htag, hsize, hstop⟩ := And.intro hplace hheader
  unfold headerSize at *
  exact ⟨rfl, hlt, by simp only; omega, by simp only; omega, hsize, ht ▸ hstop, rfl, htag⟩

theorem liveBlock_none (hb : h.blockOf? p = none) :
    Heap.liveBlock p h = .error (.refused .invalidPointer) h := by
  rw [Heap.liveBlock, hb]

theorem liveBlock_some (hb : h.blockOf? p = some b) : Heap.liveBlock p h = .ok b h := by
  rw [Heap.liveBlock, hb]

theorem Booked.liveBlock (hk : Booked h k) {l : Lease} (hl : l ∈ k.leases) :
    liveBlock l.block.pointer h = .ok l.block h :=
  liveBlock_some (hk.blockOf? hl)

end Pointers

/-! ## A block for a request -/

/-- What a client knows of a new payload. -/
def nothingKnown : Nat → Option UInt8 :=
  fun _ => none

/-- How an action ends that hands out a block: with right books, in which the leases are those
for the block, or with a refusal for lack of memory and the leases from before. -/
def Served (before : List Lease) (after : Block → List Lease) (h : Heap) :
    EStateM.Result (Stop HeapFailure) Heap Pointer → Prop
  | .ok p h' => ∃ b F, p = b.pointer ∧ Booked h' ⟨after b, F, []⟩ ∧ Undisturbed h h'
  | .error (.refused .outOfMemory) h' => ∃ F, Booked h' ⟨before, F, []⟩ ∧ Undisturbed h h'
  | .error _ _ => False

/-- A refusal does not say what would have been handed out. -/
theorem Served.of_error {before : List Lease} {after after' : Block → List Lease} {h h' : Heap}
    {e : Stop HeapFailure} (hr : Served before after h (.error e h')) :
    Served before after' h (.error e h') := by
  match e with
  | .refused .outOfMemory => exact hr

section Taking

variable {h : Heap} {L : List Lease} {F U : List Block} {b : Block} {need request : Nat}

/-- The part of a block that goes to a request. -/
def Block.part (b : Block) (need : Nat) : Block :=
  if leastBlock ≤ b.size - need then ⟨b.segment, b.start, need⟩ else b

/-- What is left of a block, if it is a block of its own. -/
def Block.rest (b : Block) (need : Nat) : List Block :=
  if leastBlock ≤ b.size - need then [⟨b.segment, b.start + need, b.size - need⟩] else []

/-- The heap with the header of a used block in its memory. -/
def marked (h : Heap) (b : Block) : Heap :=
  h.withMemory b.segment (headed (h.memoryAt b.segment) b.start b.size usedTag)

/-- The heap in which what a block has too much is filed. -/
def trimmed (h : Heap) (b : Block) (need : Nat) : Heap :=
  if leastBlock ≤ b.size - need then h.filed ⟨b.segment, b.start + need, b.size - need⟩ else h

theorem occupy_ok (hseg : b.segment < h.segments.length)
    (hlen : b.start + b.size ≤ h.lengthAt b.segment) (hneed : leastBlock ≤ need)
    (hle : need ≤ b.size) :
    Heap.occupy b need h
      = .ok (b.part need).pointer ((h.trimmed b need).marked (b.part need)) := by
  unfold leastBlock at hneed
  simp only [Heap.occupy, if_neg (show ¬ b.size < need by omega), Block.part, trimmed]
  by_cases hrest : leastBlock ≤ b.size - need
  · simp only [if_pos hrest]
    unfold leastBlock at hrest
    have hfile := file_ok (h := h) (b := ⟨b.segment, b.start + need, b.size - need⟩) hseg
      (by simp only [headerSize]; omega)
    have hcount : (h.filed ⟨b.segment, b.start + need, b.size - need⟩).segments.length
        = h.segments.length := length_segments_withMemory _ _ _
    have hlength : (h.filed ⟨b.segment, b.start + need, b.size - need⟩).lengthAt b.segment
        = h.lengthAt b.segment := lengthAt_withMemory _ _ _ _
    rw [Action.bind_ok hfile, Action.bind_ok (writeHeader_ok (by rw [hcount]; exact hseg)
      (by rw [hlength, headerSize]; omega))]
    rfl
  · simp only [if_neg hrest]
    rw [Action.bind_ok (writeHeader_ok hseg (by unfold headerSize; omega))]
    rfl

/-- A loose block becomes a lease as soon as its header says so. -/
theorem Booked.mark (hk : Booked h ⟨L, F, b :: U⟩) (hroom : request + headerSize ≤ b.size) :
    Booked (h.marked b) ⟨⟨b, request, nothingKnown⟩ :: L, F, U⟩ := by
  have hseg := hk.segment_lt (b := b) List.mem_cons_self
  obtain ⟨-, hstop, -⟩ := hk.bounds (b := b) List.mem_cons_self
  have hat : (h.marked b).memoryAt b.segment
      = headed (h.memoryAt b.segment) b.start b.size usedTag := by
    rw [Heap.marked, memoryAt_withMemory _ _ _ _ hseg, if_pos rfl]
  refine (hk.writeHeader b.size usedTag).2.grant
    ⟨⟨?_, ?_⟩, hroom, fun i byte hi => by cases hi⟩
  · exact (congrArg (Memory.number · b.start 4) hat).trans (headed_size (by omega))
  · exact (congrArg (Memory.number · (b.start + 4) 4) hat).trans (headed_tag (by decide))

/-- A loose block that is large enough becomes a lease; what it has too much becomes free. -/
theorem Booked.occupy (hk : Booked h ⟨L, F, b :: U⟩) (hneed : leastBlock ≤ need)
    (hmod : need % 8 = 0) (hle : need ≤ b.size) (hroom : request + headerSize ≤ need) :
    ∃ h', Heap.occupy b need h = .ok (b.part need).pointer h' ∧
      Booked h' ⟨⟨b.part need, request, nothingKnown⟩ :: L, b.rest need ++ F, U⟩ ∧
      Undisturbed h h' ∧ h'.ground = h.ground := by
  have hseg := hk.segment_lt (b := b) List.mem_cons_self
  have hlen := hk.stop_le_length (b := b) List.mem_cons_self
  refine ⟨_, occupy_ok hseg hlen hneed hle, ?_⟩
  by_cases hrest : leastBlock ≤ b.size - need
  · have hb : b = ⟨b.segment, b.start, need + (b.size - need)⟩ := by
      rw [Nat.add_sub_cancel' hle]
    have hk' := hk
    rw [hb] at hk'
    obtain ⟨hk₁, hu₁, hg₁⟩ :=
      ((hk'.cut hneed hrest hmod).perm_loose (List.Perm.swap _ _ _)).filed
    simp only [trimmed, Block.part, Block.rest, if_pos hrest]
    exact ⟨hk₁.mark hroom, hu₁.trans (undisturbed_withMemory _ _ _),
      (ground_withMemory _ _ _).trans hg₁⟩
  · simp only [trimmed, Block.part, Block.rest, if_neg hrest]
    exact ⟨hk.mark (by omega), undisturbed_withMemory _ _ _, ground_withMemory _ _ _⟩

theorem Booked.raise (hk : Booked h ⟨L, F, U⟩) (hneed : leastBlock ≤ need) (hmod : need % 8 = 0)
    (hroom : h.topAt h.current + need ≤ h.lengthAt h.current) :
    setTop h.current (h.topAt h.current + need) h
        = .ok () (h.withTop h.current (h.topAt h.current + need)) ∧
      Booked (h.withTop h.current (h.topAt h.current + need))
        ⟨L, F, ⟨h.current, h.topAt h.current, need⟩ :: U⟩ := by
  have hcur : h.current < h.segments.length := hk.tiled.sound.current_lt
  refine ⟨setTop_ok hcur _, hk.transport ?_ rfl rfl rfl rfl fun c _ x _ _ => by simp⟩
  rw [ground_withTop hcur]
  exact hk.tiled.raise need hneed hmod hroom

/-- The heap whose next segment is the current one. -/
def advanced (h : Heap) : Heap :=
  { h with current := h.current + 1 }

theorem Booked.advance (hk : Booked h ⟨L, F, U⟩) (hnext : h.ground.current + 1 < h.ground.count)
    (hfull : h.ground.top h.ground.current = h.ground.length h.ground.current) :
    Booked h.advanced ⟨L, F, U⟩ :=
  hk.transport (hk.tiled.advance hnext hfull) rfl rfl rfl rfl
    fun _ _ _ _ _ => rfl

/-- The heap that has left the rest of its current segment behind: as a free block, or as a gap when it is
too small for one. -/
def leftBehind (h : Heap) : Heap :=
  let full := h.withTop h.current (h.lengthAt h.current)
  let rest := h.lengthAt h.current - h.topAt h.current
  if leastBlock ≤ rest then (full.filed ⟨h.current, h.topAt h.current, rest⟩).advanced
  else full.advanced

theorem ground_leftBehind (hcur : h.current < h.segments.length) :
    h.leftBehind.ground = (h.ground.setTop h.current (h.lengthAt h.current)).advance := by
  have hfull := ground_withTop hcur (h.lengthAt h.current)
  rw [leftBehind]
  split
  · refine Eq.trans ?_ (congrArg Ground.advance hfull)
    exact congrArg Ground.advance (ground_withMemory _ _ _)
  · exact congrArg Ground.advance hfull

theorem current_leftBehind : h.leftBehind.current = h.current + 1 := by
  rw [leftBehind]
  split <;> rfl

theorem sound_leftBehind (hsound : h.ground.Sound) (hnext : h.current + 1 < h.segments.length) :
    h.leftBehind.ground.Sound := by
  have hfull := hsound.setTop (Nat.le_refl _) (hsound.length_mod hsound.current_lt)
  rw [ground_leftBehind hsound.current_lt]
  exact hfull.advance hnext (if_pos rfl)

theorem undisturbed_leftBehind (h : Heap) : Undisturbed h h.leftBehind := by
  have hfull := undisturbed_withTop h h.current (h.lengthAt h.current)
  rw [leftBehind]
  split
  · exact hfull.trans ((undisturbed_withMemory _ _ _).trans
      ⟨rfl, rfl, rfl, rfl, rfl, rfl, rfl, rfl, fun _ => rfl⟩)
  · exact hfull.trans ⟨rfl, rfl, rfl, rfl, rfl, rfl, rfl, rfl, fun _ => rfl⟩

theorem leave_ok (hcur : h.current < h.segments.length)
    (htop : h.topAt h.current ≤ h.lengthAt h.current) (rest : HeapAction Pointer) :
    (setTop h.current (h.lengthAt h.current) >>= fun _ =>
      if leastBlock ≤ h.lengthAt h.current - h.topAt h.current then
        Heap.file ⟨h.current, h.topAt h.current, h.lengthAt h.current - h.topAt h.current⟩ >>=
          fun _ => modify advanced >>= fun _ => rest
      else modify advanced >>= fun _ => rest) h = rest h.leftBehind := by
  rw [Action.bind_ok (setTop_ok hcur _), leftBehind]
  by_cases hrest : leastBlock ≤ h.lengthAt h.current - h.topAt h.current
  · have hwhole := hrest
    unfold leastBlock at hwhole
    have hfile := file_ok (h := h.withTop h.current (h.lengthAt h.current))
      (b := ⟨h.current, h.topAt h.current, h.lengthAt h.current - h.topAt h.current⟩)
      (by rw [length_segments_withTop]; exact hcur)
      (by rw [lengthAt_withTop]; simp only [headerSize]; omega)
    simp only [if_pos hrest]
    rw [Action.bind_ok hfile, Action.modify_bind]
  · simp only [if_neg hrest]
    rw [Action.modify_bind]

theorem Booked.leave (hk : Booked h ⟨L, F, []⟩) (hnext : h.current + 1 < h.segments.length) :
    ∃ F', Booked h.leftBehind ⟨L, F', []⟩ := by
  have hcur : h.current < h.segments.length := hk.tiled.sound.current_lt
  have htop : h.topAt h.current ≤ h.lengthAt h.current := hk.tiled.sound.top_le h.current
  have hlen : h.lengthAt h.current % 8 = 0 := hk.tiled.sound.length_mod hcur
  have hmod : h.topAt h.current % 8 = 0 := hk.tiled.sound.top_mod h.current
  have hwhole : h.topAt h.current + (h.lengthAt h.current - h.topAt h.current)
      = h.lengthAt h.current := Nat.add_sub_cancel' htop
  rw [leftBehind]
  by_cases hrest : leastBlock ≤ h.lengthAt h.current - h.topAt h.current
  · simp only [if_pos hrest]
    obtain ⟨-, hk₁⟩ := hk.raise hrest (by omega) (by omega)
    rw [hwhole] at hk₁
    obtain ⟨hk₂, -, hg₂⟩ := hk₁.filed
    rw [ground_withTop hcur] at hg₂
    exact ⟨_, hk₂.advance (by rw [hg₂]; exact hnext) (by rw [hg₂]; exact if_pos rfl)⟩
  · simp only [if_neg hrest]
    refine ⟨F, hk.transport ?_ rfl rfl rfl rfl fun c _ x _ _ =>
      congrArg (Memory.byteAt · x) (memoryAt_withTop _ _ _ _)⟩
    show Tiled (h.withTop h.current (h.lengthAt h.current)).ground.advance _
    rw [ground_withTop hcur]
    refine hk.tiled.abandon hnext ?_
    show h.lengthAt h.current < h.topAt h.current + leastBlock
    omega

/-- The block is the last one below the top of the current segment. -/
def AtFrontier (h : Heap) (b : Block) : Prop :=
  b.segment = h.current ∧ b.start + b.size = h.topAt h.current

/-- The rest of some segment that has not been left behind has room for so much. -/
def HasRoom (h : Heap) (need : Nat) : Prop :=
  ∃ i, h.current ≤ i ∧ i < h.segments.length ∧ h.topAt i + need ≤ h.lengthAt i

/-- A segment that has no room can be left behind. -/
theorem hasRoom_leftBehind (hcur : h.current < h.segments.length)
    (hshort : ¬ h.topAt h.current + need ≤ h.lengthAt h.current) :
    h.leftBehind.HasRoom need ↔ h.HasRoom need := by
  have hu := undisturbed_leftBehind h
  have hground := ground_leftBehind hcur
  have hcurrent := current_leftBehind (h := h)
  have htop : ∀ i, i ≠ h.current → h.leftBehind.topAt i = h.topAt i := by
    intro i hi
    exact (congrArg (Ground.top · i) hground).trans (if_neg hi)
  constructor
  · rintro ⟨i, hle, hlt, hroom⟩
    rw [htop i (by omega), hu.lengthAt] at hroom
    exact ⟨i, by omega, hu.count ▸ hlt, hroom⟩
  · rintro ⟨i, hle, hlt, hroom⟩
    have hne : i ≠ h.current := by
      rintro rfl
      omega
    refine ⟨i, by omega, hu.count.symm ▸ hlt, ?_⟩
    rw [htop i hne, hu.lengthAt]
    exact hroom

/-- The heap with a used block above the top of its current segment. -/
def raised (h : Heap) (need : Nat) : Heap :=
  (h.withTop h.current (h.topAt h.current + need)).marked ⟨h.current, h.topAt h.current, need⟩

/-- The search of the rest of the segments ends in the first one that has room, or in the last one. The
induction is on the segments that are left, of which every step but the last leaves one behind. -/
theorem extend_induct {P : Heap → EStateM.Result (Stop HeapFailure) Heap Pointer → Prop}
    (hneed : leastBlock ≤ need)
    (room : ∀ h : Heap, h.ground.Sound → h.topAt h.current + need ≤ h.lengthAt h.current →
      P h (.ok (Block.pointer ⟨h.current, h.topAt h.current, need⟩) (h.raised need)))
    (last : ∀ h : Heap, h.ground.Sound → ¬ h.topAt h.current + need ≤ h.lengthAt h.current →
      h.current + 1 = h.segments.length → P h (.error (.refused .outOfMemory) h))
    (next : ∀ (h : Heap) r, h.ground.Sound → ¬ h.topAt h.current + need ≤ h.lengthAt h.current →
      h.current + 1 < h.segments.length → P h.leftBehind r → P h r) :
    ∀ {left : Nat} {h : Heap}, h.ground.Sound → left = h.segments.length - h.current →
      P h (Heap.extend need left h) := by
  intro left
  induction left with
  | zero =>
      intro h hsound hleft
      have hcur : h.current < h.segments.length := hsound.current_lt
      omega
  | succ left ih =>
      intro h hsound hleft
      have hcur : h.current < h.segments.length := hsound.current_lt
      have htop : h.topAt h.current ≤ h.lengthAt h.current := hsound.top_le h.current
      obtain ⟨-, hl, ht⟩ := answers_of_lt hcur
      rw [Heap.extend, Action.get_bind, Action.bind_ok (segment_ok hcur), hl, ht]
      by_cases hfit : h.topAt h.current + need ≤ h.lengthAt h.current
      · simp only [if_pos hfit]
        have hsmall : ¬ leastBlock ≤ need - need := by
          unfold leastBlock
          omega
        have hocc := occupy_ok (h := h.withTop h.current (h.topAt h.current + need))
          (b := ⟨h.current, h.topAt h.current, need⟩)
          (by rw [length_segments_withTop]; exact hcur)
          (by rw [lengthAt_withTop]; exact hfit) hneed (Nat.le_refl _)
        simp only [trimmed, Block.part, if_neg hsmall] at hocc
        rw [Action.bind_ok (setTop_ok hcur _), hocc]
        exact room h hsound hfit
      · simp only [if_neg hfit]
        by_cases hlast : left = 0
        · simp only [if_pos hlast]
          exact last h hsound hfit (by omega)
        · simp only [if_neg hlast]
          have hcount := (undisturbed_leftBehind h).count
          have hsound' := sound_leftBehind hsound (by omega)
          have hrest := ih hsound' (by rw [hcount, current_leftBehind]; omega)
          rw [← leave_ok hcur htop (Heap.extend need left)] at hrest
          exact next h _ hsound hfit (by omega) hrest

/-- How the search of the rest of the segments ends. -/
def Extended (L : List Lease) (request need : Nat) (h : Heap) :
    EStateM.Result (Stop HeapFailure) Heap Pointer → Prop
  | .ok p h' => ∃ b F, p = b.pointer ∧ Booked h' ⟨⟨b, request, nothingKnown⟩ :: L, F, []⟩ ∧
      Undisturbed h h' ∧ h'.AtFrontier b ∧ b.size = need ∧ h.HasRoom need
  | .error (.refused .outOfMemory) h' =>
      ∃ F, Booked h' ⟨L, F, []⟩ ∧ Undisturbed h h' ∧ ¬ h.HasRoom need
  | .error _ _ => False

theorem Extended.trans {h' : Heap} {r : EStateM.Result (Stop HeapFailure) Heap Pointer}
    (hu : Undisturbed h h') (hroom : h'.HasRoom need ↔ h.HasRoom need)
    (hr : Extended L request need h' r) : Extended L request need h r := by
  match r with
  | .ok _ _ =>
      obtain ⟨b, F, hp, hk, hu', hlast, hsize, hhas⟩ := hr
      exact ⟨b, F, hp, hk, hu.trans hu', hlast, hsize, hroom.1 hhas⟩
  | .error (.refused .outOfMemory) _ =>
      obtain ⟨F, hk, hu', hhas⟩ := hr
      exact ⟨F, hk, hu.trans hu', fun hno => hhas (hroom.2 hno)⟩

/-- A block from the rest of the segments. -/
theorem Booked.extend (hneed : leastBlock ≤ need) (hmod : need % 8 = 0)
    (hroom : request + headerSize ≤ need) (hk : Booked h ⟨L, F, []⟩) :
    Extended L request need h (Heap.extend need (h.segments.length - h.current) h) := by
  refine extend_induct (P := fun h r => ∀ F, Booked h ⟨L, F, []⟩ → Extended L request need h r)
    hneed ?room ?last ?next hk.tiled.sound rfl F hk
  case room =>
    intro h hsound hfit F hk
    have hcur : h.current < h.segments.length := hsound.current_lt
    obtain ⟨-, hk₁⟩ := hk.raise hneed hmod hfit
    refine ⟨_, _, rfl, hk₁.mark hroom, (undisturbed_withTop _ _ _).trans
      (undisturbed_withMemory _ _ _), ⟨rfl, ?_⟩, rfl, _, Nat.le_refl _, hcur, hfit⟩
    show h.topAt h.current + need = Heap.topAt (Heap.withMemory _ _ _) h.current
    rw [topAt_withMemory, topAt_withTop _ _ _ _ hcur, if_pos rfl]
  case last =>
    intro h hsound hfit hlast F hk
    refine ⟨F, hk, Undisturbed.refl h, ?_⟩
    rintro ⟨i, hle, hlt, hhas⟩
    have hi : i = h.current := by omega
    exact hfit (hi ▸ hhas)
  case next =>
    intro h r hsound hfit hnext ih F hk
    obtain ⟨F', hk'⟩ := hk.leave hnext
    exact (ih F' hk').trans (undisturbed_leftBehind h) (hasRoom_leftBehind hsound.current_lt hfit)

/-- Where the block comes from that a request gets: from the front of the first class that is sure to
suffice or, when there is none, from the rest of the segments. -/
inductive Origin (h : Heap) (L : List Lease) (F : List Block) (need : Nat) (b : Block)
    (F' : List Block) (h' : Heap) : Prop
  | filed {c : SizeClass} {source : Block} {others : List Block}
      (hclass : (SizeClass.ceil need).bind h.firstOccupied = some c)
      (hfiled : (Books.mk L F []).filed c = source :: others) (hsize : need ≤ source.size)
      (hpart : b = source.part need) (hfree : F' = source.rest need ++ F.erase source)
      (hground : h'.ground = h.ground)
  | rest (hclass : (SizeClass.ceil need).bind h.firstOccupied = none) (hlast : h'.AtFrontier b)
      (hsize : b.size = need) (hroom : h.HasRoom need)

/-- How a request for a block ends. -/
def Taken (L : List Lease) (F : List Block) (request : Nat) (h : Heap) :
    EStateM.Result (Stop HeapFailure) Heap Pointer → Prop
  | .ok p h' => ∃ need b F', sizeFor? request = some need ∧ p = b.pointer ∧
      Booked h' ⟨⟨b, request, nothingKnown⟩ :: L, F', []⟩ ∧ Undisturbed h h' ∧
      Origin h L F need b F' h'
  | .error (.refused .outOfMemory) h' => ∃ F', Booked h' ⟨L, F', []⟩ ∧ Undisturbed h h' ∧
      ∀ need, sizeFor? request = some need →
        (SizeClass.ceil need).bind h.firstOccupied = none ∧ ¬ h.HasRoom need
  | .error _ _ => False

theorem Booked.taken (hk : Booked h ⟨L, F, []⟩) (request : Nat) :
    Taken L F request h (Heap.takeBlock request h) := by
  rw [Heap.takeBlock]
  cases hsize : sizeFor? request with
  | none =>
      refine ⟨F, hk, Undisturbed.refl h, fun need heq => ?_⟩
      rw [hsize] at heq
      cases heq
  | some need =>
      obtain ⟨hneed, hlt, hmod, hroom⟩ := sizeFor?_spec hsize
      simp only [Action.get_bind]
      cases hclass : (SizeClass.ceil need).bind h.firstOccupied with
      | none =>
          have hextended := hk.extend hneed hmod hroom
          simp only
          cases hrun : Heap.extend need (h.segments.length - h.current) h with
          | ok p h' =>
              rw [hrun] at hextended
              obtain ⟨b, F', hp, hk', hu', hlast, heq, hhas⟩ := hextended
              exact ⟨need, b, F', hsize, hp, hk', hu', .rest hclass hlast heq hhas⟩
          | error stop h' =>
              rw [hrun] at hextended
              match stop with
              | .refused .outOfMemory =>
                  obtain ⟨F', hk', hu', hhas⟩ := hextended
                  refine ⟨F', hk', hu', fun need' heq => ?_⟩
                  rw [hsize] at heq
                  cases heq
                  exact ⟨hclass, hhas⟩
      | some c =>
          obtain ⟨least, hceil, hfirst⟩ := Option.bind_eq_some_iff.1 hclass
          have hfound := List.find?_some hfirst
          simp only [Bool.and_eq_true, decide_eq_true_eq] at hfound
          obtain ⟨b, rest, h₁, hfiled, hunfile, hfloor, hk₁, hu₁, hg₁⟩ := hk.unfile hfound.2
          obtain ⟨-, hstop, hleast⟩ := hk₁.bounds (b := b) List.mem_cons_self
          have hle : need ≤ b.size :=
            SizeClass.le_of_ceil_le_floor hneed hlt hleast (by omega) hceil (hfloor ▸ hfound.1)
          obtain ⟨h₂, hocc, hk₂, hu₂, hg₂⟩ := hk₁.occupy hneed hmod hle hroom
          simp only
          rw [Action.bind_ok hunfile, hocc]
          exact ⟨need, _, _, hsize, rfl, hk₂, hu₁.trans hu₂,
            .filed hclass hfiled hle rfl rfl (hg₂.trans hg₁)⟩

/-- A block for a request, wherever it comes from. -/
theorem Booked.takeBlock (hk : Booked h ⟨L, F, []⟩) (request : Nat) :
    Served L (fun b => ⟨b, request, nothingKnown⟩ :: L) h (Heap.takeBlock request h) := by
  have htaken := hk.taken request
  cases hrun : Heap.takeBlock request h with
  | ok p h' =>
      rw [hrun] at htaken
      obtain ⟨need, b, F', -, hp, hk', hu', -⟩ := htaken
      exact ⟨b, F', hp, hk', hu'⟩
  | error stop h' =>
      rw [hrun] at htaken
      match stop with
      | .refused .outOfMemory =>
          obtain ⟨F', hk', hu', -⟩ := htaken
          exact ⟨F', hk', hu'⟩

end Taking

end BlockHost.Heap
